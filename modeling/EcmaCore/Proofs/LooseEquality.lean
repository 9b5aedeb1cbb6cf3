import EcmaCore.Proofs.Primitive

/-!
# The operator `==` in closed form

The language defines the operator by rules that put one comparison in the place of another, with a
conversion by the host among them. Four steps are always enough, since a conversion never gives an
object. What they come to is a rule for two primitives, which is symmetric, and at most one
conversion of an object before it.
-/
namespace EcmaCore

/-- What a step of a comparison comes to: its result, or another comparison in its place. -/
inductive Comparison where
  | settled (b : Bool)
  | replaced (x y : Value)

namespace Value

def sameKind : Value → Value → Bool
  | undefined, undefined | null, null | boolean _, boolean _ => true
  | number _, number _ | string _, string _ | object _, object _ => true
  | _, _ => false

def isBoolean : Value → Bool
  | boolean _ => true
  | _ => false

/-- Equality of two values by their numbers. Undefined and null have none to be compared: they are
like each other and like nothing else. -/
def numericEquals (x y : Value) : Bool :=
  if x.isCoercible && y.isCoercible then x.toNumber.equals y.toNumber
  else !x.isCoercible && !y.isCoercible

/-- The operator `==` for two values that are not objects. -/
def plainEquals : Value → Value → Bool
  | string s, string t => s.units == t.units
  | x, y => x.numericEquals y

end Value

theorem Text.beq_eq_units (s t : Text) : (s == t) = (s.units == t.units) := by
  obtain ⟨us⟩ := s
  obtain ⟨vs⟩ := t
  apply Bool.eq_iff_iff.mpr
  simp

theorem Binary64.equals_ofBool (a b : Bool) : (ofBool a).equals (ofBool b) = (a == b) := by
  cases a <;> cases b <;> decide +kernel

theorem Binary64.equals_comm (x y : Binary64) : x.equals y = y.equals x := by
  rcases x with _ | s | ⟨s, m⟩ <;> rcases y with _ | t | ⟨t, n⟩
  case infinity.infinity => exact BEq.comm
  case finite.finite =>
    by_cases h : m = n
    · subst h
      simp [equals, BEq.comm (a := s)]
    · rw [equals, equals, beq_false_of_ne h, beq_false_of_ne (Ne.symm h), Bool.false_and,
        Bool.false_and]
  all_goals rfl

namespace Value
variable {x y : Value}

theorem numericEquals_comm (x y : Value) : x.numericEquals y = y.numericEquals x := by
  unfold numericEquals
  rw [Bool.and_comm, Binary64.equals_comm, Bool.and_comm (!x.isCoercible)]

theorem plainEquals_comm (x y : Value) : x.plainEquals y = y.plainEquals x := by
  cases x <;> cases y
  case string.string => exact BEq.comm
  all_goals exact numericEquals_comm _ _

/-- A boolean counts as its number. -/
theorem plainEquals_numberOfBoolean (x y : Value) :
    x.plainEquals y.numberOfBoolean = x.plainEquals y := by
  cases x <;> cases y <;> rfl

/-- Two primitives of one kind are compared by content. -/
theorem plainEquals_of_sameKind (h : x.sameKind y = true) (hx : x.isObject = false) :
    x.plainEquals y = x.strictEquals y := by
  cases x with
  | object o => cases hx
  | boolean a =>
    cases y with
    | boolean b => exact Binary64.equals_ofBool a b
    | _ => cases h
  | string s =>
    cases y with
    | string t => exact (Text.beq_eq_units s t).symm
    | _ => cases h
  | undefined =>
    cases y with
    | undefined => rfl
    | _ => cases h
  | null =>
    cases y with
    | null => rfl
    | _ => cases h
  | number n =>
    cases y with
    | number m => rfl
    | _ => cases h

theorem isObject_of_uncoercible (h : x.isCoercible = false) : x.isObject = false := by
  cases x with
  | object o => cases h
  | _ => rfl

theorem isObject_numberOfBoolean (x : Value) : x.numberOfBoolean.isObject = x.isObject := by
  cases x <;> rfl

theorem isBoolean_numberOfBoolean (x : Value) : x.numberOfBoolean.isBoolean = false := by
  cases x <;> rfl

theorem looseEquals_eq_plainEquals (hx : x.isObject = false) (hy : y.isObject = false) :
    x.looseEquals y = x.plainEquals y := by
  cases x with
  | object o => cases hx
  | string s =>
    cases y with
    | object p => cases hy
    | string t => exact Text.beq_eq_units s t
    | _ => rfl
  | _ =>
    cases y with
    | object p => cases hy
    | _ => rfl

end Value

namespace Host
open Act
variable {σ : Type} (host : Host σ)

/-- One step of a comparison, by the first rule that fits. -/
def compareOnce (x y : Value) : Act σ Comparison :=
  if x.sameKind y then return .settled (x.strictEquals y)
  else match x, y with
    | .null, .undefined | .undefined, .null => return .settled true
    | .number n, .string _ => return .settled (n.equals (← host.toNumber y))
    | .string _, .number n => return .settled ((← host.toNumber x).equals n)
    | .boolean _, _ => return .replaced (.number (← host.toNumber x)) y
    | _, .boolean _ => return .replaced x (.number (← host.toNumber y))
    | .number _, .object _ | .string _, .object _ =>
      return .replaced x (← host.toPrimitive y .default)
    | .object _, .number _ | .object _, .string _ =>
      return .replaced (← host.toPrimitive x .default) y
    | _, _ => return .settled false

/-- Compares by the rules, in a number of steps at most. -/
def compareWithin : Nat → Value → Value → Act σ (Option Bool)
  | 0, _, _ => return none
  | steps + 1, x, y => do
    match ← host.compareOnce x y with
    | .settled b => return some b
    | .replaced x y => compareWithin steps x y

section Steps
variable {host} {x y : Value} {n : Nat}

theorem compareWithin_of_settled {b : Bool} (h : host.compareOnce x y = pure (.settled b)) :
    host.compareWithin (n + 1) x y = pure (some b) := by
  rw [compareWithin, h, pure_bind]

theorem compareWithin_of_replaced {a b : Value}
    (h : host.compareOnce x y = pure (.replaced a b)) :
    host.compareWithin (n + 1) x y = host.compareWithin n a b := by
  rw [compareWithin, h, pure_bind]

theorem compareOnce_of_sameKind (h : x.sameKind y = true) :
    host.compareOnce x y = pure (.settled (x.strictEquals y)) := by
  unfold compareOnce
  rw [if_pos h]

/-- Two booleans, or two primitives that are no booleans, are settled in one step. -/
theorem compareOnce_plain (hx : x.isObject = false) (hy : y.isObject = false)
    (hbool : x.isBoolean = y.isBoolean) :
    host.compareOnce x y = pure (.settled (x.plainEquals y)) := by
  cases x with
  | object o => cases hx
  | boolean a =>
    cases y with
    | boolean b => rw [compareOnce_of_sameKind rfl, Value.plainEquals_of_sameKind rfl rfl]
    | _ => cases hbool
  | string s =>
    cases y with
    | object p => cases hy
    | boolean b => cases hbool
    | string t => rw [compareOnce_of_sameKind rfl, Value.plainEquals_of_sameKind rfl rfl]
    | _ => rfl
  | _ =>
    cases y with
    | object p => cases hy
    | boolean b => cases hbool
    | _ => rfl

/-- A single boolean is replaced by its number. -/
theorem compareOnce_boolean (hbool : x.isBoolean ≠ y.isBoolean) :
    host.compareOnce x y = pure (.replaced x.numberOfBoolean y.numberOfBoolean) := by
  cases x with
  | boolean a =>
    cases y with
    | boolean b => exact absurd rfl hbool
    | _ => rfl
  | _ =>
    cases y with
    | boolean b => rfl
    | _ => exact absurd rfl hbool

/-- Without an object two steps are enough. -/
theorem compareWithin_plain (hx : x.isObject = false) (hy : y.isObject = false) :
    host.compareWithin (n + 2) x y = pure (some (x.plainEquals y)) := by
  by_cases hbool : x.isBoolean = y.isBoolean
  · exact compareWithin_of_settled (compareOnce_plain hx hy hbool)
  · have hsettled : host.compareOnce x.numberOfBoolean y.numberOfBoolean = _ :=
      compareOnce_plain (x.isObject_numberOfBoolean.trans hx)
        (y.isObject_numberOfBoolean.trans hy)
        (x.isBoolean_numberOfBoolean.trans y.isBoolean_numberOfBoolean.symm)
    rw [compareWithin_of_replaced (compareOnce_boolean hbool), compareWithin_of_settled hsettled,
      Value.plainEquals_numberOfBoolean, Value.plainEquals_comm, Value.plainEquals_numberOfBoolean,
      Value.plainEquals_comm]

/-- After a step that converts an object two steps are enough. -/
theorem compareWithin_of_converted {o : ObjectId} {f g : Value → Value}
    (h : host.compareOnce x y =
      (fun p => .replaced (f p) (g p)) <$> host.toPrimitive (.object o) .default)
    (hf : ∀ p, p.isObject = false → (f p).isObject = false)
    (hg : ∀ p, p.isObject = false → (g p).isObject = false) :
    host.compareWithin (n + 3) x y =
      (fun p => some ((f p).plainEquals (g p))) <$> host.toPrimitive (.object o) .default := by
  rw [compareWithin, h, bind_map_left, ← bind_pure_comp]
  exact defaultValue_bind_congr fun p hp => compareWithin_plain (hf p hp) (hg p hp)

end Steps

/-- The operator `==` for an object and a value that is not one. -/
def objectEquals (o : ObjectId) (v : Value) : Act σ Bool :=
  if v.isCoercible then (·.plainEquals v) <$> host.toPrimitive (.object o) .default
  else return false

theorem objectEquals_numberOfBoolean (o : ObjectId) (v : Value) :
    host.objectEquals o v.numberOfBoolean = host.objectEquals o v := by
  have hcoercible : v.numberOfBoolean.isCoercible = v.isCoercible := by cases v <;> rfl
  simp only [objectEquals, Value.plainEquals_numberOfBoolean, hcoercible]

section Steps
variable {host} {v : Value} {n : Nat} (o : ObjectId)

/-- An object against a value that is no boolean. -/
theorem compareWithin_unreplaced (hv : v.isObject = false) (hbool : v.isBoolean = false) :
    host.compareWithin (n + 3) (.object o) v = some <$> host.objectEquals o v ∧
      host.compareWithin (n + 3) v (.object o) = some <$> host.objectEquals o v := by
  have hmirror : (fun p => some (v.plainEquals p)) = fun p => some (p.plainEquals v) := by
    funext p
    rw [Value.plainEquals_comm]
  cases v with
  | object p => cases hv
  | boolean b => cases hbool
  | undefined | null => exact ⟨compareWithin_of_settled rfl, compareWithin_of_settled rfl⟩
  | number _ | string _ =>
    constructor
    · rw [compareWithin_of_converted (g := fun _ => _) (bind_pure_comp _ _) (fun _ hp => hp)
        fun _ _ => hv]
      exact (Functor.map_map _ _ _).symm
    · rw [compareWithin_of_converted (f := fun _ => _) (bind_pure_comp _ _) (fun _ _ => hv)
        fun _ hp => hp]
      exact (congrArg (· <$> _) hmirror).trans (Functor.map_map _ _ _).symm

/-- An object against any value that is not one: a boolean is replaced first. -/
theorem compareWithin_object (hv : v.isObject = false) :
    host.compareWithin (n + 4) (.object o) v = some <$> host.objectEquals o v ∧
      host.compareWithin (n + 4) v (.object o) = some <$> host.objectEquals o v := by
  cases hbool : v.isBoolean with
  | false => exact compareWithin_unreplaced o hv hbool
  | true =>
    have hleft : (Value.object o).isBoolean ≠ v.isBoolean := by
      rw [hbool]
      exact Bool.false_ne_true
    have hboth : host.compareWithin (n + 3) (.object o) v.numberOfBoolean = _ ∧ _ :=
      compareWithin_unreplaced o (v.isObject_numberOfBoolean.trans hv) v.isBoolean_numberOfBoolean
    rw [objectEquals_numberOfBoolean] at hboth
    rw [compareWithin_of_replaced (compareOnce_boolean hleft),
      compareWithin_of_replaced (compareOnce_boolean hleft.symm)]
    exact hboth

theorem looseEquals_object (hv : v.isObject = false) :
    host.looseEquals (.object o) v = host.objectEquals o v ∧
      host.looseEquals v (.object o) = host.objectEquals o v := by
  have hboxable : v.isBoxable = v.isCoercible := by
    cases v with
    | object p => cases hv
    | _ => rfl
  rw [looseEquals_object_left host o hv, looseEquals_object_right host o hv, hboxable, objectEquals,
    ← bind_pure_comp]
  constructor
  · congr 1
    exact defaultValue_bind_congr fun p hp => by rw [Value.looseEquals_eq_plainEquals hp hv]
  · congr 1
    exact defaultValue_bind_congr fun p hp => by
      rw [Value.looseEquals_eq_plainEquals hv hp, Value.plainEquals_comm]

end Steps

theorem looseEquals_of_primitives {x y : Value} (hx : x.isObject = false)
    (hy : y.isObject = false) : host.looseEquals x y = pure (x.plainEquals y) := by
  rw [host.looseEquals_plain hx hy, Value.looseEquals_eq_plainEquals hx hy]

theorem looseEquals_comm (x y : Value) : host.looseEquals x y = host.looseEquals y x := by
  cases hx : x.isObject with
  | false =>
    cases hy : y.isObject with
    | false =>
      rw [host.looseEquals_of_primitives hx hy, host.looseEquals_of_primitives hy hx,
        Value.plainEquals_comm]
    | true =>
      obtain ⟨p, rfl⟩ := Value.isObject_iff.mp hy
      exact (looseEquals_object p hx).2.trans (looseEquals_object p hx).1.symm
  | true =>
    obtain ⟨o, rfl⟩ := Value.isObject_iff.mp hx
    cases hy : y.isObject with
    | false => exact (looseEquals_object o hy).1.trans (looseEquals_object o hy).2.symm
    | true =>
      obtain ⟨p, rfl⟩ := Value.isObject_iff.mp hy
      exact congrArg pure BEq.comm

/-- Four steps settle every comparison, and what they come to is the operator. -/
theorem compareWithin_eq_looseEquals (n : Nat) (x y : Value) :
    host.compareWithin (n + 4) x y = some <$> host.looseEquals x y := by
  cases hx : x.isObject with
  | false =>
    cases hy : y.isObject with
    | false => rw [compareWithin_plain hx hy, host.looseEquals_of_primitives hx hy, map_pure]
    | true =>
      obtain ⟨p, rfl⟩ := Value.isObject_iff.mp hy
      rw [(compareWithin_object p hx).2, (looseEquals_object p hx).2]
  | true =>
    obtain ⟨o, rfl⟩ := Value.isObject_iff.mp hx
    cases hy : y.isObject with
    | false => rw [(compareWithin_object o hy).1, (looseEquals_object o hy).1]
    | true =>
      obtain ⟨p, rfl⟩ := Value.isObject_iff.mp hy
      exact compareWithin_of_settled (compareOnce_of_sameKind rfl)

/-- The operator `==` on every pair of values: what it gives, and that the rules come to it. -/
structure ComparesLoosely (host : Host σ) : Prop where
  objects : ∀ o p, host.looseEquals (.object o) (.object p) = pure (decide (o = p))
  primitives : ∀ x y, x.isObject = false → y.isObject = false →
    host.looseEquals x y = pure (x.plainEquals y)
  /-- An object and undefined or null: nothing is called. -/
  apart : ∀ o v, v.isCoercible = false → host.looseEquals (.object o) v = pure false
  /-- An object and a boolean, a number or a text: the object is converted, once. -/
  converted : ∀ o v, v.isBoxable = true → host.looseEquals (.object o) v =
    (fun p => p.plainEquals v) <$> host.toPrimitive (.object o) .default
  comm : ∀ x y, host.looseEquals x y = host.looseEquals y x
  steps : ∀ n x y, host.compareWithin (n + 4) x y = some <$> host.looseEquals x y

end Host

/-- The operator `==` has a closed form, whatever callables do, and the closed form is symmetric. -/
theorem loose_equality_has_closed_form {σ : Type} (host : Host σ) : host.ComparesLoosely where
  objects o p := rfl
  primitives x y := host.looseEquals_of_primitives
  apart o v hv := by
    rw [(Host.looseEquals_object o (Value.isObject_of_uncoercible hv)).1, Host.objectEquals, hv]
    rfl
  converted o v hv := by
    obtain ⟨hobject, hcoercible⟩ := Value.coercible_of_boxable hv
    rw [(Host.looseEquals_object o hobject).1, Host.objectEquals, if_pos hcoercible]
  comm := host.looseEquals_comm
  steps := host.compareWithin_eq_looseEquals

end EcmaCore
