import EcmaCore.Proofs.BitPatterns
import EcmaCore.Proofs.LooseEquality

/-!
# The equalities together

Identity of values is an equivalence that the conversions respect. The operator `===` is the
engine's own equality; it leaves out what is not a number and joins the two zeros, and what it joins
the operator `==` joins too, without a call. All of this is said of values as a machine keeps them,
with a bit pattern for each number.
-/
namespace EcmaCore

/-- A value as a machine keeps it. -/
inductive RawValue where
  | undefined
  | null
  | boolean (b : Bool)
  | number (a : BitPattern)
  | string (t : Text)
  | object (o : ObjectId)
  deriving DecidableEq, Repr

namespace RawValue

/-- The value that is kept. -/
def value : RawValue → Value
  | undefined => .undefined
  | null => .null
  | boolean b => .boolean b
  | number a => .number a.number
  | string t => .string t
  | object o => .object o

/-- Agreement of kind and content, numbers by a relation of their patterns. -/
def agree (numbers : BitPattern → BitPattern → Bool) : RawValue → RawValue → Bool
  | undefined, undefined => true
  | null, null => true
  | boolean a, boolean b => a == b
  | number a, number b => numbers a b
  | string s, string t => s == t
  | object o, object p => o == p
  | _, _ => false

def isNaN : RawValue → Bool
  | number a => a.isNaN
  | _ => false

def areOppositeZeros : RawValue → RawValue → Bool
  | number a, number b => a.isZero && b.isZero && a.isNegative != b.isNegative
  | _, _ => false

def toBoolean : RawValue → Bool
  | number a => a.isTruthy
  | x => x.value.toBoolean

/-- The number of a primitive value. One that is a number already keeps its pattern. -/
def toNumber : RawValue → BitPattern
  | number a => a
  | x => .ofNumber x.value.toNumber

/-- The text of a primitive value. -/
def toText (format : Formatter) : RawValue → Text
  | number a => .ofString (a.toText format)
  | x => x.value.toText format

variable (x y : RawValue)

/-- Agreement of what is kept comes to agreement of the values. -/
theorem agree_value {numbers : Binary64 → Binary64 → Bool}
    {patterns : BitPattern → BitPattern → Bool}
    (h : ∀ a b : BitPattern, numbers a.number b.number = patterns a b) :
    x.value.agree numbers y.value = x.agree patterns y := by
  cases x <;> cases y
  case number.number a b => exact h a b
  all_goals rfl

theorem sameValue_value : x.value.sameValue y.value = x.agree (BitPattern.compare false) y :=
  x.agree_value y BitPattern.same_number

theorem strictEquals_value : x.value.strictEquals y.value = x.agree (BitPattern.compare true) y :=
  x.agree_value y BitPattern.equals_number

theorem toBoolean_value : x.value.toBoolean = x.toBoolean := by
  cases x with
  | number a => exact a.isTruthy_number
  | _ => rfl

theorem toNumber_value : x.value.toNumber = x.toNumber.number := by
  cases x with
  | number a => rfl
  | _ => exact (BitPattern.number_ofNumber _).symm

theorem toText_value (format : Formatter) : x.value.toText format = x.toText format := by
  cases x with
  | number a => exact congrArg Text.ofString (a.toText_number format)
  | _ => rfl

/-- Every value is kept in some way. -/
theorem exists_value (v : Value) : ∃ x : RawValue, x.value = v := by
  cases v with
  | undefined => exact ⟨undefined, rfl⟩
  | null => exact ⟨null, rfl⟩
  | boolean b => exact ⟨boolean b, rfl⟩
  | number n => exact ⟨number (.ofNumber n), congrArg Value.number (BitPattern.number_ofNumber n)⟩
  | string t => exact ⟨string t, rfl⟩
  | object o => exact ⟨object o, rfl⟩

theorem sameValue_equivalence :
    Equivalence fun x y : RawValue => x.value.sameValue y.value = true := by
  simp only [Value.sameValue_iff]
  exact ⟨fun _ => rfl, Eq.symm, Eq.trans⟩

/-- What is kept for one value is converted alike. -/
theorem alike_of_same {x y : RawValue} (h : x.value.sameValue y.value = true) :
    x.toBoolean = y.toBoolean ∧ BitPattern.compare false x.toNumber y.toNumber = true ∧
      ∀ format, x.toText format = y.toText format := by
  have hvalue := (Value.sameValue_iff x.value y.value).mp h
  refine ⟨?_, ?_, fun format => ?_⟩
  · rw [← toBoolean_value, ← toBoolean_value, hvalue]
  · rw [← BitPattern.same_number, ← toNumber_value, ← toNumber_value, hvalue, Binary64.same_iff]
  · rw [← toText_value, ← toText_value, hvalue]

/-- Values that are the same without being equal are not numbers, in whatever patterns. -/
theorem same_only_iff :
    x.value.sameValue y.value = true ∧ x.value.strictEquals y.value = false ↔
      x.isNaN = true ∧ y.isNaN = true := by
  rw [sameValue_value, strictEquals_value]
  cases x <;> cases y
  case number.number a b => exact BitPattern.same_only_iff a b
  all_goals simp [agree, isNaN]

/-- Values that are equal without being the same are zeros of opposite signs. -/
theorem strict_only_iff :
    x.value.sameValue y.value = false ∧ x.value.strictEquals y.value = true ↔
      x.areOppositeZeros y = true := by
  rw [sameValue_value, strictEquals_value]
  cases x <;> cases y
  case number.number a b => simpa [areOppositeZeros, agree, and_assoc] using a.strict_only_iff b
  all_goals simp [agree, areOppositeZeros]

end RawValue

namespace Binary64
variable {x y z : Binary64}

theorem equals_self_iff : x.equals x = true ↔ x.isNaN = false := by
  rw [equals_iff]
  cases x <;> simp [isNaN, isZero]

theorem equals_trans (hxy : x.equals y = true) (hyz : y.equals z = true) : x.equals z = true := by
  rw [equals_iff] at hxy hyz ⊢
  obtain ⟨rfl, -⟩ | ⟨hx, hy⟩ := hxy
  · exact hyz
  · obtain ⟨rfl, -⟩ | ⟨-, hz⟩ := hyz
    · exact .inr ⟨hx, hy⟩
    · exact .inr ⟨hx, hz⟩

end Binary64

namespace Value
variable {x y z : Value}

theorem strictEquals_comm (x y : Value) : x.strictEquals y = y.strictEquals x := by
  cases x <;> cases y
  case number.number n m => exact n.equals_comm m
  case boolean.boolean | string.string | object.object => exact BEq.comm
  all_goals rfl

/-- Only numbers can be equal without being one value. -/
theorem eq_of_strictEquals (h : x.strictEquals y = true) (hx : ∀ n, x ≠ number n) : x = y := by
  cases x <;> cases y
  case number.number n m => exact absurd rfl (hx n)
  all_goals simp_all [strictEquals, agree]

theorem isObject_of_sameKind (h : x.sameKind y = true) : y.isObject = x.isObject := by
  cases x with
  | object o =>
    cases y with
    | object p => rfl
    | _ => cases h
  | _ =>
    cases y with
    | object p => cases h
    | _ => rfl

theorem sameKind_of_strictEquals (h : x.strictEquals y = true) : x.sameKind y = true := by
  cases x with
  | number n =>
    cases y with
    | number m => rfl
    | _ => cases h
  | _ =>
    rw [← eq_of_strictEquals h nofun]
    rfl

theorem strictEquals_trans (hxy : x.strictEquals y = true) (hyz : y.strictEquals z = true) :
    x.strictEquals z = true := by
  cases x with
  | number n =>
    cases y with
    | number m =>
      cases z with
      | number k => exact Binary64.equals_trans hxy hyz
      | _ => cases hyz
    | _ => cases hxy
  | _ => rwa [eq_of_strictEquals hxy nofun]

theorem strictEquals_eq_hostEquals (x y : Value) : x.strictEquals y = x.hostEquals y := by
  cases x <;> cases y
  case boolean.boolean | string.string | object.object =>
    rw [Bool.eq_iff_iff]
    simp [strictEquals, agree, hostEquals]
  all_goals rfl

end Value

theorem RawValue.strictEquals_self_iff (x : RawValue) :
    x.value.strictEquals x.value = true ↔ x.isNaN = false := by
  cases x with
  | number a => exact Binary64.equals_self_iff.trans (by rw [a.isNaN_number, isNaN])
  | _ => simp [value, Value.strictEquals, Value.agree, isNaN]

namespace Host
variable {σ : Type} (host : Host σ)

/-- Two values of one kind are compared by `===`. -/
theorem looseEquals_of_sameKind {x y : Value} (h : x.sameKind y = true) :
    host.looseEquals x y = pure (x.strictEquals y) := by
  cases hx : x.isObject with
  | false =>
    have hy : y.isObject = false := (Value.isObject_of_sameKind h).trans hx
    rw [host.looseEquals_of_primitives hx hy, Value.plainEquals_of_sameKind h hx]
  | true =>
    obtain ⟨o, rfl⟩ := Value.isObject_iff.mp hx
    cases y with
    | object p => rfl
    | _ => cases h

theorem looseEquals_of_strictEquals {x y : Value} (h : x.strictEquals y = true) :
    host.looseEquals x y = pure true := by
  rw [host.looseEquals_of_sameKind (Value.sameKind_of_strictEquals h), h]

/-- What a machine tests and converts on what it keeps comes to what is done with the values. -/
structure ReadsPatterns (host : Host σ) : Prop where
  kept : ∀ v : Value, ∃ x : RawValue, x.value = v
  same : ∀ x y : RawValue, x.value.sameValue y.value = x.agree (BitPattern.compare false) y
  strict : ∀ x y : RawValue, x.value.strictEquals y.value = x.agree (BitPattern.compare true) y
  engine : ∀ x y : RawValue, x.value.hostEquals y.value = x.agree BitPattern.equals y
  boolean : ∀ x : RawValue, x.value.toBoolean = x.toBoolean
  number : ∀ x : RawValue, x.value.isObject = false →
    host.toNumber x.value = pure x.toNumber.number
  text : ∀ (x : RawValue) (format : Formatter), x.value.isObject = false →
    host.toText x.value format = pure (x.toText format)

/-- The laws of the equalities, for values as a machine keeps them. -/
structure EqualitiesFit (host : Host σ) : Prop where
  same_equivalence : Equivalence fun x y : RawValue => x.value.sameValue y.value = true
  strict_comm : ∀ x y : RawValue, x.value.strictEquals y.value = y.value.strictEquals x.value
  strict_trans : ∀ x y z : RawValue, x.value.strictEquals y.value = true →
    y.value.strictEquals z.value = true → x.value.strictEquals z.value = true
  strict_self_iff : ∀ x : RawValue, x.value.strictEquals x.value = true ↔ x.isNaN = false
  strict_engine : ∀ x y : RawValue, x.value.strictEquals y.value = x.value.hostEquals y.value
  same_only_iff : ∀ x y : RawValue,
    x.value.sameValue y.value = true ∧ x.value.strictEquals y.value = false ↔
      x.isNaN = true ∧ y.isNaN = true
  strict_only_iff : ∀ x y : RawValue,
    x.value.sameValue y.value = false ∧ x.value.strictEquals y.value = true ↔
      x.areOppositeZeros y = true
  /-- Nothing is called, and nothing fails. -/
  loose : ∀ x y : RawValue, x.value.strictEquals y.value = true →
    host.looseEquals x.value y.value = pure true
  /-- The conversions of primitives do not tell apart what is the same, whatever the patterns. -/
  alike : ∀ x y : RawValue, x.value.sameValue y.value = true → x.value.isObject = false →
    x.toBoolean = y.toBoolean ∧ BitPattern.compare false x.toNumber y.toNumber = true ∧
      ∀ format, x.toText format = y.toText format

theorem readsPatterns (host : Host σ) : host.ReadsPatterns where
  kept := RawValue.exists_value
  same := RawValue.sameValue_value
  strict := RawValue.strictEquals_value
  engine x y := by
    rw [← Value.strictEquals_eq_hostEquals]
    exact x.strictEquals_value y
  boolean := RawValue.toBoolean_value
  number x hx := by
    rw [(goesThrough_of_eq host.toNumber_eq_map).primitive x.value hx, x.toNumber_value]
  text x format hx := by
    rw [toText, host.toPrimitive_of_primitive hx, pure_bind, x.toText_value]

end Host

/-- Identity is an equivalence that conversions respect, `===` is the engine's equality, the two
differ on what is not a number and on the two zeros alone, and `==` joins what `===` does. -/
theorem equalities_fit_together {σ : Type} (host : Host σ) :
    host.ReadsPatterns ∧ host.EqualitiesFit := by
  refine ⟨host.readsPatterns, ?_⟩
  exact {
    same_equivalence := RawValue.sameValue_equivalence
    strict_comm := fun x y => Value.strictEquals_comm x.value y.value
    strict_trans := fun x y z => Value.strictEquals_trans
    strict_self_iff := RawValue.strictEquals_self_iff
    strict_engine := fun x y => Value.strictEquals_eq_hostEquals x.value y.value
    same_only_iff := RawValue.same_only_iff
    strict_only_iff := RawValue.strict_only_iff
    loose := fun x y => host.looseEquals_of_strictEquals
    alike := fun x y h _ => RawValue.alike_of_same h }

end EcmaCore
