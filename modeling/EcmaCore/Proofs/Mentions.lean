import EcmaCore.Description
import EcmaCore.Equality
import EcmaCore.Reference

/-!
# Identities that things mention

A thing mentions the identities that can be read out of it. In a closed world everything mentions
only identities that were given out, so that nobody can name an object before it is made. The
engine's own state takes part in this through an instance that the engine supplies.
-/
namespace EcmaCore

class Mentions (α : Type) where
  mentions : α → ObjectId → Prop

export Mentions (mentions)

/-- Mentions only identities of the first `n` objects. -/
def Below {α : Type} [Mentions α] (n : Nat) (a : α) : Prop := ∀ o, mentions a o → o.index < n

theorem Below.mono {α : Type} [Mentions α] {m n : Nat} {a : α} (h : Below m a) (hmn : m ≤ n) :
    Below n a :=
  fun o ho => Nat.lt_of_lt_of_le (h o ho) hmn

instance : Mentions ObjectId := ⟨fun o p => o = p⟩
instance : Mentions Value := ⟨fun v o => v = .object o⟩
instance : Mentions Unit := ⟨fun _ _ => False⟩
instance : Mentions Bool := ⟨fun _ _ => False⟩
instance : Mentions Binary64 := ⟨fun _ _ => False⟩
instance : Mentions Int32 := ⟨fun _ _ => False⟩
instance : Mentions UInt32 := ⟨fun _ _ => False⟩
instance : Mentions UInt16 := ⟨fun _ _ => False⟩
instance : Mentions Text := ⟨fun _ _ => False⟩
instance : Mentions ScopeId := ⟨fun _ _ => False⟩

variable {α : Type} [Mentions α]

instance : Mentions (Option α) := ⟨fun a o => ∃ x, a = some x ∧ mentions x o⟩
instance : Mentions (List α) := ⟨fun as o => ∃ x ∈ as, mentions x o⟩

instance : Mentions Slot where
  mentions
    | .data value _, o => mentions value o
    | .accessor getter setter, o => mentions getter o ∨ mentions setter o

instance : Mentions Property := ⟨fun p o => mentions p.slot o⟩

instance : Mentions Descriptor where
  mentions d o := mentions d.value o ∨ mentions d.getter o ∨ mentions d.setter o

instance : Mentions Object where
  mentions x o := mentions x.prototype o ∨ ∃ key p, x.properties.find? key = some p ∧ mentions p o

instance : Mentions Heap := ⟨fun h o => ∃ p, mentions (h.object p) o⟩
instance : Mentions Realm := ⟨fun r o => ∃ i, mentions (r.get? i) o⟩
instance : Mentions Binding := ⟨fun b o => mentions b.value o⟩
instance : Mentions Scope := ⟨fun s o => ∃ name, mentions (s.binding? name) o⟩

instance : Mentions Base where
  mentions
    | .object p, o => mentions p o
    | .primitive v, o => mentions v o
    | .scope _, _ => False
    | .unresolvable, _ => False

instance : Mentions Reference := ⟨fun r o => mentions r.base o⟩

instance : Mentions Resolution where
  mentions
    | .reference r, o => mentions r o
    | .value v, o => mentions v o

/-- The value that a fault shows or carries. -/
def Fault.value? : Fault → Option Value
  | .typeError (.notCallable v) => some v
  | .typeError (.noDescription v) => some v
  | .typeError (.getterNotCallable v) => some v
  | .typeError (.setterNotCallable v) => some v
  | .typeError (.noWrapper v) => some v
  | .typeError (.notCoercible v) => some v
  | .referenceError (.notAssignable v) => some v
  | .thrown v => some v
  | _ => none

instance : Mentions Fault := ⟨fun e o => mentions e.value? o⟩

@[simp] theorem below_objectId {n : Nat} {o : ObjectId} : Below n o ↔ o.index < n := by
  simp [Below, mentions]

@[simp] theorem below_object {n : Nat} {o : ObjectId} : Below n (Value.object o) ↔ o.index < n := by
  simp [Below, mentions]

theorem below_of_isObject_eq_false {n : Nat} {v : Value} (h : v.isObject = false) : Below n v := by
  intro o ho
  cases ho
  cases h

/-- A fault that carries no value mentions nothing. -/
theorem below_fault {n : Nat} {e : Fault} (h : e.value? = none) : Below n e := by
  rintro o ⟨v, hv, _⟩
  rw [h] at hv
  cases hv

@[simp] theorem below_none {n : Nat} : Below n (none : Option α) := by
  simp [Below, mentions]

@[simp] theorem below_some {n : Nat} {a : α} : Below n (some a) ↔ Below n a := by
  simp [Below, mentions]

@[simp] theorem below_nil {n : Nat} : Below n ([] : List α) := by
  simp [Below, mentions]

@[simp] theorem below_cons {n : Nat} {a : α} {as : List α} :
    Below n (a :: as) ↔ Below n a ∧ Below n as := by
  simp [Below, mentions, or_imp, forall_and]

@[simp] theorem below_unit {n : Nat} {a : Unit} : Below n a := nofun
@[simp] theorem below_bool {n : Nat} {a : Bool} : Below n a := nofun
@[simp] theorem below_binary64 {n : Nat} {a : Binary64} : Below n a := nofun
@[simp] theorem below_int32 {n : Nat} {a : Int32} : Below n a := nofun
@[simp] theorem below_uint32 {n : Nat} {a : UInt32} : Below n a := nofun
@[simp] theorem below_uint16 {n : Nat} {a : UInt16} : Below n a := nofun
@[simp] theorem below_text {n : Nat} {a : Text} : Below n a := nofun
@[simp] theorem below_scopeId {n : Nat} {a : ScopeId} : Below n a := nofun

@[simp] theorem below_ofSlot {n : Nat} {slot : Option ObjectId} :
    Below n (Value.ofSlot slot) ↔ Below n slot := by
  cases slot with
  | none => simpa [Value.ofSlot] using below_of_isObject_eq_false rfl
  | some o => simp [Value.ofSlot]

theorem below_data {n : Nat} {v : Value} {w e c : Bool} :
    Below n (Property.data v w e c) ↔ Below n v := Iff.rfl

theorem below_accessor {n : Nat} {g s : Option ObjectId} {e c : Bool} :
    Below n (Property.accessor g s e c) ↔ Below n g ∧ Below n s := by
  simp [Below, mentions, Property.accessor, or_imp, forall_and]

theorem below_descriptor {n : Nat} {d : Descriptor} :
    Below n d ↔ Below n d.value ∧ Below n d.getter ∧ Below n d.setter := by
  simp only [Below, mentions, or_imp, forall_and]

theorem below_object_record {n : Nat} {x : Object} :
    Below n x ↔ Below n x.prototype ∧ ∀ key p, x.properties.find? key = some p → Below n p := by
  constructor
  · intro h
    exact ⟨fun o ho => h o (.inl ho), fun key p hp o ho => h o (.inr ⟨key, p, hp, ho⟩)⟩
  · rintro ⟨hl, hp⟩ o (ho | ⟨key, p, hk, ho⟩)
    · exact hl o ho
    · exact hp key p hk o ho

theorem below_heap {n : Nat} {h : Heap} : Below n h ↔ ∀ o, Below n (h.object o) :=
  ⟨fun hh o p hp => hh p ⟨o, hp⟩, fun hh p ⟨o, hp⟩ => hh o p hp⟩

theorem below_realm {n : Nat} {r : Realm} : Below n r ↔ ∀ i, Below n (r.get? i) :=
  ⟨fun h i o ho => h o ⟨i, ho⟩, fun h o ⟨i, ho⟩ => h i o ho⟩

theorem below_scope {n : Nat} {s : Scope} : Below n s ↔ ∀ name, Below n (s.binding? name) :=
  ⟨fun h i o ho => h o ⟨i, ho⟩, fun h o ⟨i, ho⟩ => h i o ho⟩

end EcmaCore
