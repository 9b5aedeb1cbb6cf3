import EcmaCore.Proofs.Assignment
import EcmaCore.Proofs.Change

/-!
# Definitions and deletions that are accepted

A definition or a deletion is accepted with the result `true`, and then one object is replaced. Or
it is refused and leaves the world as it was. What a refusal gives depends on its reason, the key and
`strict`, and on nothing in the world.
-/
namespace EcmaCore.Act
variable {σ α : Type} {u w : World σ} {o : ObjectId} {key : String} {d : Descriptor} {strict : Bool}

/-- The result of an action, without the world that it leaves. -/
def outcome (x : Act σ α) (w : World σ) : Except Fault α :=
  match x w with
  | .ok a _ => .ok a
  | .error e _ => .error e

theorem outcome_of_ok {x : Act σ α} {a : α} (h : x w = .ok a u) :
    x.outcome w = .ok a ∧ x.after w = u := by
  rw [outcome, after, h]
  exact ⟨rfl, rfl⟩

theorem outcome_of_error {x : Act σ α} {e : Fault} (h : x w = .error e u) :
    x.outcome w = .error e ∧ x.after w = u := by
  rw [outcome, after, h]
  exact ⟨rfl, rfl⟩

/-- What a definition gives that is refused. -/
def definitionRefusal (key : String) (strict : Bool) : DefinitionFault → Except Fault Bool
  | .mixed => .error (.typeError (.mixedDescriptor key))
  | .refused reason =>
    if strict then .error (.typeError (.refusedDefinition key reason)) else .ok false

theorem definitionRefusal_ne (key : String) (strict : Bool) (e : DefinitionFault) :
    definitionRefusal key strict e ≠ .ok true := by
  cases e <;> cases strict <;> exact nofun

theorem outcome_define_of_error {e : DefinitionFault} (hd : w.heap.define o key d = .error e)
    (strict : Bool) : (define o key d strict).outcome w = definitionRefusal key strict e ∧
      (define o key d strict).after w = w := by
  cases e with
  | mixed => exact outcome_of_error (define_of_mixed hd strict)
  | refused reason =>
    cases strict with
    | true => exact outcome_of_error (define_of_refused hd).1
    | false => exact outcome_of_ok (define_of_refused hd).2

theorem define_ok_true_iff : define o key d strict w = .ok true u ↔
    ∃ y, (w.heap.object o).define key d = .ok y ∧ u = { w with heap := w.heap.replace o y } := by
  constructor
  · intro h
    cases hd : w.heap.define o key d with
    | ok k =>
      obtain ⟨y, hy, rfl⟩ := Heap.define_ok_iff.mp hd
      rw [define_of_ok hd] at h
      cases h
      exact ⟨y, hy, rfl⟩
    | error e =>
      have hrefusal := (outcome_define_of_error hd strict).1
      rw [(outcome_of_ok h).1] at hrefusal
      exact absurd hrefusal.symm (definitionRefusal_ne key strict e)
  · rintro ⟨y, hy, rfl⟩
    exact define_of_ok (Heap.define_ok_iff.mpr ⟨y, hy, rfl⟩) strict

/-- A definition that is not accepted leaves the world as it was. -/
theorem after_define_of_ne (h : ∀ u, define o key d strict w ≠ .ok true u) :
    (define o key d strict).after w = w := by
  cases hd : w.heap.define o key d with
  | ok k => exact absurd (define_of_ok hd strict) (h _)
  | error e => exact (outcome_define_of_error hd strict).2

/-- What a deletion gives that is refused. -/
def deletionRefusal (key : String) (strict : Bool) : Except Fault Bool :=
  if strict then .error (.typeError (.undeletable key)) else .ok false

theorem deletionRefusal_ne (key : String) (strict : Bool) :
    deletionRefusal key strict ≠ .ok true := by
  cases strict <;> exact nofun

theorem outcome_delete_of_none (hd : w.heap.delete? o key = none) (strict : Bool) :
    (delete o key strict).outcome w = deletionRefusal key strict ∧
      (delete o key strict).after w = w := by
  cases strict with
  | true => exact outcome_of_error (delete_of_none hd).1
  | false => exact outcome_of_ok (delete_of_none hd).2

theorem delete_ok_true_iff : delete o key strict w = .ok true u ↔
    ∃ y, (w.heap.object o).delete? key = some y ∧ u = { w with heap := w.heap.replace o y } := by
  constructor
  · intro h
    cases hd : w.heap.delete? o key with
    | some k =>
      obtain ⟨y, hy, rfl⟩ := Heap.delete?_eq_some_iff.mp hd
      rw [delete_of_some hd] at h
      cases h
      exact ⟨y, hy, rfl⟩
    | none =>
      have hrefusal := (outcome_delete_of_none hd strict).1
      rw [(outcome_of_ok h).1] at hrefusal
      exact absurd hrefusal.symm (deletionRefusal_ne key strict)
  · rintro ⟨y, hy, rfl⟩
    exact delete_of_some (Heap.delete?_eq_some_iff.mpr ⟨y, hy, rfl⟩) strict

/-- A deletion that is not accepted leaves the world as it was. -/
theorem after_delete_of_ne (h : ∀ u, delete o key strict w ≠ .ok true u) :
    (delete o key strict).after w = w := by
  cases hd : w.heap.delete? o key with
  | some k => exact absurd (delete_of_some hd strict) (h _)
  | none => exact (outcome_delete_of_none hd strict).2

end EcmaCore.Act
