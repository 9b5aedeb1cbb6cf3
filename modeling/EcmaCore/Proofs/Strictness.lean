import EcmaCore.Proofs.Acceptance
import EcmaCore.Proofs.Recording

/-!
# Strictness

The flag `strict` changes how a refusal is told and nothing else. An operation that is refused finds
this out before it changes anything or calls anything, and an assignment that was allowed is never
refused by the definition it ends in.
-/
namespace EcmaCore

/-- The strict and the sloppy run of an operation from one world, with what a refusal gives. -/
structure OnlyReports {σ α : Type} (refused : α) (op : Bool → Act σ α) (w : World σ) : Prop where
  /-- The same heap, and if calls are recorded the same calls. -/
  world : (op true).after w = (op false).after w
  ok : ∀ a u, op true w = .ok a u → op false w = .ok a u
  refusal : op true w ≠ op false w →
    (∃ cause, op true w = .error (.typeError cause) w) ∧ op false w = .ok refused w

namespace OnlyReports
variable {σ α : Type} {refused : α} {op : Bool → Act σ α} {w : World σ}

theorem of_eq (h : op true w = op false w) : OnlyReports refused op w where
  world := by rw [Act.after, Act.after, h]
  ok := by
    intro a u ha
    rw [← h]
    exact ha
  refusal := by
    intro hne
    exact absurd h hne

theorem of_refusal {cause : TypeErrorCause} (ht : op true w = .error (.typeError cause) w)
    (hf : op false w = .ok refused w) : OnlyReports refused op w where
  world := by rw [Act.after, Act.after, ht, hf]
  ok := by
    intro a u ha
    rw [ht] at ha
    cases ha
  refusal := fun _ => ⟨⟨cause, ht⟩, hf⟩

end OnlyReports

variable {σ : Type} (w : World σ) (o : ObjectId) (key : String)

namespace Act

theorem define_onlyReports (d : Descriptor) : OnlyReports false (define o key d) w := by
  cases hd : w.heap.define o key d with
  | ok h => exact .of_eq ((define_of_ok hd true).trans (define_of_ok hd false).symm)
  | error e =>
    cases e with
    | mixed => exact .of_eq ((define_of_mixed hd true).trans (define_of_mixed hd false).symm)
    | refused reason =>
      obtain ⟨ht, hf⟩ := define_of_refused hd
      exact .of_refusal ht hf

theorem delete_onlyReports : OnlyReports false (delete o key) w := by
  cases hd : w.heap.delete? o key with
  | some h => exact .of_eq ((delete_of_some hd true).trans (delete_of_some hd false).symm)
  | none =>
    obtain ⟨ht, hf⟩ := delete_of_none hd
    exact .of_refusal ht hf

variable {w o key}

/-- A definition that fails leaves the world as it was. -/
theorem define_error {d : Descriptor} {strict : Bool} {e : Fault} {u : World σ}
    (h : define o key d strict w = .error e u) : u = w := by
  have hafter : (define o key d strict).after w = w := by
    apply after_define_of_ne
    rw [h]
    exact nofun
  rw [← hafter, after, h]

/-- A deletion that fails leaves the world as it was. -/
theorem delete_error {strict : Bool} {e : Fault} {u : World σ}
    (h : delete o key strict w = .error e u) : u = w := by
  have hafter : (delete o key strict).after w = w := by
    apply after_delete_of_ne
    rw [h]
    exact nofun
  rw [← hafter, after, h]

end Act

namespace Host
variable (host : Host σ)

theorem put_onlyReports (v : Value) : OnlyReports () (host.put o key v) w := by
  cases host.put_assigns o key v w with
  | fault e walk result => exact .of_eq ((result true).trans (result false).symm)
  | refused loud silent => exact .of_refusal loud silent
  | stored h result => exact .of_eq ((result true).trans (result false).symm)
  | called setter result => exact .of_eq ((result true).trans (result false).symm)

end Host

/-- Strictness only reports, in every world and for callables that do anything: the calls that are
made are part of the world. A definition or deletion that fails changes nothing. -/
theorem strictness_only_reports (host : Host σ) (w : World (Recorded σ)) (o : ObjectId)
    (key : String) (d : Descriptor) (v : Value) :
    OnlyReports false (Act.define o key d) w ∧
    OnlyReports () (host.recording.put o key v) w ∧
    OnlyReports false (Act.delete o key) w ∧
    (∀ strict e u, Act.define o key d strict w = .error e u → u = w) ∧
    (∀ strict e u, Act.delete o key strict w = .error e u → u = w) :=
  ⟨Act.define_onlyReports w o key d, Host.put_onlyReports w o key host.recording v,
    Act.delete_onlyReports w o key, fun _ _ _ h => Act.define_error h,
    fun _ _ _ h => Act.delete_error h⟩

end EcmaCore
