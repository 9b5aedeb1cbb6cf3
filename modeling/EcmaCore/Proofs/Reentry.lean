import EcmaCore.Proofs.Run

/-!
# Callables that call back

A callable may perform public operations, and these may call callables again. An engine that allows
a number of calls inside each other is lawful if what a callable does is, given a lawful engine for
the calls that it makes in turn.
-/
namespace EcmaCore
open Act

/-- What a callable does with the engine that runs the calls it makes in turn. -/
abbrev Body (σ : Type) := Host σ → Callable → Value → List Value → Act σ Value

/-- An engine in which calls may go a number of levels deep. -/
def Host.nested {σ : Type} (limit : DepthLimit) (body : Body σ) : Nat → Host σ
  | 0 => ⟨limit, fun _ _ _ => throw (.typeError (.raised "too much recursion"))⟩
  | depth + 1 => ⟨limit, body (nested limit body depth)⟩

@[simp] theorem Host.limit_nested {σ : Type} (limit : DepthLimit) (body : Body σ) (depth : Nat) :
    (Host.nested limit body depth).limit = limit := by
  cases depth <;> rfl

variable {σ : Type} [Mentions σ]

/-- A body that is lawful over lawful engines. -/
def Body.Lawful (body : Body σ) : Prop :=
  ∀ (host : Host σ) {w : World σ} (c : Callable) (this : Value) (args : List Value),
    host.Lawful → w.Reachable host.limit → Below w.heap.size this → Below w.heap.size args →
    (body host c this args).Keeps host.limit w

theorem Host.nested_lawful {body : Body σ} (hbody : body.Lawful) (limit : DepthLimit)
    (depth : Nat) : (Host.nested limit body depth).Lawful := by
  induction depth with
  | zero => exact ⟨fun _ _ _ hw _ _ => keeps_throw hw.closed (below_fault rfl)⟩
  | succ depth ih =>
    constructor
    intro w c this args hw ht ha
    have hl : (Host.nested limit body depth).limit = limit := limit_nested limit body depth
    have hkeeps := hbody (Host.nested limit body depth) c this args ih (by rw [hl]; exact hw) ht ha
    rw [hl] at hkeeps
    exact hkeeps

/-- A callable that tries each change on the key of its own name of its receiver, and then calls
its first argument on the same receiver. -/
def Body.meddle {σ : Type} : Body σ := fun host c this args =>
  match this with
  | .object o => do
    discard (define o c.name { value := some (.boolean true) } false)
    discard (define o c.name (.accessor none none true true) false)
    host.put o c.name .null false
    discard (delete o c.name false)
    discard (host.setPrototype o (some o))
    preventExtensions o
    host.call (args.headD .undefined) this args
  | _ => return .undefined

theorem Body.meddle_lawful : (Body.meddle : Body σ).Lawful := by
  intro host w c this args law hw ht ha
  cases this with
  | object o =>
    have ho : o.index < w.heap.size := below_object.mp ht
    have plain {n : Nat} {v : Value} (hv : v.isObject = false) : Below n (some v) :=
      below_some.mpr (below_of_isObject_eq_false hv)
    have hvalue {n : Nat} : Below n ({ value := some (.boolean true) } : Descriptor) :=
      below_descriptor.mpr ⟨plain rfl, below_none, below_none⟩
    have haccessor {n : Nat} : Below n (Descriptor.accessor none none true true) :=
      below_descriptor.mpr ⟨below_none, plain rfl, plain rfl⟩
    apply keeps_next hw ho (keeps_discard (define_keeps hw.closed ho hvalue false))
    intro _ w₁ hw₁ ho₁ hle₁ _
    apply keeps_next hw₁ ho₁ (keeps_discard (define_keeps hw₁.closed ho₁ haccessor false))
    intro _ w₂ hw₂ ho₂ hle₂ _
    apply keeps_next hw₂ ho₂ (Host.put_keeps law hw₂ ho₂ (below_of_isObject_eq_false rfl) _ _)
    intro _ w₃ hw₃ ho₃ hle₃ _
    apply keeps_next hw₃ ho₃ (keeps_discard (delete_keeps hw₃.closed ho₃ false))
    intro _ w₄ hw₄ ho₄ hle₄ _
    have hself : Below w₄.heap.size (some o) := below_some.mpr (below_objectId.mpr ho₄)
    apply keeps_next hw₄ ho₄ (keeps_discard (Host.setPrototype_keeps hw₄.closed ho₄ hself))
    intro _ w₅ hw₅ ho₅ hle₅ _
    apply keeps_next hw₅ ho₅ (preventExtensions_keeps hw₅.closed ho₅)
    intro _ w₆ hw₆ ho₆ hle₆ _
    have hargs : Below w₆.heap.size args := ha.mono (by omega)
    have hthis : Below w₆.heap.size (Value.object o) := below_object.mpr ho₆
    have hnext : Below w₆.heap.size (args.headD .undefined) := by
      cases args with
      | nil => exact below_of_isObject_eq_false rfl
      | cons a rest => exact (below_cons.mp hargs).1
    exact Host.call_keeps law hw₆ hnext hthis hargs
  | _ => exact keeps_pure hw.closed (below_of_isObject_eq_false rfl)

end EcmaCore
