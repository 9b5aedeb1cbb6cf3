import EcmaCore.Proofs.Keys
import EcmaCore.Proofs.Reentry

/-!
# Objects that cannot grow

When extensions of an object are prevented, that is for good. Each later step keeps the link of the
object and leaves it with some of its keys, in their order: a definition only revises a property
that is there, and the copy that a wrapper of a text may store stands for a key that is listed
already. So no key appears on the object, and one that was deleted does not come back.
-/
namespace EcmaCore

namespace Object
variable {x y z : Object} {key : String}

/-- What may come of an object that cannot grow. -/
structure Shrinks (x y : Object) : Prop where
  extensible : y.extensible = false
  prototype : y.prototype = x.prototype
  keys : y.ownKeys.Sublist x.ownKeys

theorem Shrinks.refl (hx : x.extensible = false) : x.Shrinks x := ⟨hx, rfl, .refl _⟩

theorem Shrinks.trans (hxy : x.Shrinks y) (hyz : y.Shrinks z) : x.Shrinks z :=
  ⟨hyz.extensible, hyz.prototype.trans hxy.prototype, hyz.keys.trans hxy.keys⟩

theorem shrinks_preventExtensions (x : Object) : x.Shrinks x.preventExtensions :=
  ⟨rfl, rfl, .refl _⟩

/-- A key without a property does not get one. -/
theorem Shrinks.absent (h : x.Shrinks y) (ha : x.ownProperty? key = none) :
    y.ownProperty? key = none := by
  cases hy : y.ownProperty? key with
  | none => rfl
  | some p =>
    have hmem : key ∈ x.ownKeys := h.keys.subset (mem_ownKeys_iff.mpr (Option.isSome_of_eq_some hy))
    rw [mem_ownKeys_iff, ha] at hmem
    cases hmem

/-- Of the steps of an object those that make it grow ask for leave; the others add no key. -/
theorem Step.shrinks (h : x.Step y) (hx : x.extensible = false) : x.Shrinks y := by
  cases h with
  | same => exact .refl hx
  | create key d _ extensible =>
    rw [hx] at extensible
    cases extensible
  | revise key d p present _ =>
    have hkeys : (x.store key (p.revise d)).ownKeys = x.ownKeys :=
      ownKeys_store_of_own (p.revise d) present
    exact ⟨hx, rfl, hkeys ▸ .refl _⟩
  | erase key _ _ _ => exact ⟨hx, rfl, ownKeys_erase_sublist x key⟩
  | preventExtensions => exact shrinks_preventExtensions x
  | link prototype extensible =>
    rw [hx] at extensible
    cases extensible

end Object

/-- By induction on the changes: what is left of the object cannot grow either. -/
theorem Heap.Evolves.shrinks {limit : DepthLimit} {h k : Heap} {cs : List Change}
    (hk : h.Evolves limit cs k) {o : ObjectId} (ho : o.index < h.size)
    (hx : (h.object o).extensible = false) : (h.object o).Shrinks (k.object o) := by
  have hstep : ∀ x y, x.Step y → (h.object o).Shrinks x → (h.object o).Shrinks y :=
    fun x y hxy hox => hox.trans (hxy.shrinks hox.extensible)
  exact hk.preserves hstep ho (.refl hx)

variable {σ : Type} [Mentions σ] {host : Host σ} {v w : World σ}

theorem Host.Performs.shrinks (law : host.Lawful) (hw : w.Reachable host.limit)
    {ops : List Operation} (run : host.Performs w ops v) {o : ObjectId}
    (ho : o.index < w.heap.size) (hx : (w.heap.object o).extensible = false) :
    (w.heap.object o).Shrinks (v.heap.object o) := by
  obtain ⟨_, cs, hcs⟩ := run.leads law hw
  exact hcs.shrinks ho hx

/-- After extensions of an object are prevented, every run of operations leaves it with the link and
with some of the keys that it had, in their order; and from then on a run brings no key back. -/
theorem inextensible_object_shrinks (law : host.Lawful) (hw : w.Reachable host.limit)
    {o : ObjectId} (ho : o.index < w.heap.size) {ops : List Operation}
    (run : host.Performs ((Act.preventExtensions o).after w) ops v) :
    (w.heap.object o).Shrinks (v.heap.object o) ∧
    (∀ key, (w.heap.object o).ownProperty? key = none →
      (v.heap.object o).ownProperty? key = none) ∧
    ∀ more u, host.Performs v more u →
      (v.heap.object o).Shrinks (u.heap.object o) ∧
      ∀ key, (v.heap.object o).ownProperty? key = none →
        (u.heap.object o).ownProperty? key = none := by
  have hprevents : w.Leads host.limit _ := (Act.preventExtensions_keeps hw.closed ho).leads
  have hm := hprevents.reachable hw
  have hmade : ((Act.preventExtensions o).after w).heap.object o =
      (w.heap.object o).preventExtensions := Heap.object_replace_same _ ho
  have hom := Nat.lt_of_lt_of_le ho hprevents.size_le
  have hrun := run.shrinks law hm hom (by rw [hmade]; rfl)
  rw [hmade] at hrun
  have hall := (Object.shrinks_preventExtensions _).trans hrun
  have hleads := run.leads law hm
  have hov := Nat.lt_of_lt_of_le hom hleads.size_le
  have hmore : ∀ more u, host.Performs v more u → (v.heap.object o).Shrinks (u.heap.object o) :=
    fun _ _ rest => rest.shrinks law (hleads.reachable hm) hov hall.extensible
  exact ⟨hall, fun _ => hall.absent,
    fun more u rest => ⟨hmore more u rest, fun _ => (hmore more u rest).absent⟩⟩

/-- An object with a property that can be deleted, and a callable that meddles with it. -/
def looseHeap : Heap :=
  let h := Heap.empty.push (.ordinary none)
  let h := h.push (.ofCallable ⟨"x", 0⟩ none)
  h.apply .default (.define ⟨0⟩ "x" (.data .null true true true))

theorem reachable_looseHeap :
    ({ World.start () with heap := looseHeap } : World Unit).Reachable .default := by
  have hx : Heap.empty.Evolves .default _ _ :=
    ((Heap.Evolves.start.change (.create .ordinary none) below_none).change
      (.create (.function ⟨"x", 0⟩) none) below_none).change
      (.define ⟨0⟩ "x" (.data .null true true true))
      (below_change_define.mpr ⟨by decide, below_descriptor.mpr
        ⟨below_some.mpr (below_of_isObject_eq_false rfl), below_none, below_none⟩⟩)
  exact World.reachable_of_evolves below_unit hx

/-- The callable revises and deletes the property, and within its own call tries to define it
again. -/
theorem inextensible_object_shrinks_meddled :
    ∃ v, (Host.nested .default .meddle 3).Performs
        ((Act.preventExtensions ⟨0⟩).after { World.start () with heap := looseHeap })
        [.call (.object ⟨1⟩) (.object ⟨0⟩) [.object ⟨1⟩]] v ∧
      (looseHeap.object ⟨0⟩).Shrinks (v.heap.object ⟨0⟩) := by
  have law : (Host.nested .default .meddle 3 : Host Unit).Lawful :=
    Host.nested_lawful Body.meddle_lawful .default 3
  have hf : Below looseHeap.size (Value.object ⟨1⟩) := below_object.mpr (by decide)
  have ht : Below looseHeap.size (Value.object ⟨0⟩) := below_object.mpr (by decide)
  have known := below_operation_call.mpr ⟨hf, ht, below_cons.mpr ⟨hf, below_nil⟩⟩
  have run : (Host.nested .default .meddle 3).Performs
      ((Act.preventExtensions ⟨0⟩).after { World.start () with heap := looseHeap }) _ _ :=
    .operation known (.done _)
  exact ⟨_, run, (inextensible_object_shrinks law reachable_looseHeap (by decide) run).1⟩

end EcmaCore
