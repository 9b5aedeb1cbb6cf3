import EcmaCore.Proofs.Change
import EcmaCore.Proofs.Keys

/-!
# Where properties come from

An own property that was not there at the start of a run of changes, and is not computed from a
wrapped text, comes from a definition that was accepted, after which no deletion of it was.
-/
namespace EcmaCore

namespace Object
variable {x y : Object} {key k : String}

/-- A definition makes no other key appear. -/
theorem absent_of_define {d : Descriptor} (hy : x.define k d = .ok y) (hne : key ≠ k)
    (ha : x.ownProperty? key = none) : y.ownProperty? key = none := by
  rcases define_cases hy with ⟨_, _, rfl⟩ | ⟨_, _, rfl⟩ | ⟨_, _, _, rfl⟩
  · rw [ownProperty?_store_other x _ hne, ha]
  · exact ha
  · rw [ownProperty?_store_other x _ hne, ha]

/-- A deletion makes no key appear. -/
theorem absent_of_delete? (hy : x.delete? k = some y) (ha : x.ownProperty? key = none) :
    y.ownProperty? key = none := by
  rcases delete?_cases hy with ⟨_, rfl⟩ | ⟨q, hq, _, rfl⟩
  · exact ha
  · have hne : key ≠ k := by
      rintro rfl
      rw [ha] at hq
      cases hq
    rw [ownProperty?_erase_other x hne, ha]

end Object

namespace Heap
variable {limit : DepthLimit} {h k : Heap} {o : ObjectId} {key : String} {cs : List Change}

def applyAll (h : Heap) (limit : DepthLimit) (cs : List Change) : Heap :=
  cs.foldl (fun k c => k.apply limit c) h

theorem applyAll_concat (h : Heap) (limit : DepthLimit) (cs : List Change) (c : Change) :
    h.applyAll limit (cs ++ [c]) = (h.applyAll limit cs).apply limit c := by
  rw [applyAll, List.foldl_append]
  rfl

/-- A run of changes has one outcome. -/
theorem Evolves.eq_applyAll (hk : h.Evolves limit cs k) : k = h.applyAll limit cs := by
  induction hk with
  | start => rfl
  | change c _ _ ih => rw [applyAll_concat, ← ih]

/-- Among some changes a definition creates a property, and no deletion of it is accepted later. -/
def Creates (h : Heap) (limit : DepthLimit) (o : ObjectId) (key : String)
    (cs : List Change) : Prop :=
  ∃ before d after, cs = before ++ .define o key d :: after ∧
    ((h.applyAll limit before).object o).ownProperty? key = none ∧
    (∃ k, (h.applyAll limit before).define o key d = .ok k) ∧
    ∀ mid rest, after = mid ++ .delete o key :: rest →
      (h.applyAll limit (before ++ .define o key d :: mid)).delete? o key = none

theorem absent_replace {p : ObjectId} {y : Object} (ha : (h.object o).ownProperty? key = none)
    (hy : o = p → (h.object p).ownProperty? key = none → y.ownProperty? key = none) :
    ((h.replace p y).object o).ownProperty? key = none := by
  by_cases hop : o = p
  · subst hop
    rcases Nat.lt_or_ge o.index h.size with ho | ho
    · rw [object_replace_same y ho]
      exact hy rfl ha
    · rw [replace_of_size_le ho]
      exact ha
  · rw [object_replace_other y hop]
    exact ha

/-- Only an accepted definition of a key makes it appear on an object. -/
theorem Effect.absent {c : Change} (he : h.Effect limit c k) (ho : o.index < h.size)
    (ha : (h.object o).ownProperty? key = none)
    (hc : ∀ d l, c = .define o key d → h.define o key d ≠ .ok l) :
    (k.object o).ownProperty? key = none := by
  cases he with
  | unchanged => exact ha
  | create kind prototype =>
    rw [object_push_of_lt _ ho]
    exact ha
  | define p key' d y accepted =>
    apply absent_replace ha
    intro hop habsent
    have hne : key ≠ key' := by
      rintro rfl
      subst hop
      exact hc d _ rfl (define_ok_iff.mpr ⟨y, accepted, rfl⟩)
    exact Object.absent_of_define accepted hne habsent
  | delete p key' y accepted =>
    exact absent_replace ha fun _ => Object.absent_of_delete? accepted
  | preventExtensions p => exact absent_replace ha fun _ habsent => habsent
  | link p prototype _ _ => exact absent_replace ha fun _ habsent => habsent

/-- An accepted deletion of a key that is not computed makes it absent. -/
theorem absent_of_delete (ho : o.index < h.size) (hu : (h.object o).unitProperty? key = none)
    (hk : h.delete? o key = some k) : (k.object o).ownProperty? key = none := by
  obtain ⟨y, hy, rfl⟩ := delete?_eq_some_iff.mp hk
  rw [object_replace_same y ho]
  rcases Object.delete?_cases hy with ⟨ha, rfl⟩ | ⟨_, _, _, rfl⟩
  · exact ha
  · have hunit : ((h.object o).erase key).unitProperty? key = none := hu
    simp only [Object.ownProperty?, hunit]
    simp [Object.erase]

/-- Whether a key is computed from a wrapped text is settled by the kind of the object. -/
theorem Evolves.unitProperty?_eq_none (hk : h.Evolves limit cs k) (ho : o.index < h.size)
    (hu : (h.object o).unitProperty? key = none) : (k.object o).unitProperty? key = none := by
  let P (x : Object) : Prop := x.unitProperty? key = none
  have hstep : ∀ x y, x.Step y → P x → P y := by
    intro x y hxy hx
    exact (Object.unitProperty?_congr hxy.kind key).trans hx
  exact hk.preserves (P := P) hstep ho hu

theorem creates_of_define {d : Descriptor}
    (ha : ((h.applyAll limit cs).object o).ownProperty? key = none)
    (hd : (h.applyAll limit cs).define o key d = .ok k) :
    h.Creates limit o key (cs ++ [.define o key d]) := by
  have hlater : ∀ mid rest, [] = mid ++ .delete o key :: rest →
      (h.applyAll limit (cs ++ .define o key d :: mid)).delete? o key = none := by
    intro mid rest hmid
    simp at hmid
  exact ⟨cs, d, [], rfl, ha, ⟨k, hd⟩, hlater⟩

/-- What created a property did so after a further change too, unless that deletes the property. -/
theorem Creates.concat (hcs : h.Creates limit o key cs) {c : Change}
    (hc : c = .delete o key → (h.applyAll limit cs).delete? o key = none) :
    h.Creates limit o key (cs ++ [c]) := by
  obtain ⟨before, d, after, rfl, ha, hd, hafter⟩ := hcs
  have hlater : ∀ mid rest, after ++ [c] = mid ++ .delete o key :: rest →
      (h.applyAll limit (before ++ .define o key d :: mid)).delete? o key = none := by
    intro mid rest hmid
    rcases List.eq_nil_or_concat rest with rfl | ⟨rest, c', rfl⟩
    · obtain ⟨rfl, hlast⟩ := List.append_inj' hmid rfl
      exact hc (by simpa using hlast)
    · have hsplit : after ++ [c] = (mid ++ .delete o key :: rest) ++ [c'] := by
        rw [hmid]
        simp
      obtain ⟨hinner, _⟩ := List.append_inj' hsplit rfl
      exact hafter mid rest hinner
  exact ⟨before, d, after ++ [c], by simp, ha, hd, hlater⟩

/-- By induction on the run: the last change leaves the key absent, or creates it, or comes after
its creation and does not delete it. -/
theorem Evolves.creates (hk : h.Evolves limit cs k) (ho : o.index < h.size)
    (hu : (h.object o).unitProperty? key = none) (ha : (h.object o).ownProperty? key = none)
    (hp : (k.object o).ownProperty? key ≠ none) : h.Creates limit o key cs := by
  induction hk with
  | start => exact absurd ha hp
  | @change cs k c run known ih =>
    have hsize : o.index < k.size := Nat.lt_of_lt_of_le ho run.size_le
    by_cases hk : (k.object o).ownProperty? key = none
    · have hdef : ∃ d l, c = .define o key d ∧ k.define o key d = .ok l := by
        apply Classical.byContradiction
        intro hex
        have hnone : ∀ d l, c = .define o key d → k.define o key d ≠ .ok l :=
          fun d l hc hd => hex ⟨d, l, hc, hd⟩
        exact hp ((apply_effect k limit c).absent hsize hk hnone)
      obtain ⟨d, l, rfl, hd⟩ := hdef
      rw [run.eq_applyAll] at hk hd
      exact creates_of_define hk hd
    · apply (ih hk).concat
      rintro rfl
      rw [← run.eq_applyAll]
      cases hdel : k.delete? o key with
      | none => rfl
      | some l =>
        rw [apply_delete_of_some hdel] at hp
        exact absurd (absent_of_delete hsize (run.unitProperty?_eq_none ho hu) hdel) hp

end Heap
end EcmaCore
