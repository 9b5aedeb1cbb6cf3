import EcmaCore.Heap.Chain

/-!
# Walks on chains

What a walk meets, said without its depth and its memory: the property that there is to find from an
object on, and the chain of objects that lead from a link to one without prototype. On a chain no
walk comes back to an object that it has met.
-/
namespace EcmaCore

theorem DepthLimit.allows_mono {limit : DepthLimit} {m n : Nat} (hmn : m ≤ n)
    (hn : limit.allows n = true) : limit.allows m = true := by
  unfold allows at hn ⊢
  split
  · simp_all only [decide_eq_true_eq]
    omega
  · rfl

theorem DepthLimit.allows_zero (limit : DepthLimit) : limit.allows 0 = true := by
  unfold allows
  split
  · exact decide_eq_true (Nat.zero_le _)
  · rfl

namespace Heap
variable {h : Heap} {limit : DepthLimit} {o : ObjectId} {key : String}

/-- What there is to find under a key from an object on. -/
inductive Finds (h : Heap) (key : String) : ObjectId → Option Property → Prop where
  | own {o : ObjectId} {p : Property} (own : (h.object o).ownProperty? key = some p) :
      Finds h key o (some p)
  | root {o : ObjectId} (absent : (h.object o).ownProperty? key = none)
      (root : (h.object o).prototype = none) : Finds h key o none
  | inherited {o next : ObjectId} {r : Option Property}
      (absent : (h.object o).ownProperty? key = none)
      (link : (h.object o).prototype = some next) (rest : Finds h key next r) : Finds h key o r

theorem Finds.unique {r s : Option Property} (hr : h.Finds key o r) (hs : h.Finds key o s) :
    r = s := by
  induction hr with
  | own hp =>
    cases hs with
    | own hp' => exact hp.symm.trans hp'
    | root ha => simp [hp] at ha
    | inherited ha => simp [hp] at ha
  | root ha hq =>
    cases hs with
    | own hp => simp [ha] at hp
    | root => rfl
    | inherited _ hq' => simp [hq] at hq'
  | inherited ha hq _ ih =>
    cases hs with
    | own hp => simp [ha] at hp
    | root _ hq' => simp [hq] at hq'
    | inherited _ hq' hs' =>
      obtain rfl := Option.some.inj (hq.symm.trans hq')
      exact ih hs'

/-- The answer of a walk is what there is to find. -/
theorem finds_of_lookupFrom {met : ObjectSet} {depth : Nat} {r : Option Property}
    (hr : h.lookupFrom limit key met depth o = .ok r) : h.Finds key o r := by
  induction met, depth, o using lookupFrom.induct h limit key with
  | case1 met depth o hm =>
    rw [lookupFrom_met hm] at hr
    cases hr
  | case2 met depth o hm p hp =>
    rw [lookupFrom_own (Bool.eq_false_iff.mpr hm) hp] at hr
    cases hr
    exact .own hp
  | case3 met depth o hm ha hq =>
    rw [lookupFrom_root (Bool.eq_false_iff.mpr hm) ha hq] at hr
    cases hr
    exact .root ha hq
  | case4 met depth o hm ha next hq hallows ih =>
    rw [lookupFrom_next (Bool.eq_false_iff.mpr hm) ha hq, if_pos hallows] at hr
    exact .inherited ha hq (ih hr)
  | case5 met depth o hm ha next hq hallows =>
    rw [lookupFrom_next (Bool.eq_false_iff.mpr hm) ha hq, if_neg hallows] at hr
    cases hr

theorem finds_of_lookup {r : Option Property} (hr : h.lookup limit o key = .ok r) :
    h.Finds key o r :=
  finds_of_lookupFrom hr

/-- The objects from a link on, up to one without prototype. -/
inductive Chain (h : Heap) : Option ObjectId → List ObjectId → Prop where
  | nil : Chain h none []
  | cons {o : ObjectId} {os : List ObjectId} (rest : Chain h (h.object o).prototype os) :
      Chain h (some o) (o :: os)

theorem Chain.unique {q : Option ObjectId} {os ps : List ObjectId} (hos : h.Chain q os)
    (hps : h.Chain q ps) : os = ps := by
  induction hos generalizing ps with
  | nil =>
    cases hps
    rfl
  | cons _ ih =>
    cases hps with
    | cons hrest => rw [ih hrest]

/-- From each object of a chain on, the rest of the chain is its chain. -/
theorem Chain.suffix {q : Option ObjectId} {os : List ObjectId} (hos : h.Chain q os)
    (ho : o ∈ os) : ∃ ps qs, os = ps ++ qs ∧ h.Chain (some o) qs := by
  induction hos with
  | nil => cases ho
  | @cons p rest hrest ih =>
    by_cases hop : o = p
    · subst hop
      exact ⟨[], o :: rest, rfl, .cons hrest⟩
    · have htail : o ∈ rest := (List.mem_cons.mp ho).resolve_left hop
      obtain ⟨ps, qs, hsplit, hqs⟩ := ih htail
      exact ⟨p :: ps, qs, by rw [hsplit, List.cons_append], hqs⟩

/-- A chain meets no object twice: it would be its own proper part from there on. -/
theorem Chain.nodup {q : Option ObjectId} {os : List ObjectId} (hos : h.Chain q os) :
    os.Nodup := by
  induction hos with
  | nil => exact List.nodup_nil
  | @cons p rest hrest ih =>
    have hp : p ∉ rest := by
      intro hmem
      obtain ⟨ps, qs, hsplit, hqs⟩ := hrest.suffix hmem
      have hlength : (p :: rest).length = qs.length := by rw [Chain.unique (.cons hrest) hqs]
      rw [hsplit, List.length_cons, List.length_append] at hlength
      omega
    exact List.nodup_cons.mpr ⟨hp, ih⟩

/-- What is new to a walk before an object of a chain is new to it after that object. -/
theorem Chain.unmet {os : List ObjectId} {met : ObjectSet} (hos : h.Chain (some o) (o :: os))
    (hmet : ∀ p ∈ o :: os, met.has p = false) : ∀ p ∈ os, (met.add o).has p = false := by
  intro p hp
  have ho : o ∉ os := (List.nodup_cons.mp hos.nodup).1
  have hne : p ≠ o := by
    rintro rfl
    exact ho hp
  simp [hne, hmet p (List.mem_cons_of_mem o hp)]

/-- A lookup on a chain fails only by its depth. -/
theorem lookupFrom_of_chain {os : List ObjectId} {met : ObjectSet} {depth : Nat}
    (hos : h.Chain (some o) os) (hmet : ∀ p ∈ os, met.has p = false) :
    h.lookupFrom limit key met depth o ≠ .error .cyclic := by
  induction met, depth, o using lookupFrom.induct h limit key generalizing os with
  | case1 met depth o hm =>
    cases hos with
    | cons _ => simp [hmet o List.mem_cons_self] at hm
  | case2 met depth o hm p hp => simp [lookupFrom_own (Bool.eq_false_iff.mpr hm) hp]
  | case3 met depth o hm ha hq => simp [lookupFrom_root (Bool.eq_false_iff.mpr hm) ha hq]
  | case4 met depth o hm ha next hq hallows ih =>
    rw [lookupFrom_next (Bool.eq_false_iff.mpr hm) ha hq, if_pos hallows]
    cases hos with
    | cons hrest =>
      have hunmet := Chain.unmet (.cons hrest) hmet
      rw [hq] at hrest
      exact ih hrest hunmet
  | case5 met depth o hm ha next hq hallows =>
    simp [lookupFrom_next (Bool.eq_false_iff.mpr hm) ha hq, hallows]

theorem lookup_ne_cyclic {os : List ObjectId} (hos : h.Chain (some o) os) :
    h.lookup limit o key ≠ .error .cyclic :=
  lookupFrom_of_chain hos fun _ _ => ObjectSet.has_empty _

/-- A walk is cut off only by a limit. -/
theorem limited_of_lookupFrom {met : ObjectSet} {depth : Nat}
    (hr : h.lookupFrom limit key met depth o = .error .tooDeep) : limit ≠ .unlimited := by
  induction met, depth, o using lookupFrom.induct h limit key with
  | case1 met depth o hm =>
    rw [lookupFrom_met hm] at hr
    cases hr
  | case2 met depth o hm p hp =>
    rw [lookupFrom_own (Bool.eq_false_iff.mpr hm) hp] at hr
    cases hr
  | case3 met depth o hm ha hq =>
    rw [lookupFrom_root (Bool.eq_false_iff.mpr hm) ha hq] at hr
    cases hr
  | case4 met depth o hm ha next hq hallows ih =>
    rw [lookupFrom_next (Bool.eq_false_iff.mpr hm) ha hq, if_pos hallows] at hr
    exact ih hr
  | case5 met depth o hm ha next hq hallows =>
    rintro rfl
    exact hallows rfl

/-- How the test before an assignment fails: as the lookup from the prototype does. -/
theorem canPut_error {f : ChainFault} (hc : h.canPut limit o key = .error f) :
    ∃ next, (h.object o).prototype = some next ∧ h.lookup limit next key = .error f := by
  simp only [canPut] at hc
  split at hc
  · cases hc
  · split at hc
    · cases hc
    next next hq =>
      cases hr : h.lookup limit next key with
      | ok r =>
        rw [hr] at hc
        cases hc
      | error e =>
        rw [hr] at hc
        cases hc
        exact ⟨next, hq, hr⟩

theorem canPut_ne_cyclic {os : List ObjectId} (hos : h.Chain (some o) os) :
    h.canPut limit o key ≠ .error .cyclic := by
  intro hc
  obtain ⟨next, hq, hr⟩ := canPut_error hc
  cases hos with
  | cons hrest =>
    rw [hq] at hrest
    exact lookup_ne_cyclic hrest hr

/-- How a walk towards an object ends on a chain: at its root, at the object, or by its depth. -/
inductive Ends (limit : DepthLimit) (o : ObjectId) (os : List ObjectId) (depth : Nat) :
    WalkEnd → Prop where
  | root (avoids : o ∉ os) (allows : limit.allows (depth + os.length) = true) :
      Ends limit o os depth .root
  | target (meets : o ∈ os) : Ends limit o os depth .target
  | tooDeep (deep : limit.allows (depth + os.length) = false) : Ends limit o os depth .tooDeep

theorem Ends.cons {next : ObjectId} {os : List ObjectId} {depth : Nat} {e : WalkEnd}
    (hn : next ≠ o) (he : Ends limit o os (depth + 1) e) : Ends limit o (next :: os) depth e := by
  have hlength : depth + (next :: os).length = depth + 1 + os.length := by
    rw [List.length_cons]
    omega
  cases he with
  | root avoids allows =>
    rw [← hlength] at allows
    apply Ends.root _ allows
    simp only [List.mem_cons, not_or]
    exact ⟨Ne.symm hn, avoids⟩
  | target meets => exact .target (List.mem_cons_of_mem next meets)
  | tooDeep deep => exact .tooDeep (by rw [hlength]; exact deep)

theorem walkFrom_of_chain {next : ObjectId} {os : List ObjectId} {met : ObjectSet} {depth : Nat}
    (hos : h.Chain (some next) os) (hmet : ∀ p ∈ os, met.has p = false) :
    Ends limit o os depth (h.walkFrom limit o met depth next) := by
  induction met, depth, next using walkFrom.induct h limit o generalizing os with
  | case1 met depth =>
    cases hos with
    | cons _ =>
      rw [walkFrom, if_pos rfl]
      exact .target List.mem_cons_self
  | case2 met depth next hn hm =>
    cases hos with
    | cons _ => simp [hmet next List.mem_cons_self] at hm
  | case3 met depth next hn hm hallows hq =>
    rw [walkFrom_root hn (Bool.eq_false_iff.mpr hm) hallows hq]
    cases hos with
    | cons hrest =>
      rw [hq] at hrest
      cases hrest
      exact .root (by simpa using Ne.symm hn) hallows
  | case4 met depth next hn hm hallows after hq ih =>
    rw [walkFrom_next hn (Bool.eq_false_iff.mpr hm) hallows hq]
    cases hos with
    | cons hrest =>
      have hunmet := Chain.unmet (.cons hrest) hmet
      rw [hq] at hrest
      exact .cons hn (ih hrest hunmet)
  | case5 met depth next hn hm hallows =>
    rw [walkFrom, if_neg hn, if_neg hm, if_neg hallows]
    cases hos with
    | @cons _ rest hrest =>
      have hfirst : depth + 1 ≤ depth + (next :: rest).length := by
        rw [List.length_cons]
        omega
      apply Ends.tooDeep
      apply Bool.eq_false_iff.mpr
      intro hdeep
      exact hallows (DepthLimit.allows_mono hfirst hdeep)

theorem walk_of_chain {q : Option ObjectId} {os : List ObjectId} (hos : h.Chain q os) :
    Ends limit o os 0 (h.walk limit o q) := by
  cases hos with
  | nil => exact .root List.not_mem_nil limit.allows_zero
  | cons hrest => exact walkFrom_of_chain (.cons hrest) fun _ _ => ObjectSet.has_empty _

/-- A walk that comes to the root has not met the object it looks for. -/
theorem not_mem_of_walk {q : Option ObjectId} {os : List ObjectId} (hos : h.Chain q os)
    (hw : h.walk limit o q = .root) : o ∉ os := by
  have hends : Ends limit o os 0 (h.walk limit o q) := walk_of_chain hos
  rw [hw] at hends
  cases hends with
  | root avoids _ => exact avoids

end Heap
end EcmaCore
