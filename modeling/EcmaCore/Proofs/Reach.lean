import EcmaCore.Proofs.Acyclic

/-!
# How far a lookup goes

On a chain a lookup follows links up to the first object that has the property, or up to the last
one if none has it. The depth limit is a limit on the number of these links and on nothing else:
where it allows them the lookup gives the property it came to, and elsewhere it fails.
-/
namespace EcmaCore

/-- What a walk gives that has its answer after a number of links. -/
def DepthLimit.within {α : Type} (limit : DepthLimit) (links : Nat) (answer : α) :
    Except ChainFault α :=
  if limit.allows links then .ok answer else .error .tooDeep

namespace Heap
variable {h : Heap} {limit : DepthLimit} {o next : ObjectId} {key : String} {p : Property}
  {os : List ObjectId}

/-- The links that a lookup follows on a chain: up to the first object that has the property, or up
to the last one. -/
def links (h : Heap) (key : String) : List ObjectId → Nat
  | o :: next :: os => if (h.object o).hasOwn key then 0 else h.links key (next :: os) + 1
  | _ => 0

/-- The property that the first object of a chain has that has one. -/
def nearest? (h : Heap) (key : String) (os : List ObjectId) : Option Property :=
  os.findSome? fun o => (h.object o).ownProperty? key

@[simp] theorem links_last (h : Heap) (key : String) (o : ObjectId) : h.links key [o] = 0 := rfl

theorem links_own (hp : (h.object o).ownProperty? key = some p) : h.links key (o :: os) = 0 := by
  cases os with
  | nil => rfl
  | cons next os => simp [links, Object.hasOwn, hp]

theorem links_absent (ha : (h.object o).ownProperty? key = none) :
    h.links key (o :: next :: os) = h.links key (next :: os) + 1 := by
  simp [links, Object.hasOwn, ha]

theorem nearest?_own (hp : (h.object o).ownProperty? key = some p) :
    h.nearest? key (o :: os) = some p := by
  simp [nearest?, hp]

theorem nearest?_absent (ha : (h.object o).ownProperty? key = none) :
    h.nearest? key (o :: os) = h.nearest? key os := by
  simp [nearest?, ha]

/-- Where the lookup ends if some object has the property: at the first one that has it. -/
theorem links_of_least {i : Nat} {q : ObjectId} (hq : os[i]? = some q)
    (hp : (h.object q).ownProperty? key = some p)
    (least : ∀ j r, j < i → os[j]? = some r → (h.object r).ownProperty? key = none) :
    h.links key os = i ∧ h.nearest? key os = some p := by
  induction os generalizing i with
  | nil => simp at hq
  | cons o os ih =>
    cases i with
    | zero =>
      obtain rfl : o = q := by simpa using hq
      exact ⟨links_own hp, nearest?_own hp⟩
    | succ i =>
      have ha : (h.object o).ownProperty? key = none := least 0 o (Nat.succ_pos i) rfl
      have hrest := ih (by simpa using hq) fun j r hj hr =>
        least (j + 1) r (Nat.succ_lt_succ hj) (by simpa using hr)
      cases os with
      | nil => simp at hq
      | cons next os =>
        rw [links_absent ha, nearest?_absent ha, hrest.1]
        exact ⟨rfl, hrest.2⟩

/-- Where the lookup ends if no object has the property: at the last one. -/
theorem links_of_absent (absent : ∀ q ∈ os, (h.object q).ownProperty? key = none) :
    h.links key os = os.length - 1 ∧ h.nearest? key os = none := by
  induction os with
  | nil => exact ⟨rfl, rfl⟩
  | cons o os ih =>
    have ha := absent o List.mem_cons_self
    have hrest := ih fun q hq => absent q (List.mem_cons_of_mem o hq)
    rw [nearest?_absent ha]
    cases os with
    | nil => exact ⟨rfl, rfl⟩
    | cons next os =>
      rw [links_absent ha, hrest.1]
      exact ⟨by simp, hrest.2⟩

theorem Chain.exists_cons (hos : h.Chain (some o) os) :
    ∃ rest, os = o :: rest ∧ h.Chain (h.object o).prototype rest := by
  cases hos with
  | cons hrest => exact ⟨_, rfl, hrest⟩

/-- A lookup that has come some links far on a chain has its answer after those that are left. By
the recursion of the lookup: a link that the limit forbids is one of those. -/
theorem lookupFrom_eq_within {met : ObjectSet} {depth : Nat} (hos : h.Chain (some o) os)
    (hmet : ∀ q ∈ os, met.has q = false) (hdepth : limit.allows depth = true) :
    h.lookupFrom limit key met depth o =
      limit.within (depth + h.links key os) (h.nearest? key os) := by
  induction met, depth, o using lookupFrom.induct h limit key generalizing os with
  | case1 met depth o hm =>
    obtain ⟨rest, rfl, _⟩ := hos.exists_cons
    simp [hmet o List.mem_cons_self] at hm
  | case2 met depth o hm p hp =>
    obtain ⟨rest, rfl, _⟩ := hos.exists_cons
    rw [lookupFrom_own (Bool.eq_false_iff.mpr hm) hp, links_own hp, nearest?_own hp]
    simp [DepthLimit.within, hdepth]
  | case3 met depth o hm ha hq =>
    obtain ⟨rest, rfl, hrest⟩ := hos.exists_cons
    rw [hq] at hrest
    cases hrest
    rw [lookupFrom_root (Bool.eq_false_iff.mpr hm) ha hq, nearest?_absent ha]
    simp [DepthLimit.within, hdepth, nearest?]
  | case4 met depth o hm ha next hq hallows ih =>
    obtain ⟨rest, rfl, hrest⟩ := hos.exists_cons
    have hunmet := Chain.unmet hos hmet
    rw [hq] at hrest
    rw [lookupFrom_next (Bool.eq_false_iff.mpr hm) ha hq, if_pos hallows, ih hrest hunmet hallows]
    obtain ⟨os, rfl, _⟩ := hrest.exists_cons
    rw [links_absent ha, nearest?_absent ha, Nat.add_right_comm, Nat.add_assoc]
  | case5 met depth o hm ha next hq hallows =>
    obtain ⟨rest, rfl, hrest⟩ := hos.exists_cons
    rw [hq] at hrest
    obtain ⟨os, rfl, _⟩ := hrest.exists_cons
    have hdeep : limit.allows (depth + h.links key (o :: next :: os)) = false := by
      apply Bool.eq_false_iff.mpr
      intro hall
      refine hallows (DepthLimit.allows_mono ?_ hall)
      rw [links_absent ha]
      omega
    rw [lookupFrom_next (Bool.eq_false_iff.mpr hm) ha hq, if_neg hallows]
    simp [DepthLimit.within, hdeep]

theorem lookup_eq_within (hos : h.Chain (some o) os) (limit : DepthLimit) (key : String) :
    h.lookup limit o key = limit.within (h.links key os) (h.nearest? key os) := by
  have hfrom : h.lookup limit o key =
      limit.within (0 + h.links key os) (h.nearest? key os) :=
    lookupFrom_eq_within hos (fun q _ => ObjectSet.has_empty q) limit.allows_zero
  rw [Nat.zero_add] at hfrom
  exact hfrom

end Heap

variable {σ : Type} {limit : DepthLimit} {w : World σ}

/-- The objects that a world shows from an object on. -/
theorem World.Reachable.exists_chain [Mentions σ] (hw : w.Reachable limit) (o : ObjectId) :
    ∃ os, w.heap.Chain (some o) os := by
  obtain ⟨cs, hcs⟩ := hw.history
  exact hcs.acyclic (some o)

/-- A walk that has its answer after a number of links, as an action. -/
theorem Act.ofChain_within {α : Type} (key : String) (n : Nat) (a : α) :
    ofChain key (limit.within n a) w =
      if limit.allows n then .ok a w else .error (.typeError (.deepChain key)) w := by
  unfold DepthLimit.within
  split <;> rfl

theorem Host.getProperty_of_chain (host : Host σ) {o : ObjectId} {os : List ObjectId}
    (hos : w.heap.Chain (some o) os) (key : String) :
    host.getProperty o key w =
      if host.limit.allows (w.heap.links key os) then .ok (w.heap.nearest? key os) w
      else .error (.typeError (.deepChain key)) w := by
  rw [getProperty, Act.heap_bind, Heap.lookup_eq_within hos, Act.ofChain_within]

/-- What a lookup gives on the chain of an object, counted by its places: the object itself is at
place 0, and each place is as many links away. -/
structure Host.LooksUp (host : Host σ) (w : World σ) (o : ObjectId) (key : String)
    (chain : List ObjectId) : Prop where
  /-- The first object that has the property answers, if the limit allows its place. -/
  found : ∀ i q p, chain[i]? = some q → (w.heap.object q).ownProperty? key = some p →
    (∀ j r, j < i → chain[j]? = some r → (w.heap.object r).ownProperty? key = none) →
    host.getProperty o key w =
      if host.limit.allows i then .ok (some p) w else .error (.typeError (.deepChain key)) w
  /-- That no object has it is the answer, if the limit allows the last place. -/
  absent : (∀ q ∈ chain, (w.heap.object q).ownProperty? key = none) →
    host.getProperty o key w = if host.limit.allows (chain.length - 1) then .ok none w
      else .error (.typeError (.deepChain key)) w

/-- In every world that can come about, and for every depth limit, a lookup gives the property of
the nearest object that has one, if the limit allows the links to that object; where no object has
one it says so, if the limit allows the links to the last object. It changes nothing. -/
theorem lookup_finds_nearest [Mentions σ] (hw : w.Reachable limit) (host : Host σ) (o : ObjectId)
    (key : String) :
    ∃ rest, w.heap.Chain (some o) (o :: rest) ∧ host.LooksUp w o key (o :: rest) := by
  obtain ⟨os, hos⟩ := hw.exists_chain o
  obtain ⟨rest, rfl, _⟩ := hos.exists_cons
  refine ⟨rest, hos, ?found, ?absent⟩
  case found =>
    intro i q p hq hp least
    obtain ⟨hlinks, hnearest⟩ := Heap.links_of_least hq hp least
    rw [host.getProperty_of_chain hos, hlinks, hnearest]
  case absent =>
    intro absent
    obtain ⟨hlinks, hnearest⟩ := Heap.links_of_absent absent
    rw [host.getProperty_of_chain hos, hlinks, hnearest]

/-- Three objects in a line, the first of which has a property. -/
def lineHeap : Heap :=
  let h := (Heap.empty.push (.ordinary none)).apply .default
    (.define ⟨0⟩ "x" (.data .null true true true))
  (h.push (.ordinary (some ⟨0⟩))).push (.ordinary (some ⟨1⟩))

theorem reachable_lineHeap :
    ({ World.start () with heap := lineHeap } : World Unit).Reachable .default := by
  have hx : Heap.empty.Evolves .default _ _ :=
    (((Heap.Evolves.start.change (.create .ordinary none) below_none).change
      (.define ⟨0⟩ "x" (.data .null true true true))
      (below_change_define.mpr ⟨by decide, below_descriptor.mpr
        ⟨below_some.mpr (below_of_isObject_eq_false rfl), below_none, below_none⟩⟩)).change
      (.create .ordinary (some ⟨0⟩)) (below_some.mpr (below_objectId.mpr (by decide)))).change
      (.create .ordinary (some ⟨1⟩)) (below_some.mpr (below_objectId.mpr (by decide)))
  exact World.reachable_of_evolves below_unit hx

/-- A property two links away is found under the limit two, and is too far under the limit one. -/
theorem lookup_finds_nearest_at_limit :
    let w : World Unit := { World.start () with heap := lineHeap }
    let host (limit : DepthLimit) : Host Unit := .nested limit .meddle 0
    (∃ p, (host ⟨some 2⟩).getProperty ⟨2⟩ "x" w = .ok (some p) w) ∧
      (host ⟨some 1⟩).getProperty ⟨2⟩ "x" w = .error (.typeError (.deepChain "x")) w := by
  intro w host
  have line : w.heap.Chain (some ⟨2⟩) [⟨2⟩, ⟨1⟩, ⟨0⟩] := .cons (.cons (.cons .nil))
  have hp : (w.heap.object ⟨0⟩).ownProperty? "x" = some (.data .null true true true) := by
    decide +kernel
  have least : ∀ j r, j < 2 → ([⟨2⟩, ⟨1⟩, ⟨0⟩] : List ObjectId)[j]? = some r →
      (w.heap.object r).ownProperty? "x" = none := by
    intro j r hj hr
    match j, hj with
    | 0, _ => cases hr; rfl
    | 1, _ => cases hr; rfl
  have looks (limit : DepthLimit) : (host limit).LooksUp w ⟨2⟩ "x" [⟨2⟩, ⟨1⟩, ⟨0⟩] := by
    obtain ⟨rest, hrest, hlooks⟩ := lookup_finds_nearest reachable_lineHeap (host limit) ⟨2⟩ "x"
    rw [line.unique hrest]
    exact hlooks
  exact ⟨⟨_, (looks ⟨some 2⟩).found 2 ⟨0⟩ _ rfl hp least⟩,
    (looks ⟨some 1⟩).found 2 ⟨0⟩ _ rfl hp least⟩

end EcmaCore
