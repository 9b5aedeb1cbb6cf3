import EcmaCore.Proofs.Reach

/-!
# Which prototypes are accepted

A new prototype is fit for an object that can grow if the chain from the prototype on does not come
to the object and has no more objects than the depth limit has links. Exactly the fit ones are
accepted, and the one that is there already. The links that a lookup can then follow from the object
are as many as the chain has objects, so no lookup on it is too deep.
-/
namespace EcmaCore

theorem DepthLimit.allows_iff {limit : DepthLimit} {n : Nat} :
    limit.allows n = true ↔ ∀ max, limit.max = some max → n ≤ max := by
  unfold allows
  cases limit.max <;> simp

namespace Heap
variable {h : Heap} {limit : DepthLimit} {o : ObjectId} {q : Option ObjectId}
  {os : List ObjectId}

/-- An object may be linked to the first object of a chain, or to none if the chain is empty. -/
structure MayLink (h : Heap) (limit : DepthLimit) (o : ObjectId) (chain : List ObjectId) :
    Prop where
  extensible : (h.object o).extensible = true
  avoids : o ∉ chain
  /-- The limit counts the new link and those between the objects of the chain. -/
  fits : ∀ max, limit.max = some max → chain.length ≤ max

/-- Of the ends that a walk has, it comes to the root if nothing speaks against it. -/
theorem walk_eq_root_iff (hos : h.Chain q os) :
    h.walk limit o q = .root ↔ o ∉ os ∧ limit.allows os.length = true := by
  have hends : Ends limit o os 0 (h.walk limit o q) := walk_of_chain hos
  generalize h.walk limit o q = e at hends
  cases hends with
  | root avoids allows =>
    rw [Nat.zero_add] at allows
    simp [avoids, allows]
  | target meets => simp [meets]
  | tooDeep deep =>
    rw [Nat.zero_add] at deep
    simp [deep]

theorem mayLink_iff (hos : h.Chain q os) : h.MayLink limit o os ↔
    (h.object o).extensible = true ∧ h.walk limit o q = .root := by
  rw [walk_eq_root_iff hos, DepthLimit.allows_iff]
  exact ⟨fun ⟨he, ha, hf⟩ => ⟨he, ha, hf⟩, fun ⟨he, ha, hf⟩ => ⟨he, ha, hf⟩⟩

theorem setPrototype?_of_same (hq : (h.object o).prototype = q) :
    h.setPrototype? limit o q = some h := by
  simp only [setPrototype?, hq, if_true]

theorem setPrototype?_of_mayLink (hos : h.Chain q os) (hq : (h.object o).prototype ≠ q)
    (fit : h.MayLink limit o os) :
    h.setPrototype? limit o q = some (h.replace o { h.object o with prototype := q }) := by
  have hwalk := (mayLink_iff hos).mp fit
  simp [setPrototype?, hq, hwalk]

theorem setPrototype?_of_unfit (hos : h.Chain q os) (hq : (h.object o).prototype ≠ q)
    (unfit : ¬h.MayLink limit o os) : h.setPrototype? limit o q = none := by
  rw [mayLink_iff hos] at unfit
  simp [setPrototype?, hq, unfit]

/-- No lookup follows more links than there are behind the first object of a chain. -/
theorem links_le (key : String) (o : ObjectId) (os : List ObjectId) :
    h.links key (o :: os) ≤ os.length := by
  induction os generalizing o with
  | nil => exact Nat.zero_le _
  | cons next os ih =>
    rw [links]
    split
    · exact Nat.zero_le _
    · exact Nat.succ_le_succ (ih next)

end Heap

variable {σ : Type} {limit : DepthLimit} {u w : World σ} {o : ObjectId} {q : Option ObjectId}

/-- One world is the other with an object linked to a prototype, or to none. -/
structure World.Linked (o : ObjectId) (q : Option ObjectId) (w u : World σ) : Prop where
  object : u.heap.object o = { w.heap.object o with prototype := q }
  others : ∀ p, p ≠ o → u.heap.object p = w.heap.object p
  size : u.heap.size = w.heap.size
  realm : u.realm = w.realm
  scopes : u.scopes = w.scopes
  host : u.host = w.host

theorem World.linked_replace (ho : o.index < w.heap.size) (q : Option ObjectId) :
    w.Linked o q { w with heap := w.heap.replace o { w.heap.object o with prototype := q } } where
  object := Heap.object_replace_same _ ho
  others _ hp := Heap.object_replace_other _ hp
  size := Heap.size_replace _ _ _
  realm := rfl
  scopes := rfl
  host := rfl

theorem World.linked_self (hq : (w.heap.object o).prototype = q) : w.Linked o q w where
  object := by rw [← hq]
  others _ _ := rfl
  size := rfl
  realm := rfl
  scopes := rfl
  host := rfl

namespace Host
variable {host : Host σ}

theorem setPrototype_of_some {k : Heap} (hk : w.heap.setPrototype? host.limit o q = some k) :
    host.setPrototype o q w = .ok true { w with heap := k } := by
  rw [setPrototype, Act.heap_bind, hk]
  rfl

theorem setPrototype_of_none (hk : w.heap.setPrototype? host.limit o q = none) :
    host.setPrototype o q w = .ok false w := by
  rw [setPrototype, Act.heap_bind, hk]
  rfl

/-- What becomes of a prototype that is proposed for an object, by the chain from it on. -/
structure Proposes (host : Host σ) (w : World σ) (o : ObjectId) (q : Option ObjectId)
    (chain : List ObjectId) : Prop where
  accepted : (∃ u, host.setPrototype o q w = .ok true u) ↔
    (w.heap.object o).prototype = q ∨ w.heap.MayLink host.limit o chain
  /-- Whatever is not accepted is refused, and a refusal changes nothing. -/
  refused : (¬∃ u, host.setPrototype o q w = .ok true u) → host.setPrototype o q w = .ok false w
  linked : ∀ u, host.setPrototype o q w = .ok true u → w.Linked o q u
  /-- After a change every lookup on the object has an answer. -/
  answers : ∀ u, host.setPrototype o q w = .ok true u → (w.heap.object o).prototype ≠ q →
    ∀ key, ∃ found, host.getProperty o key u = .ok found u

theorem proposes_of_accepted {chain : List ObjectId}
    (result : host.setPrototype o q w = .ok true u)
    (safe : (w.heap.object o).prototype = q ∨ w.heap.MayLink host.limit o chain)
    (linked : w.Linked o q u)
    (answers : (w.heap.object o).prototype ≠ q →
      ∀ key, ∃ found, host.getProperty o key u = .ok found u) :
    host.Proposes w o q chain := by
  refine ⟨iff_of_true ⟨u, result⟩ safe, fun never => absurd ⟨u, result⟩ never, ?linked, ?answers⟩
  case linked =>
    intro v hv
    cases result.symm.trans hv
    exact linked
  case answers =>
    intro v hv
    cases result.symm.trans hv
    exact answers

theorem proposes_of_refused {chain : List ObjectId} (result : host.setPrototype o q w = .ok false w)
    (unfit : ¬((w.heap.object o).prototype = q ∨ w.heap.MayLink host.limit o chain)) :
    host.Proposes w o q chain := by
  have never : ∀ u, host.setPrototype o q w ≠ .ok true u := by
    intro u hu
    cases result.symm.trans hu
  exact ⟨iff_of_false (fun ⟨u, hu⟩ => never u hu) unfit, fun _ => result,
    fun u hu => absurd hu (never u), fun u hu => absurd hu (never u)⟩

/-- An object that was linked has the object and the chain before it for its lookups. -/
theorem getProperty_of_relink {chain : List ObjectId} (hchain : w.heap.Chain q chain)
    (fit : w.heap.MayLink host.limit o chain) (ho : o.index < w.heap.size) (key : String) :
    let u : World σ := { w with heap := w.heap.replace o { w.heap.object o with prototype := q } }
    ∃ found, host.getProperty o key u = .ok found u := by
  intro u
  have hnew : u.heap.Chain (some o) (o :: chain) := hchain.relink fit.avoids ho
  have hlinks : host.limit.allows (u.heap.links key (o :: chain)) = true :=
    DepthLimit.allows_mono (Heap.links_le key o chain) (DepthLimit.allows_iff.mpr fit.fits)
  exact ⟨_, (host.getProperty_of_chain hnew key).trans (if_pos hlinks)⟩

end Host

/-- In every world that can come about and for every depth limit, a prototype is accepted exactly if
it is there already or may be linked to. The link is then made and nothing else changes. -/
theorem link_accepted_if_safe [Mentions σ] (hw : w.Reachable limit) (ho : o.index < w.heap.size)
    (host : Host σ) (q : Option ObjectId) :
    ∃ chain, w.heap.Chain q chain ∧ host.Proposes w o q chain := by
  obtain ⟨cs, hcs⟩ := hw.history
  obtain ⟨chain, hchain⟩ := hcs.acyclic q
  refine ⟨chain, hchain, ?_⟩
  by_cases hq : (w.heap.object o).prototype = q
  · exact Host.proposes_of_accepted (Host.setPrototype_of_some (Heap.setPrototype?_of_same hq))
      (.inl hq) (World.linked_self hq) fun hne => absurd hq hne
  · by_cases fit : w.heap.MayLink host.limit o chain
    · exact Host.proposes_of_accepted
        (Host.setPrototype_of_some (Heap.setPrototype?_of_mayLink hchain hq fit)) (.inr fit)
        (World.linked_replace ho q) fun _ => Host.getProperty_of_relink hchain fit ho
    · exact Host.proposes_of_refused
        (Host.setPrototype_of_none (Heap.setPrototype?_of_unfit hchain hq fit)) (by simp [hq, fit])

/-- Under the limit two an object may be linked to a chain of two objects, and then finds what the
last of them has, but not to a chain of three. -/
theorem link_accepted_if_safe_at_limit :
    let w : World Unit := { World.start () with heap := lineHeap.push (.ordinary none) }
    let host : Host Unit := .nested ⟨some 2⟩ .meddle 0
    (∃ u, host.setPrototype ⟨3⟩ (some ⟨1⟩) w = .ok true u ∧
      ∃ found, host.getProperty ⟨3⟩ "x" u = .ok found u) ∧
    host.setPrototype ⟨3⟩ (some ⟨2⟩) w = .ok false w := by
  intro w host
  have hw : w.Reachable .default :=
    (Act.create_keeps reachable_lineHeap.closed .ordinary below_none).leads.reachable
      reachable_lineHeap
  have ho : (⟨3⟩ : ObjectId).index < w.heap.size := by decide
  have two : w.heap.Chain (some ⟨1⟩) [⟨1⟩, ⟨0⟩] := .cons (.cons .nil)
  have three : w.heap.Chain (some ⟨2⟩) [⟨2⟩, ⟨1⟩, ⟨0⟩] := .cons (.cons (.cons .nil))
  obtain ⟨chain, hchain, near⟩ := link_accepted_if_safe hw ho host (some ⟨1⟩)
  obtain ⟨chain', hchain', far⟩ := link_accepted_if_safe hw ho host (some ⟨2⟩)
  rw [← two.unique hchain] at near
  rw [← three.unique hchain'] at far
  constructor
  · obtain ⟨u, hu⟩ := near.accepted.mpr (.inr ⟨rfl, by decide, by rintro _ ⟨⟩; decide⟩)
    exact ⟨u, hu, near.answers u hu nofun "x"⟩
  · apply far.refused
    intro accepted
    rcases far.accepted.mp accepted with hq | fit
    · cases hq
    · exact absurd (fit.fits 2 rfl) (by decide)

end EcmaCore
