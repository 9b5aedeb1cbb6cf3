import EcmaCore.Proofs.Reach

/-!
# What the test before an assignment answers

On a chain the test answers by the property that a lookup comes to. It looks at the object by itself
and lets a lookup begin at the prototype, so the link between the two is not counted: the test
reaches one link further than the lookup. Where the lookup needs just one link more than the limit
the test allows an assignment that then fails.
-/
namespace EcmaCore

theorem DepthLimit.map_within {α β : Type} (limit : DepthLimit) (n : Nat) (a : α) (f : α → β) :
    (limit.within n a).map f = limit.within n (f a) := by
  unfold within
  split <;> rfl

namespace Object
variable {x : Object} {key : String}

/-- Whether an object takes an assignment to a key, by the property that was found under the key,
its own or an inherited one. -/
def takes (x : Object) (key : String) : Option Property → Bool
  | none => x.extensible
  | some ⟨.accessor _ setter, _, _⟩ => setter.isSome
  | some ⟨.data _ writable, _, _⟩ => writable && (x.hasOwn key || x.extensible)

theorem takes_own {p : Property} (hp : x.ownProperty? key = some p) :
    x.takes key (some p) = p.slot.takesValue := by
  obtain ⟨_ | _, e, c⟩ := p
  · simp [takes, hasOwn, hp, Slot.takesValue]
  · rfl

theorem takes_inherited {p : Property} (ha : x.ownProperty? key = none) :
    x.takes key (some p) = (p.slot.takesValue && (p.isAccessor || x.extensible)) := by
  obtain ⟨_ | _, e, c⟩ := p
  · simp [takes, hasOwn, ha, Slot.takesValue, Property.isAccessor, Slot.isData]
  · simp [takes, Slot.takesValue, Property.isAccessor, Slot.isData]

end Object

namespace Heap
variable {h : Heap} {limit : DepthLimit} {o : ObjectId} {key : String} {os : List ObjectId}

/-- The test follows all links of the lookup but the first. -/
theorem canPut_eq_within (hos : h.Chain (some o) os) :
    h.canPut limit o key =
      limit.within (h.links key os - 1) ((h.object o).takes key (h.nearest? key os)) := by
  obtain ⟨rest, rfl, hrest⟩ := hos.exists_cons
  cases ha : (h.object o).ownProperty? key with
  | some p =>
    rw [links_own ha, nearest?_own ha, Object.takes_own ha]
    simp [canPut, ha, DepthLimit.within, limit.allows_zero]
  | none =>
    rw [nearest?_absent ha]
    cases hq : (h.object o).prototype with
    | none =>
      rw [hq] at hrest
      cases hrest
      simp [canPut, ha, hq, DepthLimit.within, limit.allows_zero, nearest?, Object.takes]
    | some next =>
      rw [hq] at hrest
      have hlookup := lookup_eq_within hrest limit key
      obtain ⟨os, rfl, _⟩ := hrest.exists_cons
      rw [links_absent ha, Nat.add_sub_cancel]
      simp only [canPut, ha, hq, hlookup, DepthLimit.map_within]
      congr 1
      cases h.nearest? key (next :: os) with
      | none => rfl
      | some p => exact (Object.takes_inherited ha).symm

end Heap

variable {σ : Type} {limit : DepthLimit} {w : World σ}

namespace Host
open Act
variable (host : Host σ) {o : ObjectId} {os : List ObjectId}

theorem canPut_of_chain (hos : w.heap.Chain (some o) os) (key : String) :
    host.canPut o key w =
      if host.limit.allows (w.heap.links key os - 1) then
        .ok ((w.heap.object o).takes key (w.heap.nearest? key os)) w
      else .error (.typeError (.deepChain key)) w := by
  rw [canPut, heap_bind, Heap.canPut_eq_within hos, ofChain_within]

end Host

/-- In every world that can come about the test goes by what the lookup finds, if it finds its
answer. -/
theorem put_test_follows_lookup [Mentions σ] {host : Host σ} (hw : w.Reachable limit) {o : ObjectId}
    {key : String} {found : Option Property} (hfound : host.getProperty o key w = .ok found w) :
    host.canPut o key w = .ok ((w.heap.object o).takes key found) w := by
  obtain ⟨os, hos⟩ := hw.exists_chain o
  rw [host.getProperty_of_chain hos] at hfound
  split at hfound
  next hlinks =>
    cases hfound
    have htest := DepthLimit.allows_mono (Nat.sub_le (w.heap.links key os) 1) hlinks
    rw [host.canPut_of_chain hos, if_pos htest]
  next => cases hfound

/-- A value is inherited past an object that cannot grow, by one that can. -/
theorem put_test_follows_lookup_past :
    let u : World Unit := (Act.preventExtensions ⟨1⟩).after { World.start () with heap := lineHeap }
    let host : Host Unit := .nested .default .meddle 0
    (∃ found, host.getProperty ⟨2⟩ "x" u = .ok found u) ∧ host.canPut ⟨2⟩ "x" u = .ok true u := by
  intro u host
  have hw : u.Reachable .default :=
    (Act.preventExtensions_keeps reachable_lineHeap.closed (by decide)).leads.reachable
      reachable_lineHeap
  have line : u.heap.Chain (some ⟨2⟩) [⟨2⟩, ⟨1⟩, ⟨0⟩] := .cons (.cons (.cons .nil))
  have hlinks : host.limit.allows (u.heap.links "x" [⟨2⟩, ⟨1⟩, ⟨0⟩]) = true := by decide +kernel
  have hfound := (host.getProperty_of_chain line "x").trans (if_pos hlinks)
  have htakes : (u.heap.object ⟨2⟩).takes "x" (u.heap.nearest? "x" [⟨2⟩, ⟨1⟩, ⟨0⟩]) = true := by
    decide +kernel
  have hallowed := put_test_follows_lookup hw hfound
  rw [htakes] at hallowed
  exact ⟨⟨_, hfound⟩, hallowed⟩

/-- How a lookup, the test before an assignment and the assignment go on a chain, by the number of
links that the lookup needs. -/
structure Host.GoesBy (host : Host σ) (w : World σ) (o : ObjectId) (key : String) (links : Nat) :
    Prop where
  lookup : host.getProperty o key w = .error (.typeError (.deepChain key)) w ↔
    host.limit.allows links = false
  /-- The test does not count the link to the prototype. -/
  test : host.canPut o key w = .error (.typeError (.deepChain key)) w ↔
    host.limit.allows (links - 1) = false
  /-- So where the lookup needs one link more than the limit it fails, and the test does not. -/
  edge : host.getProperty o key w = .error (.typeError (.deepChain key)) w ∧
      host.canPut o key w ≠ .error (.typeError (.deepChain key)) w ↔
    ∃ max, host.limit.max = some max ∧ links = max + 1
  /-- There an assignment that the test allows fails by the depth of the chain. -/
  fails : host.canPut o key w = .ok true w → host.limit.allows links = false →
    ∀ v strict, host.put o key v strict w = .error (.typeError (.deepChain key)) w
  /-- Anywhere else it succeeds, or it does what a call of a setter does. -/
  succeeds : host.canPut o key w = .ok true w → host.limit.allows links = true →
    ∀ v strict, (∃ u, host.put o key v strict w = .ok () u) ∨
      ∃ setter, host.put o key v strict w = discard (host.callObject setter (.object o) [v]) w

theorem DepthLimit.allows_eq_false_iff {n : Nat} :
    limit.allows n = false ↔ ∃ max, limit.max = some max ∧ max < n := by
  unfold allows
  cases limit.max <;> simp

/-- The limit that forbids some links and allows one less. -/
theorem DepthLimit.forbids_last_iff {n : Nat} :
    limit.allows n = false ∧ ¬limit.allows (n - 1) = false ↔
      ∃ max, limit.max = some max ∧ n = max + 1 := by
  rw [allows_eq_false_iff, allows_eq_false_iff]
  constructor
  · rintro ⟨⟨max, hmax, hn⟩, hlast⟩
    have hle : ¬max < n - 1 := fun hlt => hlast ⟨max, hmax, hlt⟩
    exact ⟨max, hmax, by omega⟩
  · rintro ⟨max, hmax, rfl⟩
    refine ⟨⟨max, hmax, Nat.lt_succ_self max⟩, ?_⟩
    rintro ⟨max', hmax', hlt⟩
    obtain rfl := Option.some.inj (hmax.symm.trans hmax')
    omega

namespace Act

/-- A walk that ends an action without a fault has that answer. -/
theorem answer_of_ofChain {α : Type} {key : String} {r : Except ChainFault α} {a : α} {u : World σ}
    (h : ofChain key r w = .ok a u) : r = .ok a := by
  cases r with
  | ok b =>
    cases h
    rfl
  | error e => cases h

theorem within_error_iff {α : Type} {n : Nat} {a : α} {e : Fault} :
    (if limit.allows n then .ok a w else .error e w : EStateM.Result Fault (World σ) α) =
      .error e w ↔ limit.allows n = false := by
  cases limit.allows n <;> simp

end Act

namespace Host
open Act
variable {host : Host σ} {o : ObjectId} {key : String} {os : List ObjectId}

theorem getProperty_deep_iff (hos : w.heap.Chain (some o) os) (host : Host σ) (key : String) :
    host.getProperty o key w = .error (.typeError (.deepChain key)) w ↔
      host.limit.allows (w.heap.links key os) = false := by
  rw [host.getProperty_of_chain hos]
  exact within_error_iff

theorem canPut_deep_iff (hos : w.heap.Chain (some o) os) (host : Host σ) (key : String) :
    host.canPut o key w = .error (.typeError (.deepChain key)) w ↔
      host.limit.allows (w.heap.links key os - 1) = false := by
  rw [host.canPut_of_chain hos]
  exact within_error_iff

theorem canPut_of_ok {b : Bool} (h : host.canPut o key w = .ok b w) :
    w.heap.canPut host.limit o key = .ok b :=
  answer_of_ofChain h

theorem lookup_of_ok {r : Option Property} (h : host.getProperty o key w = .ok r w) :
    w.heap.lookup host.limit o key = .ok r :=
  answer_of_ofChain h

/-- An assignment that is allowed stores or calls a setter, if the lookup has its answer too. -/
theorem put_of_allowed {r : Option Property} (hc : w.heap.canPut host.limit o key = .ok true)
    (hr : w.heap.lookup host.limit o key = .ok r) (v : Value) (strict : Bool) :
    (∃ u, host.put o key v strict w = .ok () u) ∨
      ∃ setter, host.put o key v strict w = discard (host.callObject setter (.object o) [v]) w := by
  cases Heap.assignable_of_canPut hc hr with
  | own u e c hp => exact .inl ⟨_, put_own hc hp⟩
  | setter getter setter e c ho hfound =>
    subst hfound
    exact .inr ⟨setter, put_setter hc ho hr⟩
  | new ha he hdata => exact .inl ⟨_, put_new hc ha he hr hdata⟩

theorem put_of_unfound {e : ChainFault} (hc : w.heap.canPut host.limit o key = .ok true)
    (hr : w.heap.lookup host.limit o key = .error e) (v : Value) (strict : Bool) :
    host.put o key v strict w = .error (.typeError (e.cause key)) w := by
  rw [put_eq_assign, assign_of_unfound hc hr]

end Host

/-- In every world that can come about and for every depth limit, the lookup goes by the links that
it needs and the test before an assignment by one link less. -/
theorem put_test_spares_first_link [Mentions σ] (hw : w.Reachable limit) (host : Host σ)
    (o : ObjectId) (key : String) :
    ∃ rest, w.heap.Chain (some o) (o :: rest) ∧
      host.GoesBy w o key (w.heap.links key (o :: rest)) := by
  obtain ⟨os, hos⟩ := hw.exists_chain o
  obtain ⟨rest, rfl, _⟩ := hos.exists_cons
  have hlookup := Host.getProperty_deep_iff hos host key
  have htest := Host.canPut_deep_iff hos host key
  have hwithin := Heap.lookup_eq_within hos host.limit key
  unfold DepthLimit.within at hwithin
  refine ⟨rest, hos, hlookup, htest, ?edge, ?fails, ?succeeds⟩
  case edge =>
    rw [hlookup, ne_eq, htest]
    exact DepthLimit.forbids_last_iff
  case fails =>
    intro hallowed hdeep
    rw [if_neg (Bool.eq_false_iff.mp hdeep)] at hwithin
    exact Host.put_of_unfound (Host.canPut_of_ok hallowed) hwithin
  case succeeds =>
    intro hallowed hlinks
    rw [if_pos hlinks] at hwithin
    exact Host.put_of_allowed (Host.canPut_of_ok hallowed) hwithin

/-- Two links away from a line's end, under the limit one: the lookup fails and the test does not. -/
theorem put_test_spares_first_link_edge :
    let w : World Unit := { World.start () with heap := lineHeap }
    let host : Host Unit := .nested ⟨some 1⟩ .meddle 0
    host.getProperty ⟨2⟩ "y" w = .error (.typeError (.deepChain "y")) w ∧
      host.canPut ⟨2⟩ "y" w ≠ .error (.typeError (.deepChain "y")) w := by
  intro w host
  have line : w.heap.Chain (some ⟨2⟩) [⟨2⟩, ⟨1⟩, ⟨0⟩] := .cons (.cons (.cons .nil))
  obtain ⟨rest, hrest, goes⟩ := put_test_spares_first_link reachable_lineHeap host ⟨2⟩ "y"
  rw [← line.unique hrest] at goes
  exact goes.edge.mpr ⟨1, rfl, by decide +kernel⟩

/-- The prototype of an object in a line. -/
def before? : Nat → Option ObjectId
  | 0 => none
  | i + 1 => some ⟨i⟩

/-- Objects without properties in a line, each of which inherits from the one before. -/
def lineOf : Nat → Heap
  | 0 => .empty
  | n + 1 => (lineOf n).push (.ordinary (before? n))

namespace Heap
variable {n i : Nat}

@[simp] theorem size_lineOf (n : Nat) : (lineOf n).size = n := by
  induction n with
  | zero => rfl
  | succ n ih => rw [lineOf, size_push, ih]

theorem object_lineOf (hi : i < n) : (lineOf n).object ⟨i⟩ = .ordinary (before? i) := by
  induction n with
  | zero => cases hi
  | succ n ih =>
    rcases Nat.lt_succ_iff_lt_or_eq.mp hi with hlt | rfl
    · rw [lineOf, object_push_of_lt _ (by simpa using hlt), ih hlt]
    · have hfresh := object_push_fresh (lineOf i) (.ordinary (before? i))
      rw [fresh, size_lineOf] at hfresh
      exact hfresh

/-- Each object of a line has all those before it on its chain. -/
theorem chain_lineOf (hi : i < n) :
    ∃ os, (lineOf n).Chain (some ⟨i⟩) os ∧ os.length = i + 1 := by
  induction i with
  | zero =>
    refine ⟨[⟨0⟩], .cons ?_, rfl⟩
    rw [object_lineOf hi]
    exact .nil
  | succ i ih =>
    obtain ⟨os, hos, hlength⟩ := ih (Nat.lt_of_succ_lt hi)
    refine ⟨⟨i + 1⟩ :: os, .cons ?_, by rw [List.length_cons, hlength]⟩
    rw [object_lineOf hi]
    exact hos

theorem absent_lineOf (n : Nat) (o : ObjectId) (key : String) :
    ((lineOf n).object o).ownProperty? key = none := by
  rcases Nat.lt_or_ge o.index n with ho | ho
  · rw [object_lineOf ho]
    rfl
  · rw [object_of_size_le (by simpa using ho)]
    rfl

theorem evolves_lineOf (limit : DepthLimit) (n : Nat) :
    ∃ cs, Heap.empty.Evolves limit cs (lineOf n) := by
  induction n with
  | zero => exact ⟨[], .start⟩
  | succ n ih =>
    obtain ⟨cs, hcs⟩ := ih
    have known : Below (lineOf n).size (before? n) := by
      cases n with
      | zero => exact below_none
      | succ n => exact below_some.mpr (below_objectId.mpr (by simp))
    exact ⟨_, hcs.change (.create .ordinary (before? n)) known⟩

end Heap

/-- For every limit there is a line of objects to the last of which the test allows an assignment
that then fails. -/
theorem Host.allowed_but_deep (host : Host Unit) (max : Nat) (hmax : host.limit.max = some max)
    (key : String) (v : Value) (strict : Bool) :
    let w : World Unit := { World.start () with heap := lineOf (max + 2) }
    w.Reachable host.limit ∧ host.canPut ⟨max + 1⟩ key w = .ok true w ∧
      host.getProperty ⟨max + 1⟩ key w = .error (.typeError (.deepChain key)) w ∧
      host.put ⟨max + 1⟩ key v strict w = .error (.typeError (.deepChain key)) w := by
  intro w
  obtain ⟨cs, hcs⟩ := Heap.evolves_lineOf host.limit (max + 2)
  obtain ⟨os, hos, hlength⟩ := Heap.chain_lineOf (Nat.lt_succ_self (max + 1))
  obtain ⟨hlinks, hnearest⟩ := Heap.links_of_absent fun q (_ : q ∈ os) =>
    Heap.absent_lineOf (max + 2) q key
  rw [hlength, Nat.add_sub_cancel] at hlinks
  have hdeep : host.limit.allows (max + 1) = false :=
    DepthLimit.allows_eq_false_iff.mpr ⟨max, hmax, Nat.lt_succ_self max⟩
  have hallows : host.limit.allows max = true := by simp [DepthLimit.allows, hmax]
  have htakes : (w.heap.object ⟨max + 1⟩).takes key none = true := by
    rw [Heap.object_lineOf (Nat.lt_succ_self (max + 1))]
    rfl
  have htest : host.canPut ⟨max + 1⟩ key w = .ok true w := by
    rw [host.canPut_of_chain hos, hlinks, hnearest, Nat.add_sub_cancel, if_pos hallows, htakes]
  have hlookup : w.heap.lookup host.limit ⟨max + 1⟩ key = .error .tooDeep := by
    rw [Heap.lookup_eq_within hos, hlinks, DepthLimit.within, if_neg (Bool.eq_false_iff.mp hdeep)]
  have hgiven : host.getProperty ⟨max + 1⟩ key w = .error (.typeError (.deepChain key)) w := by
    rw [getProperty_deep_iff hos host key, hlinks]
    exact hdeep
  exact ⟨World.reachable_of_evolves below_unit hcs, htest, hgiven,
    put_of_unfound (canPut_of_ok htest) hlookup v strict⟩

/-- Under the default limit the test allows an assignment to the last of 10002 objects, and then it
fails. -/
theorem put_test_passes_default_limit :
    let w : World Unit := { World.start () with heap := lineOf 10002 }
    let host : Host Unit := .nested .default .meddle 0
    w.Reachable .default ∧ host.canPut ⟨10001⟩ "x" w = .ok true w ∧
      host.getProperty ⟨10001⟩ "x" w = .error (.typeError (.deepChain "x")) w ∧
      host.put ⟨10001⟩ "x" .null false w = .error (.typeError (.deepChain "x")) w :=
  Host.allowed_but_deep (.nested .default .meddle 0) 10000 rfl "x" .null false

end EcmaCore
