import EcmaCore.Proofs.Assignment
import EcmaCore.Proofs.Reentry

/-!
# Prototype links have no cycle

Every link leads along a chain to an object without prototype. A new object is linked to one that
has its chain, and a link is changed only after a walk from its target to the root that does not
meet the linked object; so the chains of all others either avoid that object or go on, from it,
along the new chain.
-/
namespace EcmaCore

namespace Object
variable {x y : Object} {key : String}

theorem prototype_define {d : Descriptor} (h : x.define key d = .ok y) :
    y.prototype = x.prototype := by
  rcases define_cases h with ⟨_, _, rfl⟩ | ⟨_, _, rfl⟩ | ⟨_, _, _, rfl⟩ <;> rfl

theorem prototype_delete? (h : x.delete? key = some y) : y.prototype = x.prototype := by
  rcases delete?_cases h with ⟨_, rfl⟩ | ⟨_, _, _, rfl⟩ <;> rfl

end Object

namespace Heap
variable {limit : DepthLimit} {h k : Heap} {o : ObjectId} {q : Option ObjectId}
  {os : List ObjectId}

/-- Following links from anywhere comes to an object without prototype. -/
def Acyclic (h : Heap) : Prop := ∀ q, ∃ os, h.Chain q os

/-- A chain depends only on the links of its objects. -/
theorem Chain.congr (hos : h.Chain q os)
    (hk : ∀ p ∈ os, (k.object p).prototype = (h.object p).prototype) : k.Chain q os := by
  induction hos with
  | nil => exact .nil
  | @cons p rest _ ih =>
    have hrest := ih fun r hr => hk r (List.mem_cons_of_mem p hr)
    rw [← hk p List.mem_cons_self] at hrest
    exact .cons hrest

theorem Acyclic.congr (ha : h.Acyclic)
    (hk : ∀ p, (k.object p).prototype = (h.object p).prototype) : k.Acyclic := by
  intro q
  obtain ⟨os, hos⟩ := ha q
  exact ⟨os, hos.congr fun p _ => hk p⟩

theorem Acyclic.replace (ha : h.Acyclic) {x : Object}
    (hx : x.prototype = (h.object o).prototype) : (h.replace o x).Acyclic := by
  apply ha.congr
  intro p
  by_cases hp : p = o
  · subst hp
    rcases Nat.lt_or_ge p.index h.size with ho | ho
    · rw [object_replace_same x ho, hx]
    · rw [replace_of_size_le ho]
  · rw [object_replace_other x hp]

/-- The links of a closed heap lead only to objects that are there, so a chain has no others. -/
theorem Chain.known (hos : h.Chain q os) (hh : Below h.size h) (hq : Below h.size q) :
    ∀ p ∈ os, p.index < h.size := by
  induction hos with
  | nil => exact fun _ hp => absurd hp List.not_mem_nil
  | @cons p rest _ ih =>
    have hp : p.index < h.size := below_objectId.mp (below_some.mp hq)
    have hlink := (below_object_record.mp (below_heap.mp hh p)).1
    intro r hr
    rcases List.mem_cons.mp hr with rfl | hr
    · exact hp
    · exact ih hlink r hr

theorem acyclic_empty : empty.Acyclic := by
  intro q
  cases q with
  | none => exact ⟨[], .nil⟩
  | some p => exact ⟨[p], .cons .nil⟩

theorem Acyclic.push (ha : h.Acyclic) (hh : Below h.size h) {x : Object}
    (hx : Below h.size x.prototype) : (h.push x).Acyclic := by
  have hold {q : Option ObjectId} (hq : Below h.size q) : ∃ os, (h.push x).Chain q os := by
    obtain ⟨os, hos⟩ := ha q
    refine ⟨os, hos.congr fun p hp => ?_⟩
    rw [object_push_of_lt x (hos.known hh hq p hp)]
  intro q
  cases q with
  | none => exact ⟨[], .nil⟩
  | some p =>
    rcases Nat.lt_trichotomy p.index h.size with hp | hp | hp
    · exact hold (below_some.mpr (below_objectId.mpr hp))
    · obtain ⟨os, hos⟩ := hold hx
      obtain rfl : p = h.fresh := by cases p; simp_all [fresh]
      have hrest : (h.push x).Chain ((h.push x).object h.fresh).prototype os := by
        rw [object_push_fresh]
        exact hos
      exact ⟨h.fresh :: os, .cons hrest⟩
    · have hdefault : (h.push x).object p = default :=
        object_of_size_le (by rw [size_push]; omega)
      have hroot : (h.push x).Chain ((h.push x).object p).prototype [] := by
        rw [hdefault]
        exact .nil
      exact ⟨[p], .cons hroot⟩

/-- The chain of an object that got a prototype is the object and the chain from that on. -/
theorem Chain.relink (hos : h.Chain q os) (havoids : o ∉ os) (ho : o.index < h.size) :
    (h.replace o { h.object o with prototype := q }).Chain (some o) (o :: os) := by
  apply Chain.cons
  rw [object_replace_same _ ho]
  apply hos.congr
  intro p hp
  have hne : p ≠ o := by
    rintro rfl
    exact havoids hp
  rw [object_replace_other _ hne]

/-- A link to a chain that avoids the linked object closes no cycle: by induction on a chain of
before, which from the linked object on goes along the new one. -/
theorem Acyclic.relink (ha : h.Acyclic) (ho : o.index < h.size) (hos : h.Chain q os)
    (havoids : o ∉ os) : (h.replace o { h.object o with prototype := q }).Acyclic := by
  let k := h.replace o { h.object o with prototype := q }
  have hother {p : ObjectId} (hp : p ≠ o) : k.object p = h.object p := object_replace_other _ hp
  have hnew : k.Chain (some o) (o :: os) := hos.relink havoids ho
  intro r
  obtain ⟨rs, hrs⟩ := ha r
  induction hrs with
  | nil => exact ⟨[], .nil⟩
  | @cons p _ _ ih =>
    by_cases hp : p = o
    · rw [hp]
      exact ⟨o :: os, hnew⟩
    · obtain ⟨ps, hps⟩ := ih
      rw [← hother hp] at hps
      exact ⟨p :: ps, .cons hps⟩

theorem Acyclic.link (ha : h.Acyclic) (hw : h.walk limit o q = .root) :
    (h.replace o { h.object o with prototype := q }).Acyclic := by
  rcases Nat.lt_or_ge o.index h.size with ho | ho
  · obtain ⟨os, hos⟩ := ha q
    exact ha.relink ho hos (not_mem_of_walk hos hw)
  · rw [replace_of_size_le ho]
    exact ha

/-- No change closes a cycle. -/
theorem Effect.acyclic {c : Change} (he : h.Effect limit c k) (hh : Below h.size h)
    (hc : Below h.size c) (ha : h.Acyclic) : k.Acyclic := by
  cases he with
  | unchanged => exact ha
  | create kind prototype =>
    have hx : (Object.ofKind kind prototype).prototype = prototype := by cases kind <;> rfl
    exact ha.push hh (by rw [hx]; exact hc)
  | define o key d y accepted => exact ha.replace (Object.prototype_define accepted)
  | delete o key y accepted => exact ha.replace (Object.prototype_delete? accepted)
  | preventExtensions o => exact ha.replace rfl
  | link o prototype _ ends => exact ha.link ends

theorem Acyclic.lookup_ne_cyclic (ha : h.Acyclic) {key : String} :
    h.lookup limit o key ≠ .error .cyclic := by
  obtain ⟨os, hos⟩ := ha (some o)
  exact Heap.lookup_ne_cyclic hos

theorem Acyclic.canPut_ne_cyclic (ha : h.Acyclic) {key : String} :
    h.canPut limit o key ≠ .error .cyclic := by
  obtain ⟨os, hos⟩ := ha (some o)
  exact Heap.canPut_ne_cyclic hos

theorem Evolves.acyclic {cs : List Change} (hk : empty.Evolves limit cs k) : k.Acyclic := by
  induction hk with
  | start => exact acyclic_empty
  | change c run hc ih => exact (apply_effect _ _ c).acyclic (run.closed below_empty) hc ih

end Heap

/-- Whether a fault says that a chain comes back to itself. -/
def Fault.isCycle : Fault → Bool
  | typeError (.cyclicChain _) => true
  | _ => false

variable {σ : Type} {host : Host σ} {w : World σ} {o : ObjectId} {key : String} {e : Fault}
  {u : World σ}

theorem ChainFault.isCycle_cause {f : ChainFault} (hf : f ≠ .cyclic) :
    (Fault.typeError (f.cause key)).isCycle = false := by
  cases f with
  | cyclic => exact absurd rfl hf
  | tooDeep => rfl

namespace Act

/-- A walk that met no object twice reports nothing but its depth. -/
theorem ofChain_error {α : Type} {r : Except ChainFault α} (hr : r ≠ .error .cyclic)
    (h : ofChain key r w = .error e u) :
    e = .typeError (.deepChain key) ∧ r = .error .tooDeep := by
  rcases r with (_ | _) | a
  · exact absurd rfl hr
  · cases h
    exact ⟨rfl, rfl⟩
  · cases h

end Act

namespace Host
open Act

theorem getProperty_error (ha : w.heap.Acyclic) (h : host.getProperty o key w = .error e u) :
    e = .typeError (.deepChain key) ∧ host.limit ≠ .unlimited := by
  rw [getProperty, heap_bind] at h
  obtain ⟨he, hr⟩ := ofChain_error ha.lookup_ne_cyclic h
  exact ⟨he, Heap.limited_of_lookupFrom hr⟩

theorem hasProperty_error (ha : w.heap.Acyclic) (h : host.hasProperty o key w = .error e u) :
    e = .typeError (.deepChain key) ∧ host.limit ≠ .unlimited := by
  cases hr : host.getProperty o key w with
  | ok r v =>
    simp only [hasProperty, bind, EStateM.bind, hr] at h
    cases h
  | error f v =>
    simp only [hasProperty, bind, EStateM.bind, hr] at h
    cases h
    exact getProperty_error ha hr

theorem canPut_error (ha : w.heap.Acyclic) (h : host.canPut o key w = .error e u) :
    e = .typeError (.deepChain key) ∧ host.limit ≠ .unlimited := by
  rw [canPut, heap_bind] at h
  obtain ⟨he, hc⟩ := ofChain_error ha.canPut_ne_cyclic h
  obtain ⟨next, _, hr⟩ := Heap.canPut_error hc
  exact ⟨he, Heap.limited_of_lookupFrom hr⟩

theorem callObject_error {f : ObjectId} {this : Value} {args : List Value}
    (h : host.callObject f this args w = .error e u) :
    e.isCycle = false ∨ ∃ c, host.invoke c this args w = .error e u := by
  cases hc : (w.heap.object f).callable? with
  | none =>
    rw [host.callObject_of_uncallable hc] at h
    cases h
    exact .inl rfl
  | some c =>
    rw [host.callObject_of_callable hc] at h
    exact .inr ⟨c, h⟩

theorem read_error {p : Option Property} {receiver : Value}
    (h : host.read p receiver w = .error e u) :
    e.isCycle = false ∨ ∃ c, host.invoke c receiver [] w = .error e u := by
  rcases p with _ | ⟨_ | ⟨_ | getter, _⟩, _, _⟩
  · cases h
  · cases h
  · cases h
  · exact callObject_error h

/-- A read reports a cycle only if the getter does, which is called in the world of the walk. -/
theorem get_error (ha : w.heap.Acyclic) (h : host.get o key w = .error e u) :
    e.isCycle = false ∨ ∃ c, host.invoke c (.object o) [] w = .error e u := by
  cases hr : w.heap.lookup host.limit o key with
  | ok r =>
    rw [get, getProperty_bind hr] at h
    exact read_error h
  | error f =>
    have hf : f ≠ .cyclic := by
      rintro rfl
      exact ha.lookup_ne_cyclic hr
    rw [get, getProperty, bind_assoc, heap_bind, hr, ofChain_bind_error] at h
    cases h
    exact .inl (ChainFault.isCycle_cause hf)

/-- An assignment reports a cycle only if the setter does. -/
theorem put_error (ha : w.heap.Acyclic) {v : Value} {strict : Bool}
    (h : host.put o key v strict w = .error e u) :
    e.isCycle = false ∨ ∃ c, host.invoke c (.object o) [v] w = .error e u := by
  cases host.put_assigns o key v w with
  | fault f walk result =>
    have hf : f ≠ .cyclic := by
      rintro rfl
      rcases walk with hc | hr
      · exact ha.canPut_ne_cyclic hc
      · exact ha.lookup_ne_cyclic hr
    rw [result] at h
    cases h
    exact .inl (ChainFault.isCycle_cause hf)
  | refused loud silent =>
    cases strict with
    | true =>
      rw [loud] at h
      cases h
      exact .inl rfl
    | false =>
      rw [silent] at h
      cases h
  | stored k result =>
    rw [result] at h
    cases h
  | called setter result =>
    rw [result] at h
    exact callObject_error (discard_eq_error_iff.mp h)

end Host

/-- No walk of an operation on a world reports a cycle, and where there is no limit none fails. A
callable that is called reports what it likes. -/
structure World.WalksEnd (w : World σ) (host : Host σ) (o : ObjectId) (key : String) : Prop where
  getProperty : ∀ e u, host.getProperty o key w = .error e u →
    e = .typeError (.deepChain key) ∧ host.limit ≠ .unlimited
  hasProperty : ∀ e u, host.hasProperty o key w = .error e u →
    e = .typeError (.deepChain key) ∧ host.limit ≠ .unlimited
  canPut : ∀ e u, host.canPut o key w = .error e u →
    e = .typeError (.deepChain key) ∧ host.limit ≠ .unlimited
  get : ∀ e u, host.get o key w = .error e u →
    e.isCycle = false ∨ ∃ c, host.invoke c (.object o) [] w = .error e u
  put : ∀ v strict e u, host.put o key v strict w = .error e u →
    e.isCycle = false ∨ ∃ c, host.invoke c (.object o) [v] w = .error e u

theorem World.walksEnd (ha : w.heap.Acyclic) (host : Host σ) (o : ObjectId) (key : String) :
    w.WalksEnd host o key where
  getProperty _ _ h := Host.getProperty_error ha h
  hasProperty _ _ h := Host.hasProperty_error ha h
  canPut _ _ h := Host.canPut_error ha h
  get _ _ h := Host.get_error ha h
  put _ _ _ _ h := Host.put_error ha h

/-- After any run, following links from any object comes to one without prototype and meets none
twice; under every depth limit walks for a key report no cycle, and the walk before a new link ends
at the root, at the object to be linked or by its depth. -/
theorem prototypes_stay_acyclic [Mentions σ] {v : World σ} (law : host.Lawful)
    (hw : w.Reachable host.limit) {ops : List Operation} (run : host.Performs w ops v) :
    (∀ o, ∃ os, v.heap.Chain (some o) os ∧ os.Nodup) ∧
    (∀ (engine : Host σ) o key, v.WalksEnd engine o key) ∧
    (∀ limit o q, ∃ os, v.heap.Chain q os ∧
      Heap.Ends limit o os 0 (v.heap.walk limit o q)) := by
  obtain ⟨cs, hcs⟩ := ((run.leads law hw).reachable hw).history
  have ha : v.heap.Acyclic := hcs.acyclic
  have hchains : ∀ o, ∃ os, v.heap.Chain (some o) os ∧ os.Nodup := by
    intro o
    obtain ⟨os, hos⟩ := ha (some o)
    exact ⟨os, hos, hos.nodup⟩
  have hends : ∀ limit o q, ∃ os, v.heap.Chain q os ∧
      Heap.Ends limit o os 0 (v.heap.walk limit o q) := by
    intro limit o q
    obtain ⟨os, hos⟩ := ha q
    exact ⟨os, hos, Heap.walk_of_chain hos⟩
  exact ⟨hchains, World.walksEnd ha, hends⟩

/-- An object that is the prototype of another, and a callable that meddles with its receiver. -/
def linkedHeap : Heap :=
  ((Heap.empty.push (.ordinary none)).push (.ordinary (some ⟨0⟩))).push (.ofCallable ⟨"x", 0⟩ none)

theorem reachable_linkedHeap :
    ({ World.start () with heap := linkedHeap } : World Unit).Reachable .default := by
  have hx : Heap.empty.Evolves .default _ _ :=
    ((Heap.Evolves.start.change (.create .ordinary none) below_none).change
      (.create .ordinary (some ⟨0⟩)) (below_some.mpr (below_objectId.mpr (by decide)))).change
      (.create (.function ⟨"x", 0⟩) none) below_none
  exact World.reachable_of_evolves below_unit hx

/-- A link that would close a cycle is tried, and then a callable links its receiver to itself. -/
theorem prototypes_stay_acyclic_meddled :
    ∃ v, (Host.nested .default .meddle 3).Performs { World.start () with heap := linkedHeap }
        [.setPrototype ⟨0⟩ (some ⟨1⟩), .call (.object ⟨2⟩) (.object ⟨0⟩) [.object ⟨2⟩]] v ∧
      ∀ o, ∃ os, v.heap.Chain (some o) os ∧ os.Nodup := by
  have law : (Host.nested (σ := Unit) .default .meddle 3).Lawful :=
    Host.nested_lawful Body.meddle_lawful .default 3
  have hlink : Below linkedHeap.size (Operation.setPrototype ⟨0⟩ (some ⟨1⟩)) :=
    below_operation_setPrototype.mpr
      ⟨by decide, below_some.mpr (below_objectId.mpr (by decide))⟩
  have hf : Below linkedHeap.size (Value.object ⟨2⟩) := below_object.mpr (by decide)
  have ht : Below linkedHeap.size (Value.object ⟨0⟩) := below_object.mpr (by decide)
  have hcall := below_operation_call.mpr ⟨hf, ht, below_cons.mpr ⟨hf, below_nil⟩⟩
  have hsize := (Operation.run_keeps law reachable_linkedHeap hlink).leads.size_le
  have run : (Host.nested .default .meddle 3).Performs
      { World.start () with heap := linkedHeap } _ _ :=
    .operation hlink (.operation (hcall.mono hsize) (.done _))
  exact ⟨_, run, (prototypes_stay_acyclic law reachable_linkedHeap run).1⟩

end EcmaCore
