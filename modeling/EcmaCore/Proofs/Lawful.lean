import EcmaCore.Proofs.Change

/-!
# Lawful hosts

A callable may do anything that public operations do, with any object it can name. Seen from outside
it is then a run of changes of the heap, beside which the realm, the scopes and the engine's own
state may change as they like. A host is lawful if each of its callables is that, in every world
that can come about; nothing is asked of what a callable does elsewhere.
-/
namespace EcmaCore

variable {σ α β : Type} [Mentions σ] [Mentions α] [Mentions β] {limit : DepthLimit}
  {u v w : World σ}

/-- Nothing in the world mentions an object that is not there. -/
structure World.Closed (w : World σ) : Prop where
  heap : Below w.heap.size w.heap
  realm : Below w.heap.size w.realm
  scopes : ∀ s, Below w.heap.size (w.scope s)
  host : Below w.heap.size w.host

/-- A world whose heap was made by changes from the empty one. -/
structure World.Reachable (limit : DepthLimit) (w : World σ) : Prop where
  closed : w.Closed
  history : ∃ cs, Heap.empty.Evolves limit cs w.heap

/-- One world comes from another by changes of the heap, whatever happens beside it. -/
structure World.Leads (limit : DepthLimit) (w v : World σ) : Prop where
  closed : v.Closed
  changes : ∃ cs, w.heap.Evolves limit cs v.heap

/-- An action does nothing to the heap but changes, and its result mentions only what is there. -/
def Act.Keeps (limit : DepthLimit) (w : World σ) (x : Act σ α) : Prop :=
  match x w with
  | .ok a v => w.Leads limit v ∧ Below v.heap.size a
  | .error e v => w.Leads limit v ∧ Below v.heap.size e

structure Host.Lawful (host : Host σ) : Prop where
  invoke : ∀ {w : World σ} (c : Callable) (this : Value) (args : List Value),
    w.Reachable host.limit → Below w.heap.size this → Below w.heap.size args →
    (host.invoke c this args).Keeps host.limit w

namespace World

theorem closed_start {s : σ} (hs : Below 0 s) : (start s).Closed where
  heap := Heap.below_empty
  realm := by
    rw [below_realm]
    intro i
    cases i <;> exact below_none
  scopes := by
    intro s
    exact below_scope.mpr fun name => below_none
  host := hs

theorem reachable_start (limit : DepthLimit) {s : σ} (hs : Below 0 s) :
    (start s).Reachable limit :=
  ⟨closed_start hs, [], .start⟩

/-- What is beside the heap stays closed when the heap grows. -/
theorem Closed.grow (hw : w.Closed) {h : Heap} (hsize : w.heap.size ≤ h.size)
    (hh : Below h.size h) : ({ w with heap := h } : World σ).Closed where
  heap := hh
  realm := hw.realm.mono hsize
  scopes := fun s => (hw.scopes s).mono hsize
  host := hw.host.mono hsize

theorem Leads.refl (hw : w.Closed) : w.Leads limit w := ⟨hw, [], .start⟩

theorem Leads.trans (hu : u.Leads limit v) (hv : v.Leads limit w) : u.Leads limit w := by
  obtain ⟨_, cs, hcs⟩ := hu
  obtain ⟨hw, ds, hds⟩ := hv
  exact ⟨hw, cs ++ ds, hcs.trans hds⟩

theorem Leads.size_le (h : w.Leads limit v) : w.heap.size ≤ v.heap.size := by
  obtain ⟨_, cs, hcs⟩ := h
  exact hcs.size_le

theorem Leads.reachable (h : w.Leads limit v) (hw : w.Reachable limit) : v.Reachable limit := by
  obtain ⟨ds, hds⟩ := hw.history
  obtain ⟨hv, cs, hcs⟩ := h
  exact ⟨hv, ds ++ cs, hds.trans hcs⟩

theorem leads_evolves (hw : w.Closed) {cs : List Change} {h : Heap}
    (hcs : w.heap.Evolves limit cs h) : w.Leads limit { w with heap := h } :=
  ⟨hw.grow hcs.size_le (hcs.closed hw.heap), cs, hcs⟩

theorem leads_apply (hw : w.Closed) {c : Change} (hc : Below w.heap.size c) :
    w.Leads limit { w with heap := w.heap.apply limit c } :=
  leads_evolves hw (.one hc)

/-- A heap made by changes from the empty one, in a world with nothing else. -/
theorem reachable_of_evolves {s : σ} (hs : Below 0 s) {cs : List Change} {h : Heap}
    (hcs : Heap.empty.Evolves limit cs h) :
    ({ start s with heap := h } : World σ).Reachable limit :=
  (leads_evolves (closed_start hs) hcs).reachable (reachable_start limit hs)

end World

namespace Act

theorem keeps_pure (hw : w.Closed) {a : α} (ha : Below w.heap.size a) :
    (pure a : Act σ α).Keeps limit w :=
  ⟨.refl hw, ha⟩

theorem keeps_throw (hw : w.Closed) {e : Fault} (he : Below w.heap.size e) :
    (throw e : Act σ α).Keeps limit w :=
  ⟨.refl hw, he⟩

/-- The rest of an action may rely on the world that its first part leads to. -/
theorem keeps_bind {x : Act σ α} {f : α → Act σ β} (hx : x.Keeps limit w)
    (hf : ∀ a v, w.Leads limit v → Below v.heap.size a → (f a).Keeps limit v) :
    (x >>= f).Keeps limit w := by
  simp only [Keeps, bind, EStateM.bind] at hx ⊢
  cases hxw : x w with
  | error e v =>
    rw [hxw] at hx
    exact hx
  | ok a v =>
    rw [hxw] at hx
    have hfa := hf a v hx.1 hx.2
    unfold Keeps at hfa
    cases hfv : f a v with
    | ok b u =>
      simp only [hfv] at hfa ⊢
      exact ⟨hx.1.trans hfa.1, hfa.2⟩
    | error e u =>
      simp only [hfv] at hfa ⊢
      exact ⟨hx.1.trans hfa.1, hfa.2⟩

/-- The next part finds another world that can come about, with the object of the first part. -/
theorem keeps_next {x : Act σ α} {f : α → Act σ β} {o : ObjectId} (hw : w.Reachable limit)
    (ho : o.index < w.heap.size) (hx : x.Keeps limit w)
    (hf : ∀ a v, v.Reachable limit → o.index < v.heap.size → w.heap.size ≤ v.heap.size →
      Below v.heap.size a → (f a).Keeps limit v) :
    (x >>= f).Keeps limit w :=
  keeps_bind hx fun a v hv ha =>
    hf a v (hv.reachable hw) (Nat.lt_of_lt_of_le ho hv.size_le) hv.size_le ha

theorem keeps_discard {x : Act σ α} (hx : x.Keeps limit w) : (discard x).Keeps limit w := by
  have hbind : (x >>= fun _ => pure ()).Keeps limit w :=
    keeps_bind hx fun _ _ hv _ => keeps_pure hv.closed below_unit
  exact hbind

/-- Reading the heap gives the heap of the moment. -/
theorem keeps_heap {f : Heap → Act σ α} (hf : (f w.heap).Keeps limit w) :
    (heap >>= f).Keeps limit w := hf

theorem keeps_object {o : ObjectId} {f : Object → Act σ α}
    (hf : (f (w.heap.object o)).Keeps limit w) : (object o >>= f).Keeps limit w := hf

theorem keeps_scope {s : ScopeId} {f : Scope → Act σ α}
    (hf : (f (w.scope s)).Keeps limit w) : (scope s >>= f).Keeps limit w := hf

theorem Keeps.leads {x : Act σ α} (hx : x.Keeps limit w) : w.Leads limit (x.after w) := by
  unfold Keeps at hx
  unfold after
  cases hxw : x w with
  | ok a v =>
    rw [hxw] at hx
    exact hx.1
  | error e v =>
    rw [hxw] at hx
    exact hx.1

end Act
end EcmaCore
