import EcmaCore.Proofs.Definition
import EcmaCore.Proofs.Keys
import EcmaCore.Proofs.Permission
import EcmaCore.Proofs.Recording

/-!
# An assignment writes one place

An assignment that is allowed goes to one place. An own value is replaced where it stands; a setter,
own or inherited, is called once and the assignment does nothing beside; anything else becomes a new
property at the end, also in front of a value that a prototype holds. Nothing but that one place is
changed.
-/
namespace EcmaCore

namespace Act
variable {σ α : Type} {w : World σ}

theorem outcome_discard (x : Act σ α) (w : World σ) :
    (discard x).outcome w = (x.outcome w).map fun _ => () := by
  have hbind : discard x w = (x >>= fun _ => pure ()) w := rfl
  simp only [outcome, hbind, bind, EStateM.bind]
  cases x w <;> rfl

theorem after_discard (x : Act σ α) (w : World σ) : (discard x).after w = x.after w := by
  have hbind : discard x w = (x >>= fun _ => pure ()) w := rfl
  simp only [after, hbind, bind, EStateM.bind]
  cases x w <;> rfl

end Act

namespace Host
open Act
variable {σ : Type} {host : Host σ} {o : ObjectId} {key : String} {v : Value} {strict : Bool}

/-- A call is the one call in its record, with its own result and the heap it left. -/
theorem callObject_calls {f : ObjectId} {this : Value} {args : List Value}
    {w : World (Recorded σ)} {c : Callable} (hc : (w.heap.object f).callable? = some c) :
    ((host.recording.callObject f this args).after w).host.calls = w.host.calls ++
      [⟨c, this, args, (host.recording.callObject f this args).outcome w,
        ((host.recording.callObject f this args).after w).heap⟩] := by
  simp only [after, outcome, host.recording.callObject_of_callable hc]
  simp only [recording]
  cases host.invoke c this args w.forget <;> rfl

/-- An assignment that leaves its value as an own property, with the given list of keys, and has no
other effect: the engine stays as it is, and so does a record of its calls, and no other property
and no other object changes. -/
structure Stores (host : Host σ) (o : ObjectId) (key : String) (v : Value) (strict : Bool)
    (w u : World σ) (p : Property) (keys : List String) : Prop where
  done : host.put o key v strict w = .ok () u
  own : (u.heap.object o).ownProperty? key = some p
  keys : (u.heap.object o).ownKeys = keys
  read : host.get o key u = .ok v u
  rest : w.SameBut o key u

theorem stores_of_put {w : World σ} {e c : Bool} (ho : o.index < w.heap.size)
    (done : host.put o key v strict w = .ok () { w with
      heap := w.heap.replace o ((w.heap.object o).store key ⟨.data v true, e, c⟩) }) :
    ∃ u, host.Stores o key v strict w u ⟨.data v true, e, c⟩
      ((w.heap.object o).store key ⟨.data v true, e, c⟩).ownKeys := by
  let y := (w.heap.object o).store key ⟨.data v true, e, c⟩
  have hy : (w.heap.replace o y).object o = y := Heap.object_replace_same y ho
  have hown : ((w.heap.replace o y).object o).ownProperty? key = some ⟨.data v true, e, c⟩ := by
    rw [hy]
    exact Object.ownProperty?_store_same _ _ _
  exact ⟨_, done, hown, by rw [hy], get_of_own hown,
    World.sameBut_replace ho (Object.sameBut_store _ _ _)⟩

/-- An assignment that is just one call of a setter, with the object and the value. -/
structure HandsTo (host : Host σ) (setter o : ObjectId) (key : String) (v : Value) (strict : Bool)
    (w : World (Recorded σ)) : Prop where
  same : host.recording.put o key v strict w =
    discard (host.recording.callObject setter (.object o) [v]) w
  /-- It makes one call, succeeds just if the call does, and leaves the heap that the call left. -/
  called : ∀ f, (w.heap.object setter).callable? = some f → ∃ result,
    (host.recording.put o key v strict).outcome w = result.map (fun _ => ()) ∧
    ((host.recording.put o key v strict).after w).host.calls = w.host.calls ++
      [⟨f, .object o, [v], result, ((host.recording.put o key v strict).after w).heap⟩]
  uncallable : (w.heap.object setter).callable? = none →
    host.recording.put o key v strict w = .error (.typeError (.notCallable (.object setter))) w

theorem handsTo_of_put {setter : ObjectId} {w : World (Recorded σ)}
    (same : host.recording.put o key v strict w =
      discard (host.recording.callObject setter (.object o) [v]) w) :
    host.HandsTo setter o key v strict w := by
  refine ⟨same, ?called, ?uncallable⟩
  case called =>
    intro f hf
    have houtcome : (host.recording.put o key v strict).outcome w =
        (discard (host.recording.callObject setter (.object o) [v])).outcome w := by
      rw [outcome, same, outcome]
    have hafter : (host.recording.put o key v strict).after w =
        (discard (host.recording.callObject setter (.object o) [v])).after w := by
      rw [after, same, after]
    rw [outcome_discard] at houtcome
    rw [after_discard] at hafter
    rw [hafter]
    exact ⟨_, houtcome, callObject_calls hf⟩
  case uncallable =>
    intro hnone
    rw [same]
    exact discard_eq_error_iff.mpr (host.recording.callObject_of_uncallable hnone (.object o) [v])

/-- Where an assignment goes, by the own property and by the property that a lookup found. -/
structure Writes (host : Host σ) (o : ObjectId) (key : String) (v : Value) (strict : Bool)
    (w : World (Recorded σ)) (found : Option Property) : Prop where
  /-- An own value is replaced, under the same flags and in the same place. -/
  value : ∀ old b e c, (w.heap.object o).ownProperty? key = some ⟨.data old b, e, c⟩ →
    ∃ u, host.recording.Stores o key v strict w u ⟨.data v b, e, c⟩ (w.heap.object o).ownKeys
  setter : ∀ getter setter e c, found = some ⟨.accessor getter setter, e, c⟩ →
    ∃ f, setter = some f ∧ host.HandsTo f o key v strict w
  /-- In any other case nothing is there, and a new property is made at the end. -/
  new : (∀ old b e c, (w.heap.object o).ownProperty? key ≠ some ⟨.data old b, e, c⟩) →
    (∀ getter setter e c, found ≠ some ⟨.accessor getter setter, e, c⟩) →
    (w.heap.object o).ownProperty? key = none ∧
      ∃ u, host.recording.Stores o key v strict w u (.data v true true true)
        ((w.heap.object o).ownKeys ++ [key])

end Host

variable {σ : Type} {host : Host σ} {w : World (Recorded σ)} {o : ObjectId} {key : String}
  {found : Option Property}

/-- An assignment that the test allows, to a property that a lookup can look for, writes one place
or calls one setter. -/
theorem put_writes_one_place (ho : o.index < w.heap.size)
    (hfound : host.recording.getProperty o key w = .ok found w)
    (allowed : host.recording.canPut o key w = .ok true w) (v : Value) (strict : Bool) :
    host.Writes o key v strict w found := by
  have hc := Host.canPut_of_ok allowed
  have hr := Host.lookup_of_ok hfound
  cases Heap.assignable_of_canPut hc hr with
  | own u e c hp =>
    cases hr.symm.trans (Heap.lookup_of_own hp)
    have done : host.recording.put o key v strict w = _ := Host.put_own hc hp
    obtain ⟨u', stores⟩ := Host.stores_of_put ho done
    rw [Object.ownKeys_store_of_own _ hp] at stores
    refine ⟨?_, nofun, fun hno => absurd hp (hno u true e c)⟩
    intro old b e' c' hold
    cases hp.symm.trans hold
    exact ⟨u', stores⟩
  | setter getter setter e c hno hsome =>
    subst hsome
    have same : host.recording.put o key v strict w = _ := Host.put_setter hc hno hr
    refine ⟨fun old b e c hold => absurd hold (hno old b e c), ?_,
      fun _ hnone => absurd rfl (hnone getter (some setter) e c)⟩
    rintro _ _ _ _ ⟨⟩
    exact ⟨setter, rfl, Host.handsTo_of_put same⟩
  | new ha he hdata =>
    have done : host.recording.put o key v strict w = _ := Host.put_new hc ha he hr hdata
    obtain ⟨u, stores⟩ := Host.stores_of_put ho done
    rw [Object.ownKeys_store_of_absent _ ha] at stores
    refine ⟨?replaced, ?called, fun _ _ => ⟨ha, u, stores⟩⟩
    case replaced =>
      intro old b e c hold
      cases ha.symm.trans hold
    case called =>
      intro getter setter e c hsome
      cases hdata _ hsome

/-- An assignment in front of an inherited value. -/
theorem put_writes_one_place_inherited :
    let w : World (Recorded Unit) := { World.start ⟨(), []⟩ with heap := lineHeap }
    let host : Host Unit := .idle
    ∃ u, host.recording.Stores ⟨2⟩ "x" (.boolean true) false w u
      (.data (.boolean true) true true true) ["x"] := by
  intro w host
  have line : w.heap.Chain (some ⟨2⟩) [⟨2⟩, ⟨1⟩, ⟨0⟩] := .cons (.cons (.cons .nil))
  have hfound : host.recording.getProperty ⟨2⟩ "x" w =
      .ok (some (.data .null true true true)) w := by
    rw [host.recording.getProperty_of_chain line]
    rfl
  have hallowed : host.recording.canPut ⟨2⟩ "x" w = .ok true w := by
    rw [host.recording.canPut_of_chain line]
    rfl
  have writes := put_writes_one_place (by decide) hfound hallowed (.boolean true) false
  exact (writes.new (fun _ _ _ _ => nofun) (fun _ _ _ _ => nofun)).2

end EcmaCore
