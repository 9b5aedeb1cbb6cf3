import EcmaCore.Proofs.Abort
import EcmaCore.Proofs.Readable
import EcmaCore.Proofs.Reading

/-!
# Properties of values

A property of a value is looked for on an object: an object is its own, and for a primitive a
wrapper is made and dropped afterwards. A getter or setter that is found there receives the value
itself. All ways to read a property agree on that. And since a wrapper is dropped, an assignment to
a property of a primitive comes to nothing unless it comes to a setter.
-/
namespace EcmaCore

/-- On a chain the test before an assignment goes by what the lookup finds. -/
theorem Heap.canPut_of_lookup {h : Heap} {limit : DepthLimit} {o : ObjectId} {key : String}
    {os : List ObjectId} {r : Option Property} (hos : h.Chain (some o) os)
    (hr : h.lookup limit o key = .ok r) :
    h.canPut limit o key = .ok ((h.object o).takes key r) := by
  rw [lookup_eq_within hos] at hr
  unfold DepthLimit.within at hr
  split at hr
  next hlinks =>
    cases hr
    have htest := DepthLimit.allows_mono (Nat.sub_le (h.links key os) 1) hlinks
    rw [canPut_eq_within hos, DepthLimit.within, if_pos htest]
  next => cases hr

/-- The intrinsic that wrappers of a value are linked to. -/
def Value.intrinsic? : Value → Option Intrinsic
  | boolean _ => some .booleanPrototype
  | number _ => some .numberPrototype
  | string _ => some .stringPrototype
  | _ => none

/-- The object on which the properties of a value are looked for, in the world that has it. All
that was there before is there as it was. -/
structure World.Boxes {σ : Type} (v : Value) (o : ObjectId) (w m : World σ) : Prop where
  start : Act.toObject v w = .ok o m
  own : ∀ p, v = .object p → o = p ∧ m = w
  wrapper : ∀ i, v.intrinsic? = some i → o = w.heap.fresh ∧
    (m.heap.object o).primitive? = some v ∧ (m.heap.object o).prototype = w.realm.get? i
  objects : ∀ p, p.index < w.heap.size → m.heap.object p = w.heap.object p
  realm : m.realm = w.realm
  scopes : m.scopes = w.scopes
  host : m.host = w.host

namespace World
open Act
variable {σ : Type} {v : Value} {o : ObjectId}

theorem boxes_push {w : World σ} {i : Intrinsic} (hi : v.intrinsic? = some i) (x : Object)
    (start : toObject v w = .ok w.heap.fresh { w with heap := w.heap.push x })
    (hx : x.primitive? = some v ∧ x.prototype = w.realm.get? i) :
    w.Boxes v w.heap.fresh { w with heap := w.heap.push x } where
  start := start
  own := by
    rintro p rfl
    cases hi
  wrapper := by
    intro j hj
    obtain rfl := Option.some.inj (hi.symm.trans hj)
    rw [Heap.object_push_fresh]
    exact ⟨rfl, hx⟩
  objects _ hp := Heap.object_push_of_lt x hp
  realm := rfl
  scopes := rfl
  host := rfl

theorem boxes_self (w : World σ) (o : ObjectId) : w.Boxes (.object o) o w where
  start := rfl
  own := by
    rintro p ⟨⟩
    exact ⟨rfl, rfl⟩
  wrapper := nofun
  objects _ _ := rfl
  realm := rfl
  scopes := rfl
  host := rfl

theorem exists_boxes (hv : v.isCoercible = true) (w : World σ) : ∃ o m, w.Boxes v o m := by
  cases v with
  | undefined | null => cases hv
  | boolean b => exact ⟨_, _, boxes_push rfl (.ofBoolean b _) rfl ⟨rfl, rfl⟩⟩
  | number x => exact ⟨_, _, boxes_push rfl (.ofNumber x _) rfl ⟨rfl, rfl⟩⟩
  | string t => exact ⟨_, _, boxes_push rfl (.ofText t _) rfl ⟨rfl, rfl⟩⟩
  | object o => exact ⟨o, w, w.boxes_self o⟩

/-- A wrapper is linked to an intrinsic that is there, so its chain ends. -/
theorem Boxes.exists_chain [Mentions σ] {limit : DepthLimit} {w m : World (Recorded σ)}
    (h : w.Boxes v o m) (hw : w.forget.Reachable limit) :
    ∃ chain, m.heap.Chain (some o) chain := by
  cases hv : v.isObject with
  | true =>
    obtain ⟨p, rfl⟩ := Value.isObject_iff.mp hv
    obtain ⟨rfl, rfl⟩ := h.own p rfl
    exact hw.exists_chain o
  | false =>
    have forgets := (toObject_records v).forgets w
    rw [h.start] at forgets
    have hm : m.forget.Reachable limit :=
      ((toObject_keeps hw.closed (below_of_isObject_eq_false hv)).of_ok forgets.symm).reachable hw
    exact hm.exists_chain o

end World

namespace Host
open Act
variable {σ : Type} {host : Host σ} {v : Value} {key : String} {o : ObjectId}
  {m w : World (Recorded σ)} {chain : List ObjectId}

/-- How a property of a value is read. On the chain of the value's object the nearest property
answers, and it answers to the value; every way to read does the same. -/
structure ReadsThrough (host : Host σ) (v : Value) (key : String) (w m : World (Recorded σ))
    (chain : List ObjectId) (call : Option Call) : Prop where
  answers : host.limit.allows (m.heap.links key chain) = true →
    host.Answers v m (m.heap.nearest? key chain) call (host.recording.getV v key w)
  tooDeep : host.limit.allows (m.heap.links key chain) = false → call = none ∧
    host.recording.getV v key w = .error (.typeError (.deepChain key)) m
  /-- The call of a getter, if there is one, is the only call. -/
  calls : (left (host.recording.getV v key w)).host.calls = w.host.calls ++ call.toList
  /-- The record changes nothing. -/
  same : forget (host.recording.getV v key w) = host.getV v key w.forget
  member : ∀ strict, host.recording.getValue (.reference (.ofMember v key strict)) w =
    host.recording.getV v key w
  object : ∀ p, v = .object p → host.recording.get p key w = host.recording.getV v key w

theorem getV_of_boxes (h : w.Boxes v o m) (key : String) :
    host.recording.getV v key w =
      (host.recording.getProperty o key >>= fun p => host.recording.read p v) m := by
  rw [getV, bind_of_ok h.start]

theorem getValue_ofMember (hv : v.isCoercible = true) (key : String) (strict : Bool) :
    host.recording.getValue (.reference (.ofMember v key strict)) = host.recording.getV v key := by
  cases v with
  | undefined | null => cases hv
  | _ => rfl

theorem exists_readsThrough (hv : v.isCoercible = true) (h : w.Boxes v o m)
    (hchain : m.heap.Chain (some o) chain) (key : String) :
    ∃ call, host.ReadsThrough v key w m chain call := by
  have hsame := (host.getV_records v key).forgets w
  have hmember : ∀ strict, host.recording.getValue (.reference (.ofMember v key strict)) w =
      host.recording.getV v key w := fun strict => by rw [getValue_ofMember hv]
  have hobject : ∀ p, v = .object p →
      host.recording.get p key w = host.recording.getV v key w := by
    rintro p rfl
    rfl
  have hwalk := Heap.lookup_eq_within hchain host.limit key
  unfold DepthLimit.within at hwalk
  split at hwalk
  next hlinks =>
    obtain ⟨call, answers⟩ := host.exists_answers (m.heap.nearest? key chain) v m
    have hread : host.recording.getV v key w =
        host.recording.read (m.heap.nearest? key chain) v m := by
      rw [getV_of_boxes h, getProperty_bind hwalk]
    rw [← hread] at answers
    exact ⟨call, fun _ => answers, fun hdeep => by simp [hlinks] at hdeep,
      by rw [answers.calls, h.host], hsame, hmember, hobject⟩
  next hlinks =>
    have hdeep : host.recording.getV v key w = .error (.typeError (.deepChain key)) m := by
      rw [getV_of_boxes h, getProperty_bind_error hwalk]
      rfl
    exact ⟨none, fun hallows => absurd hallows hlinks, fun _ => ⟨rfl, hdeep⟩,
      by simp [hdeep, left, h.host], hsame, hmember, hobject⟩

end Host

/-- In every world that can come about and for every value that is not undefined or null: a read is
answered by the nearest property on the chain of the value's object, and a getter is called with the
value itself, once; where the chain is too deep for the limit the read fails. Whatever callables do,
all ways to read agree. -/
theorem reads_answer_to_receiver {σ : Type} [Mentions σ] {limit : DepthLimit} {v : Value}
    (hv : v.isCoercible = true) {w : World (Recorded σ)} (hw : w.forget.Reachable limit)
    (host : Host σ) (key : String) :
    ∃ o m chain call, w.Boxes v o m ∧ m.heap.Chain (some o) chain ∧
      host.ReadsThrough v key w m chain call := by
  obtain ⟨o, m, boxes⟩ := World.exists_boxes hv w
  obtain ⟨chain, hchain⟩ := boxes.exists_chain hw
  obtain ⟨call, reads⟩ := Host.exists_readsThrough hv boxes hchain key
  exact ⟨o, m, chain, call, boxes, hchain, reads⟩

/-- An object with an accessor and a value, and a callable. -/
def sharedHeap : Heap :=
  let h := (Heap.empty.push (.ordinary none)).push (.ofCallable ⟨"f", 0⟩ none)
  let h := h.apply .default (.define ⟨0⟩ "x" (.accessor (some ⟨1⟩) (some ⟨1⟩) true true))
  h.apply .default (.define ⟨0⟩ "y" (.data .null true true true))

/-- The world in which booleans inherit from that object. -/
def sharedWorld : World (Recorded Unit) :=
  { World.start ⟨(), []⟩ with heap := sharedHeap, realm := { booleanPrototype := some ⟨0⟩ } }

/-- An engine whose callables give their receiver back. -/
def Host.echo : Host Unit := ⟨.default, fun _ this _ => return this⟩

theorem reachable_sharedWorld : sharedWorld.forget.Reachable .default := by
  have callable {n : Nat} (hn : 1 < n) : Below n (some (Value.object ⟨1⟩)) :=
    below_some.mpr (below_object.mpr hn)
  have evolves : Heap.empty.Evolves .default _ _ :=
    (((Heap.Evolves.start.change (.create .ordinary none) below_none).change
      (.create (.function ⟨"f", 0⟩) none) below_none).change
      (.define ⟨0⟩ "x" (.accessor (some ⟨1⟩) (some ⟨1⟩) true true))
      (below_change_define.mpr ⟨by decide, below_descriptor.mpr
        ⟨below_none, callable (by decide), callable (by decide)⟩⟩)).change
      (.define ⟨0⟩ "y" (.data .null true true true))
      (below_change_define.mpr ⟨by decide, below_descriptor.mpr
        ⟨below_some.mpr (below_of_isObject_eq_false rfl), below_none, below_none⟩⟩)
  have bare : ({ World.start () with heap := sharedHeap } : World Unit).Reachable .default :=
    World.reachable_of_evolves below_unit evolves
  exact (Act.setIntrinsic_keeps bare.closed .booleanPrototype (p := some ⟨0⟩)
    (below_some.mpr (below_objectId.mpr (by decide)))).leads.reachable bare

/-- The same world with a wrapper of a boolean. -/
def boxedWorld : World (Recorded Unit) :=
  { sharedWorld with heap := sharedHeap.push (.ofBoolean true (some ⟨0⟩)) }

theorem boxes_sharedWorld : Act.toObject (.boolean true) sharedWorld = .ok ⟨2⟩ boxedWorld := rfl

theorem chain_boxedWorld : boxedWorld.heap.Chain (some ⟨2⟩) [⟨2⟩, ⟨0⟩] := .cons (.cons .nil)

/-- A boolean inherits a getter, which is called with the boolean. -/
theorem reads_answer_to_receiver_inherited :
    Host.echo.ReadsThrough (.boolean true) "x" sharedWorld boxedWorld [⟨2⟩, ⟨0⟩]
      (some (Host.echo.entry ⟨"f", 0⟩ (.boolean true) [] boxedWorld)) := by
  obtain ⟨o, m, chain, call, boxes, hchain, reads⟩ :=
    reads_answer_to_receiver (v := .boolean true) rfl reachable_sharedWorld Host.echo "x"
  cases boxes_sharedWorld.symm.trans boxes.start
  obtain rfl := chain_boxedWorld.unique hchain
  have found : boxedWorld.heap.nearest? "x" [⟨2⟩, ⟨0⟩] =
      some ⟨.accessor (some ⟨1⟩) (some ⟨1⟩), true, true⟩ := by decide +kernel
  have answers := reads.answers (by decide +kernel)
  rw [found] at answers
  have called : call = some (Host.echo.entry ⟨"f", 0⟩ (.boolean true) [] boxedWorld) := by
    generalize Host.echo.recording.getV (.boolean true) "x" sharedWorld = r at answers
    cases answers with
    | uncallable refused => cases refused
    | called callable =>
      cases callable
      rfl
  rwa [called] at reads

/-- The setter of a property that has one. -/
def Property.setter? (p : Property) : Option ObjectId :=
  match p.slot with
  | .accessor _ setter => setter
  | .data .. => none

namespace Host
open Act
variable {σ : Type} {host : Host σ} {base v : Value} {key : String} {strict : Bool} {o : ObjectId}
  {chain : List ObjectId} {found : Option Property}

theorem discard_callObject {w : World σ} {setter : ObjectId} {f : Callable}
    (hf : (w.heap.object setter).callable? = some f) (receiver v : Value) :
    discard (host.callObject setter receiver [v]) w = discard (host.invoke f receiver [v]) w := by
  have hbind : ∀ x : Act σ Value, discard x w = (x >>= fun _ => pure ()) w := fun _ => rfl
  simp only [hbind, bind, EStateM.bind, host.callObject_of_callable hf]

/-- The course of an assignment that finds a setter leads to it. -/
theorem assign_of_found_setter {w : World σ} {receiver : Value} {own new refuse : Act σ Unit}
    {setter : ObjectId} {f : Callable} (hchain : w.heap.Chain (some o) chain)
    (hr : w.heap.lookup host.limit o key = .ok found)
    (hs : found.bind Property.setter? = some setter)
    (hf : (w.heap.object setter).callable? = some f) :
    host.assign o key receiver v own new refuse w =
      discard (host.invoke f receiver [v]) w := by
  rw [← discard_callObject hf]
  rcases found with _ | ⟨_ | ⟨getter, _⟩, e, c⟩
  · cases hs
  · cases hs
  · cases hs
    have hno : ∀ u b e c, (w.heap.object o).ownProperty? key ≠ some ⟨.data u b, e, c⟩ := by
      intro u b e' c' hp
      cases hr.symm.trans (Heap.lookup_of_own hp)
    exact assign_of_setter (Heap.canPut_of_lookup hchain hr) hno hr

/-- Where no setter is found and nothing else is to be done, the assignment does just that. -/
theorem assign_of_no_setter {w : World σ} {receiver : Value} {refuse : Act σ Unit}
    (hchain : w.heap.Chain (some o) chain) (hr : w.heap.lookup host.limit o key = .ok found)
    (hs : found.bind Property.setter? = none) :
    host.assign o key receiver v refuse refuse refuse w = refuse w := by
  cases host.course o key w with
  | fault e walk result =>
    rcases walk with hc | hl
    · cases (Heap.canPut_of_lookup hchain hr).symm.trans hc
    · cases hr.symm.trans hl
  | called getter setter e c hl result =>
    cases hr.symm.trans hl
    cases hs
  | refused result | own _ _ _ _ result | new _ _ result => rw [result]

theorem putValue_ofMember (hb : base.isBoxable = true) (global : Option ObjectId) :
    host.putValue (.reference (.ofMember base key strict)) v global =
      host.putOnPrimitive base key v strict := by
  cases base with
  | undefined | null | object => cases hb
  | _ => rfl

/-- What becomes of an assignment to a property of a primitive, by the property that a lookup on the
wrapper has found. -/
structure PassesOn (host : Host σ) (base : Value) (key : String) (v : Value) (strict : Bool)
    (w m : World (Recorded σ)) (found : Option Property)
    (r : EStateM.Result Fault (World (Recorded σ)) Unit) : Prop where
  calls_iff : (left r).host.calls ≠ w.host.calls ↔
    ∃ setter, found.bind Property.setter? = some setter
  /-- A setter is called once, with the primitive and the value, and the result is that of the call
  but for what the setter returns. -/
  called : ∀ setter, found.bind Property.setter? = some setter →
    ∃ f, (m.heap.object setter).callable? = some f ∧
      r = discard (host.recording.invoke f base [v]) m ∧
      (left r).host.calls = w.host.calls ++ [host.entry f base [v] m]
  /-- Otherwise nothing is done beside making the wrapper. -/
  dropped : found.bind Property.setter? = none →
    r = if strict then .error (.typeError (.primitiveProperty key)) m else .ok () m

theorem left_discard {α : Type} (x : Act σ α) (w : World σ) : left (discard x w) = left (x w) := by
  rw [← after_eq_left, after_discard, after_eq_left]

variable {m w : World (Recorded σ)}

theorem putValue_of_boxes (hb : base.isBoxable = true) (boxes : w.Boxes base o m)
    (global : Option ObjectId) :
    host.recording.putValue (.reference (.ofMember base key strict)) v global w =
      host.recording.assign o key base v (refusePrimitivePut key strict)
        (refusePrimitivePut key strict) (refusePrimitivePut key strict) m := by
  rw [putValue_ofMember hb, putOnPrimitive_eq_assign, bind_of_ok boxes.start]

/-- With a setter that can be called, the assignment is the call. -/
theorem passesOn_of_setter {setter : ObjectId} {f : Callable}
    {r : EStateM.Result Fault (World (Recorded σ)) Unit} (boxes : w.Boxes base o m)
    (hs : found.bind Property.setter? = some setter)
    (hf : (m.heap.object setter).callable? = some f)
    (result : r = discard (host.recording.invoke f base [v]) m) :
    host.PassesOn base key v strict w m found r := by
  have hcalls : (left r).host.calls = w.host.calls ++ [host.entry f base [v] m] := by
    rw [result, left_discard, calls_of_invoke rfl, boxes.host]
  refine ⟨iff_of_true (by simp [hcalls]) ⟨setter, hs⟩, ?_, fun hnone => ?_⟩
  · intro setter' hs'
    obtain rfl := Option.some.inj (hs.symm.trans hs')
    exact ⟨f, hf, result, hcalls⟩
  · cases hs.symm.trans hnone

theorem passesOn_of_no_setter {r : EStateM.Result Fault (World (Recorded σ)) Unit}
    (boxes : w.Boxes base o m) (hs : found.bind Property.setter? = none)
    (result : r = refusePrimitivePut key strict m) :
    host.PassesOn base key v strict w m found r := by
  have hresult : r =
      if strict then .error (.typeError (.primitiveProperty key)) m else .ok () m := by
    rw [result]
    cases strict <;> rfl
  have hleft : left r = m := by
    rw [hresult]
    cases strict <;> rfl
  refine ⟨iff_of_false (by simp [hleft, boxes.host]) (by simp [hs]), ?_, fun _ => hresult⟩
  intro setter hs'
  cases hs.symm.trans hs'

end Host

/-- In every world that can come about, where the lookup on the wrapper of a primitive has its
answer and what is to be called can be called: an assignment to a property of the primitive is the
call of the setter that the nearest property has, if it has one, and otherwise it changes nothing
that was there and is a fault in strict code. -/
theorem assignment_to_primitive_passes_on {σ : Type} [Mentions σ] {limit : DepthLimit}
    {base : Value} (hb : base.isBoxable = true) {w : World (Recorded σ)}
    (hw : w.forget.Reachable limit) (host : Host σ) (key : String) :
    ∃ o m chain, w.Boxes base o m ∧ m.heap.Chain (some o) chain ∧
      ∀ found, host.recording.getProperty o key m = .ok found m →
        (∀ setter, found.bind Property.setter? = some setter →
          (m.heap.object setter).isCallable = true) →
        found = m.heap.nearest? key chain ∧
        ∀ v strict global, host.PassesOn base key v strict w m found
          (host.recording.putValue (.reference (.ofMember base key strict)) v global w) := by
  obtain ⟨o, m, boxes⟩ := World.exists_boxes (Value.coercible_of_boxable hb).2 w
  obtain ⟨chain, hchain⟩ := boxes.exists_chain hw
  refine ⟨o, m, chain, boxes, hchain, ?_⟩
  intro found hfound callable
  have hr := Host.lookup_of_ok hfound
  refine ⟨?nearest, ?passes⟩
  case nearest =>
    rw [host.recording.getProperty_of_chain hchain] at hfound
    split at hfound
    · cases hfound
      rfl
    · cases hfound
  case passes =>
    intro v strict global
    rw [Host.putValue_of_boxes hb boxes]
    cases hs : found.bind Property.setter? with
    | none => exact Host.passesOn_of_no_setter boxes hs (Host.assign_of_no_setter hchain hr hs)
    | some setter =>
      obtain ⟨f, hf⟩ := Option.isSome_iff_exists.mp (callable setter hs)
      exact Host.passesOn_of_setter boxes hs hf (Host.assign_of_found_setter hchain hr hs hf)

/-- A boolean inherits a setter, which is called with the boolean, and a value that could be written
on the object that has it. -/
theorem assignment_to_primitive_passes_on_inherited :
    let assign (key : String) := Host.echo.recording.putValue
      (.reference (.ofMember (.boolean true) key true)) .null none sharedWorld
    assign "x" =
        discard (Host.echo.recording.invoke ⟨"f", 0⟩ (.boolean true) [.null]) boxedWorld ∧
      assign "y" = .error (.typeError (.primitiveProperty "y")) boxedWorld := by
  intro assign
  have passes : ∀ key found, boxedWorld.heap.nearest? key [⟨2⟩, ⟨0⟩] = found →
      boxedWorld.heap.links key [⟨2⟩, ⟨0⟩] = 1 →
      (∀ setter, found.bind Property.setter? = some setter → setter = ⟨1⟩) →
      Host.echo.PassesOn (.boolean true) key .null true sharedWorld boxedWorld found
        (assign key) := by
    intro key found hnearest hlinks hsetter
    have boxable : (Value.boolean true).isBoxable = true := rfl
    obtain ⟨o, m, chain, boxes, hchain, passes⟩ :=
      assignment_to_primitive_passes_on boxable reachable_sharedWorld Host.echo key
    cases boxes_sharedWorld.symm.trans boxes.start
    have hfound : Host.echo.recording.getProperty ⟨2⟩ key boxedWorld = .ok found boxedWorld := by
      rw [Host.getProperty_of_chain _ chain_boxedWorld, hlinks, hnearest]
      rfl
    refine (passes found hfound ?_).2 .null true none
    intro setter hs
    rw [hsetter setter hs]
    rfl
  constructor
  · obtain ⟨f, hf, result, -⟩ := (passes "x" (some ⟨.accessor (some ⟨1⟩) (some ⟨1⟩), true, true⟩)
      (by decide +kernel) (by decide +kernel) (by rintro _ ⟨⟩; rfl)).called ⟨1⟩ rfl
    cases hf
    exact result
  · exact (passes "y" (some ⟨.data .null true, true, true⟩) (by decide +kernel) (by decide +kernel)
      nofun).dropped rfl

end EcmaCore
