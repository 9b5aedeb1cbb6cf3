import EcmaCore.Proofs.Assignment
import EcmaCore.Proofs.Recording
import EcmaCore.Proofs.Run

/-!
# Faults of callables

An operation passes the fault of a callable on as it is. The call that failed is the last one it
makes, and the heap which that call left is the heap which the operation leaves. No operation looks
at a fault, so this follows, one function after the other, from what follows of calls in sequence.
-/
namespace EcmaCore

namespace Act
variable {σ α : Type}

theorem heap_records : Records (σ := σ) heap heap := records_of_quiet (fun _ => rfl) fun _ => rfl

theorem object_records (o : ObjectId) : Records (σ := σ) (object o) (object o) :=
  records_of_quiet (fun _ => rfl) fun _ => rfl

theorem scope_records (s : ScopeId) : Records (σ := σ) (scope s) (scope s) :=
  records_of_quiet (fun _ => rfl) fun _ => rfl

theorem setHeap_records (h : Heap) : Records (σ := σ) (setHeap h) (setHeap h) :=
  records_of_quiet (fun _ => rfl) fun _ => rfl

theorem create_records (x : Object) : Records (σ := σ) (create x) (create x) :=
  records_of_quiet (fun _ => rfl) fun _ => rfl

theorem intrinsic_records (i : Intrinsic) : Records (σ := σ) (intrinsic? i) (intrinsic? i) :=
  records_of_quiet (fun _ => rfl) fun _ => rfl

theorem setIntrinsic_records (i : Intrinsic) (o : Option ObjectId) :
    Records (σ := σ) (setIntrinsic i o) (setIntrinsic i o) :=
  records_of_quiet (fun _ => rfl) fun _ => rfl

theorem createScope_records (s : Scope) : Records (σ := σ) (createScope s) (createScope s) :=
  records_of_quiet (fun _ => rfl) fun _ => rfl

theorem setScope_records (i : ScopeId) (s : Scope) :
    Records (σ := σ) (setScope i s) (setScope i s) :=
  records_of_quiet (fun _ => rfl) fun _ => rfl

theorem preventExtensions_records (o : ObjectId) :
    Records (σ := σ) (preventExtensions o) (preventExtensions o) :=
  records_of_quiet (fun _ => rfl) fun _ => rfl

theorem ofChain_records (key : String) (r : Except ChainFault α) :
    Records (σ := σ) (ofChain key r) (ofChain key r) := by
  cases r with
  | ok a => exact records_pure a
  | error e => exact records_throw _

theorem ofExcept_records (r : Except Fault α) :
    Records (σ := σ) (ofExcept r : Act _ α) (ofExcept r) := by
  cases r with
  | ok a => exact records_pure a
  | error e => exact records_throw e

/-- A refusal that strict code is told by a fault. -/
theorem refusal_records (cause : TypeErrorCause) (a : α) (strict : Bool) :
    Records (σ := σ) (if strict then throw (.typeError cause) else return a)
      (if strict then throw (.typeError cause) else return a) := by
  cases strict with
  | true => exact records_throw _
  | false => exact records_pure a

theorem define_records (o : ObjectId) (key : String) (d : Descriptor) (strict : Bool) :
    Records (σ := σ) (define o key d strict) (define o key d strict) := by
  apply records_bind heap_records
  intro h
  rcases h.define o key d with (_ | reason) | k
  · exact records_throw _
  · exact refusal_records _ false strict
  · exact records_bind (setHeap_records k) fun _ => records_pure true

theorem delete_records (o : ObjectId) (key : String) (strict : Bool) :
    Records (σ := σ) (delete o key strict) (delete o key strict) := by
  apply records_bind heap_records
  intro h
  cases h.delete? o key with
  | some k => exact records_bind (setHeap_records k) fun _ => records_pure true
  | none => exact refusal_records _ false strict

theorem wrapper_records (kind : ObjectKind) (i : Intrinsic) :
    Records (σ := σ) (intrinsic? i >>= fun p => create (.ofKind kind p))
      (intrinsic? i >>= fun p => create (.ofKind kind p)) :=
  records_bind (intrinsic_records i) fun _ => create_records _

theorem toObject_records (v : Value) : Records (σ := σ) (toObject v) (toObject v) := by
  cases v with
  | undefined | null => exact records_throw _
  | boolean b => exact wrapper_records (.boolean b) .booleanPrototype
  | number x => exact wrapper_records (.number x) .numberPrototype
  | string t => exact wrapper_records (.string t) .stringPrototype
  | object o => exact records_pure o

theorem checkCoercible_records (v : Value) :
    Records (σ := σ) (checkCoercible v) (checkCoercible v) := by
  unfold checkCoercible
  cases v.isCoercible with
  | true => exact records_pure ()
  | false => exact records_throw _

theorem describe_records (p : Option Property) :
    Records (σ := σ) (describe p) (describe p) := by
  cases p with
  | none => exact records_pure _
  | some p =>
    apply records_bind (intrinsic_records _)
    intro prototype
    exact records_bind (create_records _) fun _ => records_pure _

end Act

namespace Host
open Act
variable {σ : Type} (host : Host σ)

theorem setPrototype_records (o : ObjectId) (prototype : Option ObjectId) :
    Records (host.recording.setPrototype o prototype) (host.setPrototype o prototype) := by
  apply records_bind heap_records
  intro h
  have hlimit : host.recording.limit = host.limit := rfl
  rw [hlimit]
  cases h.setPrototype? host.limit o prototype with
  | some k => exact records_bind (setHeap_records k) fun _ => records_pure true
  | none => exact records_pure false

theorem getProperty_records (o : ObjectId) (key : String) :
    Records (host.recording.getProperty o key) (host.getProperty o key) :=
  records_bind heap_records fun _ => ofChain_records key _

theorem hasProperty_records (o : ObjectId) (key : String) :
    Records (host.recording.hasProperty o key) (host.hasProperty o key) :=
  records_bind (host.getProperty_records o key) fun _ => records_pure _

theorem canPut_records (o : ObjectId) (key : String) :
    Records (host.recording.canPut o key) (host.canPut o key) :=
  records_bind heap_records fun _ => ofChain_records key _

theorem callObject_records (f : ObjectId) (this : Value) (args : List Value) :
    Records (host.recording.callObject f this args) (host.callObject f this args) := by
  apply records_bind (object_records f)
  intro x
  cases x.callable? with
  | none => exact records_throw _
  | some c => exact host.invoke_records c this args

theorem call_records (f this : Value) (args : List Value) :
    Records (host.recording.call f this args) (host.call f this args) := by
  cases f with
  | object o => exact host.callObject_records o this args
  | _ => exact records_throw _

theorem read_records (p : Option Property) (receiver : Value) :
    Records (host.recording.read p receiver) (host.read p receiver) := by
  rcases p with _ | ⟨_ | ⟨_ | getter, _⟩, _, _⟩
  · exact records_pure _
  · exact records_pure _
  · exact records_pure _
  · exact host.callObject_records getter receiver []

theorem get_records (o : ObjectId) (key : String) :
    Records (host.recording.get o key) (host.get o key) :=
  records_bind (host.getProperty_records o key) fun p => host.read_records p _

theorem getV_records (v : Value) (key : String) :
    Records (host.recording.getV v key) (host.getV v key) := by
  apply records_bind (toObject_records v)
  intro o
  exact records_bind (host.getProperty_records o key) fun p => host.read_records p v

theorem getMethod_records (v : Value) (key : String) :
    Records (host.recording.getMethod v key) (host.getMethod v key) := by
  apply records_bind (host.getV_records v key)
  intro f
  cases f.isUndefined || f.isNull with
  | true => exact records_pure _
  | false =>
    apply records_bind heap_records
    intro h
    cases h.isCallable f with
    | true => exact records_pure f
    | false => exact records_throw _

theorem write_records (setter : Option ObjectId) (receiver v : Value) :
    Records (host.recording.write setter receiver v) (host.write setter receiver v) := by
  cases setter with
  | none => exact records_pure ()
  | some s => exact records_discard (host.callObject_records s receiver [v])

theorem assign_records (o : ObjectId) (key : String) (receiver v : Value)
    {own new refuse : Act (Recorded σ) Unit} {own' new' refuse' : Act σ Unit}
    (hown : Records own own') (hnew : Records new new') (hrefuse : Records refuse refuse') :
    Records (host.recording.assign o key receiver v own new refuse)
      (host.assign o key receiver v own' new' refuse') := by
  apply records_bind (host.canPut_records o key)
  rintro (_ | _)
  · exact hrefuse
  · apply records_bind (object_records o)
    intro x
    rcases x.ownProperty? key with _ | ⟨_ | _, _, _⟩
    case some.data => exact hown
    -- without an own value the lookup decides
    all_goals
      apply records_bind (host.getProperty_records o key)
      rintro (_ | ⟨_ | ⟨_, setter⟩, _, _⟩)
      · exact hnew
      · exact hnew
      · exact host.write_records setter receiver v

theorem put_records (o : ObjectId) (key : String) (v : Value) (strict : Bool) :
    Records (host.recording.put o key v strict) (host.put o key v strict) :=
  host.assign_records o key (.object o) v (records_discard (define_records o key _ strict))
    (records_discard (define_records o key _ strict)) (refusal_records _ () strict)

/-- By induction on the methods: another one is tried only after a call that did not fail. -/
theorem tryMethods_records (o : ObjectId) (keys : List String) :
    Records (host.recording.tryMethods o keys) (host.tryMethods o keys) := by
  induction keys with
  | nil => exact records_throw _
  | cons key rest ih =>
    apply records_bind (host.get_records o key)
    intro f
    apply records_bind heap_records
    intro h
    cases h.isCallable f with
    | false => exact ih
    | true =>
      apply records_bind (host.call_records f _ [])
      intro result
      cases result.isObject with
      | true => exact ih
      | false => exact records_pure result

theorem defaultValue_records (o : ObjectId) (hint : Hint) :
    Records (host.recording.defaultValue o hint) (host.defaultValue o hint) :=
  host.tryMethods_records o hint.methods

theorem toPrimitive_records (v : Value) (hint : Hint) :
    Records (host.recording.toPrimitive v hint) (host.toPrimitive v hint) := by
  cases v with
  | object o => exact host.defaultValue_records o hint
  | _ => exact records_pure _

theorem toNumber_records (v : Value) :
    Records (host.recording.toNumber v) (host.toNumber v) :=
  records_bind (host.toPrimitive_records v .number) fun _ => records_pure _

theorem looseEquals_records (x y : Value) :
    Records (host.recording.looseEquals x y) (host.looseEquals x y) := by
  have hconvert : ∀ (p : ObjectId) (f : Value → Bool) (v : Value),
      Records (if v.isBoxable then do return f (← host.recording.defaultValue p .default)
          else return false)
        (if v.isBoxable then do return f (← host.defaultValue p .default) else return false) := by
    intro p f v
    cases v.isBoxable with
    | true => exact records_bind (host.defaultValue_records p .default) fun _ => records_pure _
    | false => exact records_pure false
  cases hx : x.isObject with
  | true =>
    obtain ⟨o, rfl⟩ := Value.isObject_iff.mp hx
    cases hy : y.isObject with
    | true =>
      obtain ⟨p, rfl⟩ := Value.isObject_iff.mp hy
      exact records_pure _
    | false =>
      rw [looseEquals_object_left _ o hy, looseEquals_object_left _ o hy]
      exact hconvert o _ y
  | false =>
    cases hy : y.isObject with
    | true =>
      obtain ⟨p, rfl⟩ := Value.isObject_iff.mp hy
      rw [looseEquals_object_right _ p hx, looseEquals_object_right _ p hx]
      exact hconvert p _ x
    | false =>
      rw [looseEquals_plain _ hx hy, looseEquals_plain _ hx hy]
      exact records_pure _

theorem readField_records (o : ObjectId) (key : String) :
    Records (host.recording.readField o key) (host.readField o key) := by
  apply records_bind (object_records o)
  intro x
  cases x.hasOwn key with
  | true => exact records_bind (host.get_records o key) fun _ => records_pure _
  | false => exact records_pure none

theorem readFlag_records (o : ObjectId) (key : String) :
    Records (host.recording.readFlag o key) (host.readFlag o key) :=
  records_bind (host.readField_records o key) fun _ => records_pure _

theorem readFunction_records (o : ObjectId) (key : String) (cause : Value → TypeErrorCause) :
    Records (host.recording.readFunction o key cause) (host.readFunction o key cause) := by
  apply records_bind (host.readField_records o key)
  intro field
  cases field with
  | none => exact records_pure none
  | some f =>
    apply records_bind heap_records
    intro h
    cases f.isUndefined || h.isCallable f with
    | true => exact records_pure _
    | false => exact records_throw _

theorem toDescriptor_records (v : Value) :
    Records (host.recording.toDescriptor v) (host.toDescriptor v) := by
  cases v with
  | object o =>
    apply records_bind (host.readFlag_records o _)
    intro enumerable
    apply records_bind (host.readFlag_records o _)
    intro configurable
    apply records_bind (host.readField_records o _)
    intro value
    apply records_bind (host.readFlag_records o _)
    intro writable
    apply records_bind (host.readFunction_records o _ _)
    intro getter
    apply records_bind (host.readFunction_records o _ _)
    intro setter
    dsimp only
    cases Descriptor.isMixed ⟨value, writable, getter, setter, enumerable, configurable⟩ with
    | true => exact records_throw _
    | false => exact records_pure _
  | _ => exact records_throw _

theorem getValue_records (r : Resolution) :
    Records (host.recording.getValue r) (host.getValue r) := by
  rcases r with ⟨base, name, strict⟩ | v
  · cases base with
    | unresolvable => exact records_throw _
    | primitive v => exact host.getV_records v name
    | object o => exact host.get_records o name
    | scope s => exact records_bind (scope_records s) fun _ => ofExcept_records _
  · exact records_pure v

theorem putOnPrimitive_records (base : Value) (key : String) (v : Value) (strict : Bool) :
    Records (host.recording.putOnPrimitive base key v strict)
      (host.putOnPrimitive base key v strict) := by
  have hrefuse : Records (σ := σ) (refusePrimitivePut key strict) (refusePrimitivePut key strict) :=
    refusal_records _ () strict
  apply records_bind (toObject_records base)
  intro o
  exact host.assign_records o key base v hrefuse hrefuse hrefuse

theorem putValue_records (r : Resolution) (v : Value) (global : Option ObjectId) :
    Records (host.recording.putValue r v global) (host.putValue r v global) := by
  rcases r with ⟨base, name, strict⟩ | target
  · cases base with
    | unresolvable =>
      rcases global with _ | g
      · exact records_throw _
      · cases strict with
        | true => exact records_throw _
        | false => exact host.put_records g name v false
    | primitive base => exact host.putOnPrimitive_records base name v strict
    | object o => exact host.put_records o name v strict
    | scope s =>
      apply records_bind (scope_records s)
      intro content
      exact records_bind (ofExcept_records _) fun _ => setScope_records s _
  · exact records_throw _

end Host

/-- One case for each operation. -/
theorem Operation.run_records {σ : Type} (host : Host σ) (op : Operation) :
    Act.Records (op.run host.recording) (op.run host) := by
  cases op with
  | create kind prototype => exact Act.records_discard (Act.create_records _)
  | define o key d strict => exact Act.records_discard (Act.define_records o key d strict)
  | delete o key strict => exact Act.records_discard (Act.delete_records o key strict)
  | preventExtensions o => exact Act.preventExtensions_records o
  | setPrototype o prototype => exact Act.records_discard (host.setPrototype_records o prototype)
  | setIntrinsic i o => exact Act.records_discard (Act.setIntrinsic_records i o)
  | createScope s => exact Act.records_discard (Act.createScope_records s)
  | setScope i s => exact Act.setScope_records i s
  | getProperty o key => exact Act.records_discard (host.getProperty_records o key)
  | hasProperty o key => exact Act.records_discard (host.hasProperty_records o key)
  | canPut o key => exact Act.records_discard (host.canPut_records o key)
  | call f this args => exact Act.records_discard (host.call_records f this args)
  | get o key => exact Act.records_discard (host.get_records o key)
  | getV v key => exact Act.records_discard (host.getV_records v key)
  | getMethod v key => exact Act.records_discard (host.getMethod_records v key)
  | put o key v strict => exact host.put_records o key v strict
  | toObject v => exact Act.records_discard (Act.toObject_records v)
  | checkCoercible v => exact Act.checkCoercible_records v
  | toPrimitive v hint => exact Act.records_discard (host.toPrimitive_records v hint)
  | toNumber v => exact Act.records_discard (host.toNumber_records v)
  | toIntegral v | toInt32 v | toUInt32 v | toUInt16 v =>
    exact Act.records_discard
      (Act.records_bind (host.toNumber_records v) fun _ => Act.records_pure _)
  | toText v format =>
    exact Act.records_discard
      (Act.records_bind (host.toPrimitive_records v .string) fun _ => Act.records_pure _)
  | looseEquals x y => exact Act.records_discard (host.looseEquals_records x y)
  | describe p => exact Act.records_discard (Act.describe_records p)
  | toDescriptor v => exact Act.records_discard (host.toDescriptor_records v)
  | getValue r => exact Act.records_discard (host.getValue_records r)
  | putValue r v global => exact host.putValue_records r v global

/-- The fault of a callable passes through, whatever callables do, in every world and for every
operation; turning an object into a primitive is one more way in. -/
theorem fault_of_call_passes {σ : Type} (host : Host σ) (w : World (Recorded σ)) :
    (∀ op : Operation, ∃ made, Act.Passes (op.run host.recording) (op.run host) w made) ∧
    ∀ o hint, ∃ made,
      Act.Passes (host.recording.defaultValue o hint) (host.defaultValue o hint) w made :=
  ⟨fun op => (op.run_records host).passes w,
    fun o hint => (host.defaultValue_records o hint).passes w⟩

/-- An engine whose callables take the property of their own name from the receiver, and then fail
with the receiver. -/
def Host.failing : Host Unit where
  limit := .default
  invoke c this _ := do
    if let .object o := this then
      discard (Act.delete o c.name false)
    throw (.thrown this)

/-- An object with both methods that turn it into a primitive. The first is behind a getter. -/
def twoMethodsHeap : Heap :=
  let h := Heap.empty.push (.ordinary none)
  let h := h.push (.ofCallable ⟨"valueOf", 0⟩ none)
  let h := h.apply .default (.define ⟨0⟩ "toString" (.accessor (some ⟨1⟩) none true true))
  h.apply .default (.define ⟨0⟩ "valueOf" (.data (.object ⟨1⟩) true true true))

/-- The getter of the first method fails: the second one is not tried, and what the getter has taken
away stays away. -/
theorem fault_of_call_passes_failing :
    let op : Operation := .toText (.object ⟨0⟩) .shortest
    let w : World (Recorded Unit) := { World.start ⟨(), []⟩ with heap := twoMethodsHeap }
    ∃ call u, Act.Passes (op.run Host.failing.recording) (op.run .failing) w [call] ∧
      call.callable = ⟨"valueOf", 0⟩ ∧ call.result = .error (.thrown (.object ⟨0⟩)) ∧
      (call.left.object ⟨0⟩).hasOwn "valueOf" = false ∧
      op.run .failing w.forget = .error (.thrown (.object ⟨0⟩)) u ∧ u.heap = call.left := by
  intro op w
  obtain ⟨made, passes⟩ := (fault_of_call_passes .failing w).1 op
  -- A lookup is no structural recursion, and evaluates only when it is unfolded.
  obtain ⟨call, hcalls, hname, hfault, hleft⟩ : ∃ call,
      ((op.run Host.failing.recording).after w).host.calls = [call] ∧
        call.callable = ⟨"valueOf", 0⟩ ∧ call.result = .error (.thrown (.object ⟨0⟩)) ∧
        (call.left.object ⟨0⟩).hasOwn "valueOf" = false :=
    ⟨_, by with_unfolding_all rfl, by with_unfolding_all rfl, by with_unfolding_all rfl,
      by with_unfolding_all rfl⟩
  obtain rfl : made = [call] := passes.calls.symm.trans hcalls
  obtain ⟨-, u, hrun, hheap⟩ := passes.abort [] call [] _ rfl hfault
  exact ⟨call, u, passes, hname, hfault, hleft, hrun, hheap⟩

end EcmaCore
