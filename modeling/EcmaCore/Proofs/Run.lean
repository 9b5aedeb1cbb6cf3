import EcmaCore.Proofs.Operation

/-!
# Runs

The public operations as data, and runs of them: one operation after the other, on objects that are
there at its turn and whatever the results of the ones before. Between operations the engine may
change its own state. A run of a lawful host leads from a world that can come about to another.
-/
namespace EcmaCore

inductive Operation where
  | create (kind : ObjectKind) (prototype : Option ObjectId)
  | define (o : ObjectId) (key : String) (d : Descriptor) (strict : Bool)
  | delete (o : ObjectId) (key : String) (strict : Bool)
  | preventExtensions (o : ObjectId)
  | setPrototype (o : ObjectId) (prototype : Option ObjectId)
  | setIntrinsic (i : Intrinsic) (o : Option ObjectId)
  | createScope (s : Scope)
  | setScope (i : ScopeId) (s : Scope)
  | getProperty (o : ObjectId) (key : String)
  | hasProperty (o : ObjectId) (key : String)
  | canPut (o : ObjectId) (key : String)
  | call (f this : Value) (args : List Value)
  | get (o : ObjectId) (key : String)
  | getV (v : Value) (key : String)
  | getMethod (v : Value) (key : String)
  | put (o : ObjectId) (key : String) (v : Value) (strict : Bool)
  | toObject (v : Value)
  | checkCoercible (v : Value)
  | toPrimitive (v : Value) (hint : Hint)
  | toNumber (v : Value)
  | toIntegral (v : Value)
  | toInt32 (v : Value)
  | toUInt32 (v : Value)
  | toUInt16 (v : Value)
  | toText (v : Value) (format : Formatter)
  | looseEquals (x y : Value)
  | describe (p : Option Property)
  | toDescriptor (v : Value)
  | getValue (r : Resolution)
  | putValue (r : Resolution) (v : Value) (global : Option ObjectId)

instance : Mentions Operation where
  mentions
    | .create _ prototype, p => mentions prototype p
    | .define o _ d _, p => mentions o p ∨ mentions d p
    | .delete o _ _, p | .preventExtensions o, p => mentions o p
    | .setPrototype o prototype, p => mentions o p ∨ mentions prototype p
    | .setIntrinsic _ o, p => mentions o p
    | .createScope s, p | .setScope _ s, p => mentions s p
    | .getProperty o _, p | .hasProperty o _, p | .canPut o _, p | .get o _, p => mentions o p
    | .call f this args, p => mentions f p ∨ mentions this p ∨ mentions args p
    | .put o _ v _, p => mentions o p ∨ mentions v p
    | .getV v _, p | .getMethod v _, p | .toObject v, p | .checkCoercible v, p
    | .toPrimitive v _, p | .toNumber v, p | .toIntegral v, p | .toInt32 v, p | .toUInt32 v, p
    | .toUInt16 v, p | .toText v _, p | .toDescriptor v, p => mentions v p
    | .looseEquals x y, p => mentions x p ∨ mentions y p
    | .describe q, p => mentions q p
    | .getValue r, p => mentions r p
    | .putValue r v global, p => mentions r p ∨ mentions v p ∨ mentions global p

theorem below_operation_setPrototype {n : Nat} {o : ObjectId} {q : Option ObjectId} :
    Below n (Operation.setPrototype o q) ↔ o.index < n ∧ Below n q :=
  below_change_setPrototype

theorem below_operation_call {n : Nat} {f this : Value} {args : List Value} :
    Below n (Operation.call f this args) ↔ Below n f ∧ Below n this ∧ Below n args := by
  constructor
  · intro h
    exact ⟨fun p hp => h p (.inl hp), fun p hp => h p (.inr (.inl hp)),
      fun p hp => h p (.inr (.inr hp))⟩
  · rintro ⟨hf, ht, ha⟩ p (hp | hp | hp)
    · exact hf p hp
    · exact ht p hp
    · exact ha p hp

/-- Performs an operation for what it does to the world. -/
def Operation.run {σ : Type} (host : Host σ) : Operation → Act σ Unit
  | create kind prototype => discard (Act.create (.ofKind kind prototype))
  | define o key d strict => discard (Act.define o key d strict)
  | delete o key strict => discard (Act.delete o key strict)
  | preventExtensions o => Act.preventExtensions o
  | setPrototype o prototype => discard (host.setPrototype o prototype)
  | setIntrinsic i o => discard (Act.setIntrinsic i o)
  | createScope s => discard (Act.createScope s)
  | setScope i s => Act.setScope i s
  | getProperty o key => discard (host.getProperty o key)
  | hasProperty o key => discard (host.hasProperty o key)
  | canPut o key => discard (host.canPut o key)
  | call f this args => discard (host.call f this args)
  | get o key => discard (host.get o key)
  | getV v key => discard (host.getV v key)
  | getMethod v key => discard (host.getMethod v key)
  | put o key v strict => host.put o key v strict
  | toObject v => discard (Act.toObject v)
  | checkCoercible v => Act.checkCoercible v
  | toPrimitive v hint => discard (host.toPrimitive v hint)
  | toNumber v => discard (host.toNumber v)
  | toIntegral v => discard (host.toIntegral v)
  | toInt32 v => discard (host.toInt32 v)
  | toUInt32 v => discard (host.toUInt32 v)
  | toUInt16 v => discard (host.toUInt16 v)
  | toText v format => discard (host.toText v format)
  | looseEquals x y => discard (host.looseEquals x y)
  | describe p => discard (Act.describe p)
  | toDescriptor v => discard (host.toDescriptor v)
  | getValue r => discard (host.getValue r)
  | putValue r v global => host.putValue r v global

variable {σ : Type} [Mentions σ] {host : Host σ} {u v w : World σ}

namespace Operation
open Act Host

/-- One case for each operation: what it mentions splits into its arguments. -/
theorem run_keeps (law : host.Lawful) (hw : w.Reachable host.limit) {op : Operation}
    (hop : Below w.heap.size op) : (op.run host).Keeps host.limit w := by
  have hc := hw.closed
  cases op with
  | create kind prototype => exact keeps_discard (create_keeps hc kind hop)
  | define o key d strict =>
    have ho := below_objectId.mp fun p hp => hop p (.inl hp)
    exact keeps_discard (define_keeps hc ho (fun p hp => hop p (.inr hp)) strict)
  | delete o key strict => exact keeps_discard (delete_keeps hc (below_objectId.mp hop) strict)
  | preventExtensions o => exact preventExtensions_keeps hc (below_objectId.mp hop)
  | setPrototype o prototype =>
    obtain ⟨ho, hq⟩ := below_operation_setPrototype.mp hop
    exact keeps_discard (setPrototype_keeps hc ho hq)
  | setIntrinsic i o => exact keeps_discard (setIntrinsic_keeps hc i hop)
  | createScope s => exact keeps_discard (createScope_keeps hc hop)
  | setScope i s => exact setScope_keeps hc hop
  | getProperty o key => exact keeps_discard (getProperty_keeps hc o key)
  | hasProperty o key => exact keeps_discard (hasProperty_keeps hc o key)
  | canPut o key => exact keeps_discard (canPut_keeps hc o key)
  | call f this args =>
    obtain ⟨hf, ht, ha⟩ := below_operation_call.mp hop
    exact keeps_discard (call_keeps law hw hf ht ha)
  | get o key => exact keeps_discard (get_keeps law hw (below_objectId.mp hop) key)
  | getV v key => exact keeps_discard (getV_keeps law hw hop key)
  | getMethod v key => exact keeps_discard (getMethod_keeps law hw hop key)
  | put o key v strict =>
    have ho := below_objectId.mp fun p hp => hop p (.inl hp)
    exact put_keeps law hw ho (fun p hp => hop p (.inr hp)) key strict
  | toObject v => exact keeps_discard (toObject_keeps hc hop)
  | checkCoercible v => exact checkCoercible_keeps hc hop
  | toPrimitive v hint => exact keeps_discard (toPrimitive_keeps law hw hop hint)
  | toNumber v => exact keeps_discard (toNumber_keeps law hw hop)
  | toIntegral v => exact keeps_discard (toIntegral_keeps law hw hop)
  | toInt32 v => exact keeps_discard (toInt32_keeps law hw hop)
  | toUInt32 v => exact keeps_discard (toUInt32_keeps law hw hop)
  | toUInt16 v => exact keeps_discard (toUInt16_keeps law hw hop)
  | toText v format => exact keeps_discard (toText_keeps law hw hop format)
  | looseEquals x y =>
    exact keeps_discard (looseEquals_keeps law hw (fun p hp => hop p (.inl hp))
      fun p hp => hop p (.inr hp))
  | describe p => exact keeps_discard (describe_keeps hc hop)
  | toDescriptor v => exact keeps_discard (toDescriptor_keeps law hw hop)
  | getValue r => exact keeps_discard (getValue_keeps law hw hop)
  | putValue r v global =>
    exact putValue_keeps law hw (fun p hp => hop p (.inl hp))
      (fun p hp => hop p (.inr (.inl hp))) fun p hp => hop p (.inr (.inr hp))

end Operation

/-- Performs operations one after the other. -/
inductive Host.Performs (host : Host σ) : World σ → List Operation → World σ → Prop where
  | done (w : World σ) : Performs host w [] w
  | operation {w v : World σ} {op : Operation} {ops : List Operation}
      (known : Below w.heap.size op) (rest : Performs host ((op.run host).after w) ops v) :
      Performs host w (op :: ops) v
  | engine {w v : World σ} {ops : List Operation} (s : σ) (known : Below w.heap.size s)
      (rest : Performs host { w with host := s } ops v) : Performs host w ops v

theorem Host.Performs.leads (law : host.Lawful) {ops : List Operation}
    (run : host.Performs w ops v) (hw : w.Reachable host.limit) : w.Leads host.limit v := by
  induction run with
  | done w => exact .refl hw.closed
  | operation known _ ih =>
    have hl := (Operation.run_keeps law hw known).leads
    exact hl.trans (ih (hl.reachable hw))
  | @engine w v ops s known _ ih =>
    have hc : ({ w with host := s } : World σ).Closed :=
      ⟨hw.closed.heap, hw.closed.realm, hw.closed.scopes, known⟩
    have hl := ih ⟨hc, hw.history⟩
    exact ⟨hl.closed, hl.changes⟩

/-- A world that a run makes from one without objects is one that can come about. -/
theorem Host.Performs.reachable (law : host.Lawful) {s : σ} (hs : Below 0 s)
    {ops : List Operation} (run : host.Performs (.start s) ops v) : v.Reachable host.limit :=
  (run.leads law (World.reachable_start host.limit hs)).reachable
    (World.reachable_start host.limit hs)

end EcmaCore
