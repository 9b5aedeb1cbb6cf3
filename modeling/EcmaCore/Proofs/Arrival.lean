import EcmaCore.Proofs.Assignment
import EcmaCore.Proofs.Mentions
import EcmaCore.Proofs.Recording

/-!
# Strict assignments arrive

Of an assignment in strict code there are two outcomes that are not faults: a setter was called with
the value, and nothing else was called; or nothing was called, and reading the same reference back
gives the value. On a primitive only the first can be, since a property of the wrapper would be lost
with it; where a name cannot be resolved neither can.
-/
namespace EcmaCore

/-- What a setter that is called for a reference has as its receiver. -/
def Base.receiver? : Base → Option Value
  | .object o => some (.object o)
  | .primitive v => some v
  | .scope _ | .unresolvable => none

/-- Only a name that is bound can be assigned to. -/
theorem Scope.binding?_of_set {s t : Scope} {name : String} {v : Value} {strict : Bool}
    (h : s.set name v strict = .ok t) : ∃ b, s.binding? name = some b := by
  cases hb : s.binding? name with
  | some b => exact ⟨b, rfl⟩
  | none =>
    rw [Scope.set, hb] at h
    cases h

/-- A scope in which strict code could assign to a name shows the value under it. -/
theorem Scope.get_of_set {s t : Scope} {name : String} {v : Value}
    (h : s.set name v true = .ok t) : t.get name true = .ok v := by
  have hget : ∀ kind, (⟨s.bindings.insert name ⟨kind, some v⟩⟩ : Scope).get name true = .ok v := by
    intro kind
    simp [Scope.get, binding?]
  unfold Scope.set at h
  rcases hb : s.binding? name with _ | ⟨_ | _ | _, value⟩
  all_goals
    rw [hb] at h
    cases h
  · exact hget .deletable
  · exact hget .permanent

section
variable {σ : Type} {w : World σ} {i : ScopeId}

/-- A scope that has a name is there. -/
theorem World.index_lt_of_binding? {name : String} {b : Binding}
    (hb : (w.scope i).binding? name = some b) : i.index < w.scopes.size := by
  rcases Nat.lt_or_ge i.index w.scopes.size with hi | hi
  · exact hi
  · have hdefault : w.scope i = default := by
      simp [World.scope, Array.getD_eq_getD_getElem?, hi]
    rw [hdefault] at hb
    cases hb

theorem World.scope_setIfInBounds (s : Scope) (hi : i.index < w.scopes.size) :
    ({ w with scopes := w.scopes.setIfInBounds i.index s } : World σ).scope i = s := by
  simp [World.scope, Array.getD_eq_getD_getElem?, hi]

/-- Making a wrapper is nothing to the engine. -/
theorem Act.host_of_toObject {v : Value} {o : ObjectId} {m : World σ}
    (h : toObject v w = .ok o m) : m.host = w.host := by
  cases v <;> cases h <;> rfl

end

namespace Host
open Act
variable {σ : Type} {host : Host σ} {r : Reference} {key : String} {v : Value}
  {u w : World (Recorded σ)}

/-- How the value of an assignment that leads from `w` to `u` arrives. -/
inductive Arrives (host : Host σ) (r : Reference) (v : Value) (w u : World (Recorded σ)) :
    Prop where
  /-- The setter that the name resolves to was called, on the base, and nothing else. -/
  | called (receiver : Value) (o : ObjectId) (m : World (Recorded σ)) (getter : Option ObjectId)
      (setter : ObjectId) (e c : Bool) (f : Callable) (result : Value)
      (base : r.base.receiver? = some receiver)
      (start : toObject receiver w = .ok o m)
      (found : m.heap.lookup host.limit o r.name =
        .ok (some ⟨.accessor getter (some setter), e, c⟩))
      (callable : (m.heap.object setter).callable? = some f)
      (calls : u.host.calls = w.host.calls ++ [⟨f, receiver, [v], .ok result, u.heap⟩])
  /-- Nothing was called, and reading gives the value, again without a call. -/
  | stored (base : r.hasPrimitiveBase = false) (calls : u.host.calls = w.host.calls)
      (read : host.recording.getValue (.reference r) u = .ok v u)

theorem arrives_of_called {receiver : Value} {o setter : ObjectId} {getter : Option ObjectId}
    {e c : Bool} {m : World (Recorded σ)} (base : r.base.receiver? = some receiver)
    (start : toObject receiver w = .ok o m)
    (found : m.heap.lookup host.limit o r.name =
      .ok (some ⟨.accessor getter (some setter), e, c⟩))
    (done : discard (host.recording.callObject setter receiver [v]) m = .ok () u) :
    host.Arrives r v w u := by
  obtain ⟨a, ha⟩ := discard_eq_ok_iff.mp done
  obtain ⟨f, hf, calls⟩ := callObject_recorded ha
  rw [host_of_toObject start] at calls
  exact .called receiver o m getter setter e c f a base start found hf calls

/-- What is stored on an object that is there is what a reference to the object reads. -/
theorem arrives_of_stored {o : ObjectId} (ho : o.index < w.heap.size) (e c : Bool) :
    host.Arrives ⟨.object o, key, true⟩ v w
      { w with heap := w.heap.replace o ((w.heap.object o).store key ⟨.data v true, e, c⟩) } := by
  have hown : ((w.heap.replace o ((w.heap.object o).store key ⟨.data v true, e, c⟩)).object
      o).ownProperty? key = some ⟨.data v true, e, c⟩ := by
    rw [Heap.object_replace_same _ ho, Object.ownProperty?_store_same]
  exact .stored rfl rfl (get_of_own hown)

theorem put_arrives {o : ObjectId} (ho : o.index < w.heap.size)
    (done : host.recording.put o key v true w = .ok () u) :
    host.Arrives ⟨.object o, key, true⟩ v w u := by
  rw [put_eq_assign] at done
  cases host.recording.course o key w with
  | fault e walk result =>
    rw [result] at done
    cases done
  | refused result =>
    rw [result] at done
    cases done
  | own x e c own result =>
    rw [result, discard_define_value own] at done
    cases done
    exact arrives_of_stored ho e c
  | called getter setter e c found result =>
    rw [result] at done
    exact arrives_of_called rfl rfl found done
  | new absent extensible result =>
    rw [result, discard_define_new absent extensible] at done
    cases done
    exact arrives_of_stored ho true true

theorem putOnPrimitive_arrives {base : Value}
    (done : host.recording.putOnPrimitive base key v true w = .ok () u) :
    host.Arrives ⟨.primitive base, key, true⟩ v w u := by
  rw [putOnPrimitive_eq_assign] at done
  obtain ⟨o, m, start, rest⟩ := bind_eq_ok_iff.mp done
  cases host.recording.course o key m with
  | called getter setter e c found result =>
    rw [result] at rest
    exact arrives_of_called rfl start found rest
  | fault e walk result =>
    rw [result] at rest
    cases rest
  -- whatever else could be done to the wrapper is refused
  | refused result | own _ _ _ _ result | new _ _ result =>
    rw [result] at rest
    cases rest

theorem getValue_of_scope {s : ScopeId} (hget : (w.scope s).get key true = .ok v) :
    host.recording.getValue (.reference ⟨.scope s, key, true⟩) w = .ok v w := by
  have hread : host.recording.getValue (.reference ⟨.scope s, key, true⟩) w =
      (ofExcept ((w.scope s).get key true) : Act (Recorded σ) Value) w := rfl
  rw [hread, hget]
  rfl

theorem putScope_arrives {s : ScopeId} {global : Option ObjectId}
    (done : host.recording.putValue (.reference ⟨.scope s, key, true⟩) v global w = .ok () u) :
    host.Arrives ⟨.scope s, key, true⟩ v w u := by
  have hput : host.recording.putValue (.reference ⟨.scope s, key, true⟩) v global w =
      (ofExcept ((w.scope s).set key v true) >>= setScope s : Act (Recorded σ) Unit) w := rfl
  rw [hput] at done
  cases hset : (w.scope s).set key v true with
  | error e =>
    rw [hset] at done
    cases done
  | ok t =>
    rw [hset] at done
    cases done
    obtain ⟨b, hb⟩ := Scope.binding?_of_set hset
    refine .stored rfl rfl (getValue_of_scope ?_)
    rw [World.scope_setIfInBounds t (World.index_lt_of_binding? hb)]
    exact Scope.get_of_set hset

end Host

/-- A strict assignment is not lost, whatever callables do. Where it ends without a fault the name
could be resolved, and the value arrives. -/
theorem strict_assignment_arrives {σ : Type} {host : Host σ} {r : Reference} {v : Value}
    {u w : World (Recorded σ)} (known : Below w.heap.size r) (strict : r.strict = true)
    {global : Option ObjectId}
    (done : host.recording.putValue (.reference r) v global w = .ok () u) :
    r.isUnresolvable = false ∧ host.Arrives r v w u := by
  obtain ⟨base, name, _⟩ := r
  obtain rfl : _ = true := strict
  cases base with
  | object o => exact ⟨rfl, Host.put_arrives (below_objectId.mp known) done⟩
  | primitive base => exact ⟨rfl, Host.putOnPrimitive_arrives done⟩
  | scope s => exact ⟨rfl, Host.putScope_arrives done⟩
  | unresolvable =>
    cases global with
    | none => cases done
    | some g => cases done

/-- A world in which booleans inherit a setter. -/
def setterWorld : World (Recorded Unit) :=
  let prototype := (Object.ordinary none).store "x" (.accessor none (some ⟨1⟩) true true)
  { World.start ⟨(), []⟩ with
    heap := (Heap.empty.push prototype).push (.ofCallable ⟨"f", 0⟩ none)
    realm := { booleanPrototype := some ⟨0⟩ } }

/-- A boolean as the base: the setter is found through its wrapper, and receives the boolean. -/
theorem strict_assignment_arrives_inherited :
    ∃ u, Host.idle.recording.putValue (.reference (.ofMember (.boolean true) "x" true)) .null none
        setterWorld = .ok () u ∧
      Host.idle.Arrives (.ofMember (.boolean true) "x" true) .null setterWorld u := by
  let m : World (Recorded Unit) :=
    { setterWorld with heap := setterWorld.heap.push (.ofBoolean true (some ⟨0⟩)) }
  let setter : Property := .accessor none (some ⟨1⟩) true true
  have shared : m.heap.lookup .default ⟨0⟩ "x" = .ok (some setter) := Heap.lookup_of_own rfl
  have allowed : m.heap.canPut .default ⟨2⟩ "x" = .ok true := by
    change (m.heap.lookup .default ⟨0⟩ "x").map _ = _
    rw [shared]
    rfl
  have found : m.heap.lookup .default ⟨2⟩ "x" = .ok (some setter) := by
    rw [Heap.lookup, Heap.lookupFrom_next (ObjectSet.has_empty ⟨2⟩) rfl rfl]
    exact Heap.lookupFrom_own rfl rfl
  have inherited : ∀ u b e c, (m.heap.object ⟨2⟩).ownProperty? "x" ≠ some ⟨.data u b, e, c⟩ := nofun
  have called : Host.idle.recording.putValue
      (.reference (.ofMember (.boolean true) "x" true)) .null none setterWorld =
      discard (Host.idle.recording.callObject ⟨1⟩ (.boolean true) [.null]) m :=
    Host.assign_of_setter allowed inherited found
  have known : Below setterWorld.heap.size (Reference.ofMember (.boolean true) "x" true) :=
    below_of_isObject_eq_false rfl
  exact ⟨_, called, (strict_assignment_arrives known rfl called).2⟩

end EcmaCore
