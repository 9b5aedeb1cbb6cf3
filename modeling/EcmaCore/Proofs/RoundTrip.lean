import EcmaCore.Proofs.Operation
import EcmaCore.Proofs.Recording

/-!
# Descriptions read back

An object that describes a property has its fields, and no others, as own values. Reading a
descriptor from it asks for own fields only, and an own value is found before any prototype is
looked at. So nothing is called, and the fields come back as they were.
-/
namespace EcmaCore

namespace Object

/-- Of fields with distinct keys, stored one after the other, each is an own value. -/
theorem ownProperty?_foldl_store {fields : List (String × Value)}
    (hnodup : (fields.map (·.1)).Nodup) (x : Object) (key : String) :
    (fields.foldl (fun y f => y.store f.1 (.data f.2 true true true)) x).ownProperty? key =
      ((fields.lookup key).map (Property.data · true true true)).or (x.ownProperty? key) := by
  induction fields generalizing x with
  | nil => rfl
  | cons f rest ih =>
    obtain ⟨k, v⟩ := f
    rw [List.map_cons, List.nodup_cons] at hnodup
    rw [List.foldl_cons, ih hnodup.2]
    by_cases hk : key = k
    · subst hk
      have hrest : rest.lookup key = none := by
        rw [List.lookup_eq_none_iff]
        intro g hg
        have hne : key ≠ g.1 := by
          intro he
          exact hnodup.1 (List.mem_map.mpr ⟨g, hg, he.symm⟩)
        simpa using hne
      simp [hrest]
    · have hkey : (key == k) = false := by simpa using hk
      rw [ownProperty?_store_other x _ hk, List.lookup_cons, hkey]

end Object

namespace Property

theorem ownProperty?_toObject (p : Property) (prototype : Option ObjectId) (key : String) :
    (p.toObject prototype).ownProperty? key =
      (p.fields.lookup key).map (Property.data · true true true) := by
  have hbare : (Object.ordinary prototype).ownProperty? key = none := rfl
  rw [toObject, Object.ownProperty?_foldl_store p.nodup_fields, hbare, Option.or_none]

end Property

/-- The descriptor that has what fields say. -/
def Descriptor.ofFields (fields : List (String × Value)) : Descriptor where
  value := fields.lookup "value"
  writable := (fields.lookup "writable").map Value.toBoolean
  getter := fields.lookup "get"
  setter := fields.lookup "set"
  enumerable := (fields.lookup "enumerable").map Value.toBoolean
  configurable := (fields.lookup "configurable").map Value.toBoolean

theorem Descriptor.ofFields_fields (p : Property) : ofFields p.fields = ofProperty p := by
  obtain ⟨slot, e, c⟩ := p
  cases slot <;> rfl

theorem Descriptor.isMixed_ofProperty (p : Property) : (ofProperty p).isMixed = false := by
  obtain ⟨slot, e, c⟩ := p
  cases slot <;> rfl

/-- The functions of a slot. -/
def Slot.functions : Slot → List ObjectId
  | data .. => []
  | accessor getter setter => getter.toList ++ setter.toList

namespace Heap

/-- An object has fields as own values, and no other own properties. -/
def Describes (h : Heap) (o : ObjectId) (fields : List (String × Value)) : Prop :=
  ∀ key, (h.object o).ownProperty? key =
    (fields.lookup key).map (Property.data · true true true)

/-- A field for a function is open, or undefined, or holds something callable. -/
def FunctionField (h : Heap) (field : Option Value) : Prop :=
  ∀ f ∈ field, (f.isUndefined || h.isCallable f) = true

/-- The field under a key, if there is one, is a function or undefined. -/
def FunctionAt (h : Heap) (fields : List (String × Value)) (key : String) : Prop :=
  ∀ f, fields.lookup key = some f → (f.isUndefined || h.isCallable f) = true

variable {h : Heap} {p : Property}

theorem functionAt_fields (functions : ∀ f ∈ p.slot.functions, (h.object f).isCallable = true) :
    h.FunctionAt p.fields "get" ∧ h.FunctionAt p.fields "set" := by
  obtain ⟨_ | ⟨getter, setter⟩, e, c⟩ := p
  case data => exact ⟨nofun, nofun⟩
  case accessor =>
    have hslot : ∀ slot : Option ObjectId, (∀ f ∈ slot, (h.object f).isCallable = true) →
        ((Value.ofSlot slot).isUndefined || h.isCallable (.ofSlot slot)) = true := by
      rintro (_ | f) hf
      · rfl
      · exact hf f rfl
    constructor
    · rintro _ ⟨⟩
      exact hslot getter fun f hf =>
        functions f (List.mem_append_left _ (Option.mem_toList.mpr hf))
    · rintro _ ⟨⟩
      exact hslot setter fun f hf =>
        functions f (List.mem_append_right _ (Option.mem_toList.mpr hf))

/-- Something callable was given out. -/
theorem index_lt_of_isCallable {f : ObjectId} (hf : (h.object f).isCallable = true) :
    f.index < h.size := by
  apply index_lt_of_object_ne
  intro hd
  rw [hd] at hf
  cases hf

end Heap

namespace Act
variable {σ : Type} {w : World σ}

/-- Defines fields one after the other, each free to be changed. -/
def defineFields (strict : Bool) (o : ObjectId) : List (String × Value) → Act σ Unit
  | [] => return ()
  | (key, v) :: rest => do
    discard (define o key (.data v true true true) strict)
    defineFields strict o rest

/-- On an object that was just made no definition is refused. -/
theorem defineFields_push (strict : Bool) {h : Heap} (fields : List (String × Value)) {x : Object}
    (hx : x.extensible = true) (hnodup : (fields.map (·.1)).Nodup)
    (habsent : ∀ f ∈ fields, x.ownProperty? f.1 = none) :
    defineFields strict h.fresh fields { w with heap := h.push x } = .ok () { w with
      heap := h.push (fields.foldl (fun y f => y.store f.1 (.data f.2 true true true)) x) } := by
  induction fields generalizing x with
  | nil => rfl
  | cons f rest ih =>
    obtain ⟨key, v⟩ := f
    rw [List.map_cons, List.nodup_cons] at hnodup
    have hk : x.ownProperty? key = none := habsent _ List.mem_cons_self
    have hpush : (h.push x).define h.fresh key (.data v true true true) = .ok _ :=
      Heap.define_push hx hk
    have hdefine := discard_of_ok (define_of_ok (w := { w with heap := h.push x }) hpush strict)
    rw [defineFields, bind_of_ok hdefine]
    exact ih hx hnodup.2 (Object.absent_store hnodup.1 habsent _)

/-- Describes a property by making an ordinary object and defining its fields in their order. -/
def describeStepwise (strict : Bool) (p : Property) : Act σ Value := do
  let o ← create (.ordinary (← intrinsic? .objectPrototype))
  defineFields strict o p.fields
  return .object o

theorem describe_eq_describeStepwise (strict : Bool) (p : Property) :
    (describe (some p) : Act σ Value) = describeStepwise strict p := by
  funext w
  let bare : Object := .ordinary (w.realm.get? .objectPrototype)
  let u : World σ := { w with heap := w.heap.push bare }
  have hdefine : defineFields strict w.heap.fresh p.fields u = .ok () _ :=
    defineFields_push strict p.fields rfl p.nodup_fields fun _ _ => rfl
  change _ = (defineFields strict w.heap.fresh p.fields >>= fun _ =>
    pure (Value.object w.heap.fresh)) u
  rw [bind_of_ok hdefine]
  rfl

end Act

namespace Host
open Act
variable {σ : Type} {host : Host σ} {u w : World σ} {o : ObjectId} {key : String}
  {fields : List (String × Value)}

theorem readField_of_get {v : Value} (own : (w.heap.object o).hasOwn key = true)
    (get : host.get o key w = .ok v u) : host.readField o key w = .ok (some v) u := by
  rw [readField, object_bind, if_pos own, bind_of_ok get]
  rfl

theorem readField_of_absent (absent : (w.heap.object o).hasOwn key = false) :
    host.readField o key w = .ok none w := by
  rw [readField, object_bind, absent]
  rfl

theorem readFlag_of_readField {field : Option Value} (read : host.readField o key w = .ok field u) :
    host.readFlag o key w = .ok (field.map Value.toBoolean) u := by
  rw [readFlag, bind_of_ok read]
  rfl

theorem readFunction_of_readField {field : Option Value}
    (read : host.readField o key w = .ok field u) (callable : u.heap.FunctionField field)
    (cause : Value → TypeErrorCause) : host.readFunction o key cause w = .ok field u := by
  rw [readFunction, bind_of_ok read]
  cases field with
  | none => rfl
  | some f =>
    simp only [heap_bind, callable f rfl, if_true]
    rfl

theorem readField_of_describes (hd : w.heap.Describes o fields) (key : String) :
    host.readField o key w = .ok (fields.lookup key) w := by
  have hown := hd key
  cases hl : fields.lookup key with
  | none =>
    rw [hl] at hown
    exact readField_of_absent (by rw [Object.hasOwn, hown]; rfl)
  | some v =>
    rw [hl] at hown
    exact readField_of_get (by rw [Object.hasOwn, hown]; rfl) (get_of_own hown)

theorem readFlag_of_describes (hd : w.heap.Describes o fields) (key : String) :
    host.readFlag o key w = .ok ((fields.lookup key).map Value.toBoolean) w :=
  readFlag_of_readField (readField_of_describes hd key)

theorem readFunction_of_describes (hd : w.heap.Describes o fields) {key : String}
    (hf : w.heap.FunctionAt fields key) (cause : Value → TypeErrorCause) :
    host.readFunction o key cause w = .ok (fields.lookup key) w :=
  readFunction_of_readField (readField_of_describes hd key) hf cause

/-- From an object that describes fields their descriptor is read, without a call. -/
theorem toDescriptor_of_describes (hd : w.heap.Describes o fields)
    (getter : w.heap.FunctionAt fields "get") (setter : w.heap.FunctionAt fields "set")
    (plain : (Descriptor.ofFields fields).isMixed = false) :
    host.toDescriptor (.object o) w = .ok (.ofFields fields) w := by
  rw [toDescriptor, bind_of_ok (readFlag_of_describes hd _), bind_of_ok (readFlag_of_describes hd _),
    bind_of_ok (readField_of_describes hd _), bind_of_ok (readFlag_of_describes hd _),
    bind_of_ok (readFunction_of_describes hd getter _),
    bind_of_ok (readFunction_of_describes hd setter _)]
  change (if (Descriptor.ofFields fields).isMixed then throw (.typeError .mixedDescription)
    else return .ofFields fields : Act σ Descriptor) w = _
  rw [plain]
  rfl

end Host

/-- A property with functions that can be called is described by a new object, whatever
intrinsics there are, and none of the definitions of its fields is refused; nothing else changes.
From that object the complete descriptor of the property is read back. Neither calls anything. -/
theorem description_reads_back {σ : Type} (host : Host σ) (w : World (Recorded σ)) {p : Property}
    (functions : ∀ f ∈ p.slot.functions, (w.heap.object f).isCallable = true) :
    ∃ u d, Act.describe (some p) w = .ok (.object w.heap.fresh) u ∧
      (∀ strict, Act.describeStepwise strict p w = .ok (.object w.heap.fresh) u) ∧
      (∀ q, q.index < w.heap.size → u.heap.object q = w.heap.object q) ∧
      u.realm = w.realm ∧ u.scopes = w.scopes ∧ u.host = w.host ∧
      host.recording.toDescriptor (.object w.heap.fresh) u = .ok d u ∧
      d.same (.ofProperty p) = true := by
  let x := p.toObject (w.realm.get? .objectPrototype)
  have hold : ∀ q, q.index < w.heap.size → (w.heap.push x).object q = w.heap.object q :=
    fun q hq => Heap.object_push_of_lt x hq
  have hdescribes : (w.heap.push x).Describes w.heap.fresh p.fields := by
    intro key
    rw [Heap.object_push_fresh, Property.ownProperty?_toObject]
  have hfunctions : ∀ f ∈ p.slot.functions, ((w.heap.push x).object f).isCallable = true := by
    intro f hf
    rw [hold f (Heap.index_lt_of_isCallable (functions f hf))]
    exact functions f hf
  obtain ⟨hget, hset⟩ := Heap.functionAt_fields hfunctions
  have hplain : (Descriptor.ofFields p.fields).isMixed = false := by
    rw [Descriptor.ofFields_fields, Descriptor.isMixed_ofProperty]
  have hread : host.recording.toDescriptor (.object w.heap.fresh) { w with heap := w.heap.push x } =
      .ok (.ofFields p.fields) { w with heap := w.heap.push x } :=
    Host.toDescriptor_of_describes hdescribes hget hset hplain
  refine ⟨_, _, rfl, ?_, hold, rfl, rfl, rfl, hread, ?_⟩
  · intro strict
    rw [← Act.describe_eq_describeStepwise]
    rfl
  · rw [Descriptor.ofFields_fields, Descriptor.same_iff]

/-- A world in which ordinary objects inherit accessors under the names of fields. -/
def inheritingWorld : World (Recorded Unit) :=
  let getter := Property.accessor (some ⟨1⟩) none true true
  let prototype := ((Object.ordinary none).store "value" getter).store "set" getter
  { World.start ⟨(), []⟩ with
    heap := (Heap.empty.push prototype).push (.ofCallable ⟨"f", 0⟩ none)
    realm := { objectPrototype := some ⟨0⟩ } }

/-- An accessor without a setter is not taken to have a value or the inherited setter. -/
theorem description_reads_back_inheriting :
    ∃ u d, Act.describe (some (.accessor (some ⟨1⟩) none true false)) inheritingWorld =
        .ok (.object ⟨2⟩) u ∧
      Host.idle.recording.toDescriptor (.object ⟨2⟩) u = .ok d u ∧
      d.same (.accessor (some ⟨1⟩) none true false) = true := by
  have functions : ∀ f ∈ (Property.accessor (some ⟨1⟩) none true false).slot.functions,
      (inheritingWorld.heap.object f).isCallable = true := by
    intro f hf
    obtain rfl : f = ⟨1⟩ := List.mem_singleton.mp hf
    rfl
  obtain ⟨u, d, hmade, -, -, -, -, -, hread, hsame⟩ :=
    description_reads_back Host.idle inheritingWorld functions
  exact ⟨u, d, hmade, hread, hsame⟩

end EcmaCore
