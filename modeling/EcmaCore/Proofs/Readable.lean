import EcmaCore.Proofs.Definition
import EcmaCore.Proofs.Reentry
import EcmaCore.Proofs.RoundTrip

/-!
# Descriptors that were read

A descriptor that was read from an object is never mixed, and its function fields hold something
callable or undefined. What can be called stays so, whatever getters do while the other fields are
read. So the descriptor creates a property, and an object that describes this property reads back
as the descriptor with the fields that it left open filled in.
-/
namespace EcmaCore

namespace Descriptor

/-- The descriptor with every field of its kind: those it leaves open are `undefined` or `false`,
and one that speaks of no function is of the kind of data. -/
def completed (d : Descriptor) : Descriptor where
  value := if d.isAccessor then none else some (d.value.getD .undefined)
  writable := if d.isAccessor then none else some (d.writable.getD false)
  getter := if d.isAccessor then some (d.getter.getD .undefined) else none
  setter := if d.isAccessor then some (d.setter.getD .undefined) else none
  enumerable := some (d.enumerable.getD false)
  configurable := some (d.configurable.getD false)

/-- Each field of one descriptor is a field of the other, with the same content. -/
structure Within (d e : Descriptor) : Prop where
  value : ∀ v ∈ d.value, e.value = some v
  writable : ∀ b ∈ d.writable, e.writable = some b
  getter : ∀ f ∈ d.getter, e.getter = some f
  setter : ∀ f ∈ d.setter, e.setter = some f
  enumerable : ∀ b ∈ d.enumerable, e.enumerable = some b
  configurable : ∀ b ∈ d.configurable, e.configurable = some b

variable {d : Descriptor}

/-- A descriptor that is not mixed has nothing to lose when its kind is settled. -/
theorem within_completed (plain : d.isMixed = false) : d.Within d.completed := by
  obtain ⟨value, writable, getter, setter, enumerable, configurable⟩ := d
  cases value <;> cases writable <;> cases getter <;> cases setter <;>
    simp_all [isMixed, isData, isAccessor] <;>
    constructor <;> simp_all [completed, isAccessor]

end Descriptor

theorem Object.Step.isCallable {x y : Object} (h : x.Step y) : y.isCallable = x.isCallable := by
  simp only [Object.isCallable, Object.callable?, h.kind]

namespace Heap
variable {h k : Heap} {limit : DepthLimit} {cs : List Change}

/-- What can be called stays so. -/
theorem Evolves.isCallable (hk : h.Evolves limit cs k) {f : ObjectId}
    (hf : (h.object f).isCallable = true) : (k.object f).isCallable = true := by
  have hstep : ∀ x y : Object, x.Step y → x.isCallable = true → y.isCallable = true :=
    fun _ _ hxy hx => hxy.isCallable.trans hx
  exact hk.preserves hstep (index_lt_of_isCallable hf) hf

theorem Evolves.functionField (hk : h.Evolves limit cs k) {field : Option Value}
    (hf : h.FunctionField field) : k.FunctionField field := by
  intro f hmem
  have hcall := hf f hmem
  cases f with
  | object o => exact hk.isCallable hcall
  | _ => exact hcall

/-- The functions of the property that a descriptor creates are those of its fields. -/
theorem functions_toProperty {d : Descriptor} (getter : h.FunctionField d.getter)
    (setter : h.FunctionField d.setter) :
    ∀ f ∈ d.toProperty.slot.functions, (h.object f).isCallable = true := by
  have hfield : ∀ field, h.FunctionField field → ∀ f ∈ (Descriptor.function? field).toList,
      (h.object f).isCallable = true := by
    intro field hcall f hf
    obtain ⟨v, hv, ho⟩ := Option.bind_eq_some_iff.mp (Option.mem_toList.mp hf)
    cases v with
    | object o =>
      cases ho
      exact hcall (.object f) hv
    | _ => cases ho
  intro f hf
  unfold Descriptor.toProperty at hf
  split at hf
  · exact (List.mem_append.mp hf).elim (hfield _ getter f) (hfield _ setter f)
  · cases hf

end Heap

namespace Descriptor
variable {d : Descriptor} {h : Heap}

theorem fitsSlot_of_functionField {field : Option Value} (hf : h.FunctionField field) :
    ∀ f ∈ field, f.fitsSlot = true := by
  intro f hmem
  have hcall := hf f hmem
  cases f with
  | undefined => rfl
  | object o => rfl
  | _ => cases hcall

/-- To complete a descriptor is to fill it in with nothing but defaults. -/
theorem fill_empty (d : Descriptor) : d.fill .empty = d.completed := by
  simp only [fill, makesAccessor_empty, completed]
  simp [empty]

/-- What is described of the property that a descriptor creates is the descriptor, completed. -/
theorem ofProperty_toProperty (getter : h.FunctionField d.getter)
    (setter : h.FunctionField d.setter) : ofProperty d.toProperty = d.completed := by
  have fits : d.FitsSlots := ⟨fitsSlot_of_functionField getter, fitsSlot_of_functionField setter⟩
  rw [ofProperty_toProperty_of_fits fits, fill_empty]

end Descriptor

namespace Object
variable {x : Object} {key : String} {d : Descriptor}

/-- Only a mixed descriptor is rejected as mixed. -/
theorem define_ne_mixed (plain : d.isMixed = false) : x.define key d ≠ .error .mixed := by
  rw [define, plain]
  grind

theorem define_absent (plain : d.isMixed = false) (ha : x.ownProperty? key = none)
    (he : x.extensible = true) : x.define key d = .ok (x.store key d.toProperty) := by
  simp [define, plain, ha, he]

end Object

namespace Act
variable {σ : Type} {u w : World σ} {o : ObjectId} {key : String} {d : Descriptor}

theorem define_ne_mixed (plain : d.isMixed = false) (strict : Bool) (key' : String) :
    define o key d strict w ≠ .error (.typeError (.mixedDescriptor key')) u := by
  rw [define, heap_bind]
  cases hd : w.heap.define o key d with
  | ok h =>
    intro heq
    cases heq
  | error e =>
    cases e with
    | mixed =>
      rw [Heap.define] at hd
      cases hx : (w.heap.object o).define key d with
      | ok y => rw [hx] at hd; cases hd
      | error e =>
        rw [hx] at hd
        cases hd
        exact absurd hx (Object.define_ne_mixed plain)
    | refused reason =>
      intro heq
      cases strict <;> cases heq

variable [Mentions σ] {α β : Type} [Mentions α] {limit : DepthLimit} {x : Act σ α}

theorem Keeps.of_ok {a : α} (hx : x.Keeps limit w) (h : x w = .ok a u) : w.Leads limit u := by
  rw [Keeps, h] at hx
  exact hx.1

/-- Where two actions in sequence have a result, the second starts in a world that can come about. -/
theorem next_of_ok {f : α → Act σ β} {b : β} (hw : w.Reachable limit) (ho : o.index < w.heap.size)
    (hx : x.Keeps limit w) (h : (x >>= f) w = .ok b u) :
    ∃ a m, x w = .ok a m ∧ m.Reachable limit ∧ o.index < m.heap.size ∧ f a m = .ok b u := by
  obtain ⟨a, m, ha, hf⟩ := bind_eq_ok_iff.mp h
  have hl := hx.of_ok ha
  exact ⟨a, m, ha, hl.reachable hw, Nat.lt_of_lt_of_le ho hl.size_le, hf⟩

end Act

namespace Host
open Act
variable {σ : Type} {host : Host σ} {u v w : World σ} {o : ObjectId} {key : String}

/-- A function is checked in the heap in which its field was read. -/
theorem functionField_of_readFunction {cause : Value → TypeErrorCause} {f : Option Value}
    (read : host.readFunction o key cause w = .ok f u) : u.heap.FunctionField f := by
  rw [readFunction, bind_eq_ok_iff] at read
  obtain ⟨field, m, -, hcheck⟩ := read
  cases field with
  | none =>
    cases hcheck
    exact fun _ hg => absurd hg (by simp)
  | some g =>
    have hcheck : (if (g.isUndefined || m.heap.isCallable g) = true then pure (some g)
        else throw (.typeError (cause g)) : Act σ (Option Value)) m = .ok f u := hcheck
    split at hcheck
    next hcall =>
      cases hcheck
      rintro _ ⟨⟩
      exact hcall
    next => cases hcheck

/-- From a new object that describes a property with functions that property is read back. -/
theorem toDescriptor_toObject {p : Property}
    (functions : ∀ f ∈ p.slot.functions, (w.heap.object f).isCallable = true)
    (prototype : Option ObjectId) :
    host.toDescriptor (.object w.heap.fresh) { w with heap := w.heap.push (p.toObject prototype) } =
      .ok (.ofProperty p) { w with heap := w.heap.push (p.toObject prototype) } := by
  let u : World σ := { w with heap := w.heap.push (p.toObject prototype) }
  have hdescribes : u.heap.Describes w.heap.fresh p.fields := by
    intro key
    rw [Heap.object_push_fresh, Property.ownProperty?_toObject]
  have hfunctions : ∀ f ∈ p.slot.functions, (u.heap.object f).isCallable = true := by
    intro f hf
    rw [Heap.object_push_of_lt _ (Heap.index_lt_of_isCallable (functions f hf))]
    exact functions f hf
  obtain ⟨getter, setter⟩ := Heap.functionAt_fields hfunctions
  have plain : (Descriptor.ofFields p.fields).isMixed = false := by
    rw [Descriptor.ofFields_fields, Descriptor.isMixed_ofProperty]
  have hread : host.toDescriptor (.object w.heap.fresh) u = .ok (.ofFields p.fields) u :=
    toDescriptor_of_describes hdescribes getter setter plain
  rw [Descriptor.ofFields_fields] at hread
  exact hread

variable [Mentions σ]

/-- A descriptor that was read is not mixed, and its functions can be called. -/
theorem plain_of_toDescriptor (law : host.Lawful) (hw : w.Reachable host.limit) {v : Value}
    (hv : Below w.heap.size v) {d : Descriptor} (read : host.toDescriptor v w = .ok d u) :
    d.isMixed = false ∧ u.heap.FunctionField d.getter ∧ u.heap.FunctionField d.setter := by
  cases v with
  | object o =>
    have ho := below_object.mp hv
    obtain ⟨_, w₁, _, hw₁, ho₁, read⟩ := next_of_ok hw ho (readFlag_keeps law hw ho _) read
    obtain ⟨_, w₂, _, hw₂, ho₂, read⟩ := next_of_ok hw₁ ho₁ (readFlag_keeps law hw₁ ho₁ _) read
    obtain ⟨_, w₃, _, hw₃, ho₃, read⟩ := next_of_ok hw₂ ho₂ (readField_keeps law hw₂ ho₂ _) read
    obtain ⟨_, w₄, _, hw₄, ho₄, read⟩ := next_of_ok hw₃ ho₃ (readFlag_keeps law hw₃ ho₃ _) read
    obtain ⟨getter, w₅, hgetter, hw₅, ho₅, read⟩ := next_of_ok hw₄ ho₄
      (readFunction_keeps law hw₄ ho₄ _ fun _ _ => below_some.mpr) read
    obtain ⟨setter, w₆, hsetter, read⟩ := bind_eq_ok_iff.mp read
    -- Reading the setter comes after the check of the getter, and may change the heap.
    obtain ⟨_, cs, hcs⟩ :=
      (readFunction_keeps law hw₅ ho₅ _ fun _ _ => below_some.mpr).of_ok hsetter
    split at read
    · cases read
    next hplain =>
      cases read
      exact ⟨by simpa using hplain, hcs.functionField (functionField_of_readFunction hgetter),
        functionField_of_readFunction hsetter⟩
  | _ => cases read

end Host

/-- A descriptor that was read, whatever getters did, is never rejected as mixed. On an object that
can grow and does not have the key it creates a property, and from an object that describes this
property the descriptor is read back with the fields filled in that it left open. -/
theorem read_descriptor_defines {σ : Type} [Mentions σ] {host : Host σ} (law : host.Lawful)
    {u w : World σ} (hw : w.Reachable host.limit) {v : Value} (hv : Below w.heap.size v)
    {d : Descriptor} (read : host.toDescriptor v w = .ok d u) :
    (∀ o key strict (x y : World σ),
      Act.define o key d strict x ≠ .error (.typeError (.mixedDescriptor key)) y) ∧
    ∀ o key strict, o.index < u.heap.size → (u.heap.object o).extensible = true →
      (u.heap.object o).ownProperty? key = none →
      ∃ p q e y z, Act.define o key d strict u = .ok true y ∧
        (y.heap.object o).ownProperty? key = some p ∧
        Act.describe (some p) y = .ok (.object q) z ∧
        host.toDescriptor (.object q) z = .ok e z ∧
        d.Within e ∧ e.same d.completed = true := by
  obtain ⟨plain, getter, setter⟩ := Host.plain_of_toDescriptor law hw hv read
  refine ⟨fun _ key strict _ _ => Act.define_ne_mixed plain strict key, ?_⟩
  intro o key strict ho extensible absent
  let x := (u.heap.object o).store key d.toProperty
  let y : World σ := { u with heap := u.heap.replace o x }
  have hdefine : Act.define o key d strict u = .ok true y := by
    apply Act.define_of_ok
    exact Heap.define_ok_iff.mpr ⟨x, Object.define_absent plain absent extensible, rfl⟩
  have hstored : (y.heap.object o).ownProperty? key = some d.toProperty := by
    rw [Heap.object_replace_same x ho, Object.ownProperty?_store_same]
  have heffect : u.heap.Effect host.limit (.define o key d) y.heap :=
    .define o key d x (Object.define_absent plain absent extensible)
  have hfunctions : ∀ f ∈ d.toProperty.slot.functions, (y.heap.object f).isCallable = true := by
    intro f hf
    have hcall := Heap.functions_toProperty getter setter f hf
    exact (heffect.step (Heap.index_lt_of_isCallable hcall)).isCallable.trans hcall
  refine ⟨_, _, _, y, _, hdefine, hstored, rfl, Host.toDescriptor_toObject hfunctions _,
    ?_, ?_⟩
  · rw [Descriptor.ofProperty_toProperty getter setter]
    exact Descriptor.within_completed plain
  · rw [Descriptor.ofProperty_toProperty getter setter, Descriptor.same_iff]

/-- A getter that deletes the key of its own name from its receiver. -/
def Body.drop {σ : Type} : Body σ := fun _ c this _ =>
  match this with
  | .object o => do
    discard (Act.delete o c.name false)
    return .boolean true
  | _ => return .undefined

theorem Body.drop_lawful {σ : Type} [Mentions σ] : (Body.drop : Body σ).Lawful := by
  intro host w c this args _ hw ht _
  cases this with
  | object o =>
    apply Act.keeps_bind (Act.keeps_discard (Act.delete_keeps hw.closed (below_object.mp ht) false))
    intro _ u hu _
    exact Act.keeps_pure hu.closed (below_of_isObject_eq_false rfl)
  | _ => exact Act.keeps_pure hw.closed (below_of_isObject_eq_false rfl)

/-- An object that describes a getter and a flag that no accessor has, and whose first field is
read by a callable. -/
def selfDroppingHeap : Heap :=
  let h := Heap.empty.push (.ordinary none)
  let h := h.push (.ofCallable ⟨"writable", 0⟩ none)
  let h := h.apply .default (.define ⟨0⟩ "enumerable" (.accessor (some ⟨1⟩) none true true))
  let h := h.apply .default (.define ⟨0⟩ "writable" (.data (.boolean true) true true true))
  h.apply .default (.define ⟨0⟩ "get" (.data (.object ⟨1⟩) true true true))

theorem reachable_selfDroppingHeap :
    ({ World.start () with heap := selfDroppingHeap } : World Unit).Reachable .default := by
  have plain {n : Nat} {v : Value} (hv : v.isObject = false) : Below n (some v) :=
    below_some.mpr (below_of_isObject_eq_false hv)
  have callable {n : Nat} (hn : 1 < n) : Below n (some (Value.object ⟨1⟩)) :=
    below_some.mpr (below_object.mpr hn)
  have evolves : Heap.empty.Evolves .default _ _ :=
    ((((Heap.Evolves.start.change (.create .ordinary none) below_none).change
      (.create (.function ⟨"writable", 0⟩) none) below_none).change
      (.define ⟨0⟩ "enumerable" (.accessor (some ⟨1⟩) none true true))
      (below_change_define.mpr ⟨by decide, below_descriptor.mpr
        ⟨below_none, callable (by decide), plain rfl⟩⟩)).change
      (.define ⟨0⟩ "writable" (.data (.boolean true) true true true))
      (below_change_define.mpr ⟨by decide, below_descriptor.mpr
        ⟨plain rfl, below_none, below_none⟩⟩)).change
      (.define ⟨0⟩ "get" (.data (.object ⟨1⟩) true true true))
      (below_change_define.mpr ⟨by decide, below_descriptor.mpr
        ⟨callable (by decide), below_none, below_none⟩⟩)
  exact World.reachable_of_evolves below_unit evolves

/-- The flag is gone when its turn comes, so the descriptor is that of an accessor; it creates the
property under the key of the flag, on the very object that it was read from. -/
theorem read_descriptor_defines_dropping :
    let d : Descriptor := { getter := some (.object ⟨1⟩), enumerable := some true }
    ∃ u p q e y z,
      (Host.nested .default .drop 1).toDescriptor (.object ⟨0⟩)
        { World.start () with heap := selfDroppingHeap } = .ok d u ∧
      Act.define ⟨0⟩ "writable" d true u = .ok true y ∧
      (y.heap.object ⟨0⟩).ownProperty? "writable" = some p ∧
      Act.describe (some p) y = .ok (.object q) z ∧
      (Host.nested .default .drop 1).toDescriptor (.object q) z = .ok e z ∧
      d.Within e ∧ e.same d.completed = true := by
  intro d
  have law : (Host.nested .default .drop 1 : Host Unit).Lawful :=
    Host.nested_lawful Body.drop_lawful .default 1
  have hv : Below selfDroppingHeap.size (Value.object ⟨0⟩) := below_object.mpr (by decide)
  let x := selfDroppingHeap.object ⟨0⟩
  let u : World Unit :=
    { World.start () with heap := selfDroppingHeap.replace ⟨0⟩ (x.erase "writable") }
  have called : (Host.nested .default .drop 1).get ⟨0⟩ "enumerable"
      { World.start () with heap := selfDroppingHeap } = .ok (.boolean true) u := by
    rw [Host.get, Host.getProperty_bind (Heap.lookup_of_own rfl)]
    rfl
  have flag : (Host.nested .default .drop 1).readField ⟨0⟩ "enumerable"
      { World.start () with heap := selfDroppingHeap } = .ok (some (.boolean true)) u :=
    Host.readField_of_get rfl called
  have getter : (Host.nested .default .drop 1).readField ⟨0⟩ "get" u =
      .ok (some (.object ⟨1⟩)) u := Host.readField_of_get rfl (Host.get_of_own rfl)
  have none_of : ∀ key, (u.heap.object ⟨0⟩).hasOwn key = false →
      (Host.nested .default .drop 1).readField ⟨0⟩ key u = .ok none u :=
    fun _ => Host.readField_of_absent
  have callable : u.heap.FunctionField (some (.object ⟨1⟩)) := by
    rintro _ ⟨⟩
    rfl
  have absent : u.heap.FunctionField none := fun _ hf => absurd hf (by simp)
  have read : (Host.nested .default .drop 1).toDescriptor (.object ⟨0⟩)
      { World.start () with heap := selfDroppingHeap } = .ok d u := by
    rw [Host.toDescriptor, Act.bind_of_ok (Host.readFlag_of_readField flag),
      Act.bind_of_ok (Host.readFlag_of_readField (none_of "configurable" rfl)),
      Act.bind_of_ok (none_of "value" rfl),
      Act.bind_of_ok (Host.readFlag_of_readField (none_of "writable" rfl)),
      Act.bind_of_ok (Host.readFunction_of_readField getter callable _),
      Act.bind_of_ok (Host.readFunction_of_readField (none_of "set" rfl) absent _)]
    rfl
  obtain ⟨p, q, e, y, z, rest⟩ :=
    (read_descriptor_defines law reachable_selfDroppingHeap hv read).2 ⟨0⟩ "writable" true
      (by decide) rfl rfl
  exact ⟨u, p, q, e, y, z, read, rest⟩

end EcmaCore
