import EcmaCore.Proofs.Definition
import EcmaCore.Proofs.Lawful

/-!
# Definitions that are repeated

An accepted definition leaves a property that has the fields of its descriptor, so that the same
definition finds nothing to do. Whether it is accepted again is another matter. What is no object is
stored as no function, but the checks of a property that is not configurable compare a function
field as it was given, and then a field that was taken before differs from what it left.
-/
namespace EcmaCore

namespace Property
variable {p : Property} {d : Descriptor}

/-- The fields of a descriptor are put in once for all. -/
@[simp] theorem fillSlot_fillSlot (d : Descriptor) (s : Slot) :
    fillSlot d (fillSlot d s) = fillSlot d s := by
  cases s with
  | data value writable => cases hv : d.value <;> cases hw : d.writable <;> simp [fillSlot, hv, hw]
  | accessor getter setter =>
    cases hg : d.getter <;> cases hs : d.setter <;> simp [fillSlot, hg, hs]

theorem isData_fillSlot (d : Descriptor) (s : Slot) : (fillSlot d s).isData = s.isData := by
  cases s <;> rfl

theorem startSlot_of_agrees (h : d.isGeneric = true ∨ p.isData = d.isData) :
    p.startSlot d = p.slot := by
  rw [startSlot, if_pos (by simpa using h)]

/-- A revision comes to the kind of the descriptor. -/
theorem revise_agrees (p : Property) (d : Descriptor) :
    d.isGeneric = true ∨ (p.revise d).isData = d.isData := by
  rw [isData, revise, isData_fillSlot, startSlot]
  cases hg : d.isGeneric <;> cases hd : d.isData <;> cases hp : p.isData <;>
    simp_all [isData, Slot.isData]

/-- A new property is of the kind of the descriptor. -/
theorem toProperty_agrees (plain : d.isMixed = false) :
    d.isGeneric = true ∨ d.toProperty.isData = d.isData := by
  cases hd : d.isData <;> cases ha : d.isAccessor <;>
    simp_all [Descriptor.isMixed, Descriptor.isGeneric, Descriptor.toProperty, isData, Slot.isData]

@[simp] theorem revise_revise (p : Property) (d : Descriptor) :
    (p.revise d).revise d = p.revise d := by
  have hstart := startSlot_of_agrees (p.revise_agrees d)
  have hslot : fillSlot d ((p.revise d).startSlot d) = fillSlot d (p.startSlot d) := by
    rw [hstart]
    exact fillSlot_fillSlot d _
  rw [revise, hslot]
  cases he : d.enumerable <;> cases hc : d.configurable <;> simp [revise, he, hc]

theorem revise_toProperty (plain : d.isMixed = false) : d.toProperty.revise d = d.toProperty := by
  rw [revise, startSlot_of_agrees (toProperty_agrees plain)]
  have hslot : fillSlot d d.toProperty.slot = d.toProperty.slot := by
    cases ha : d.isAccessor with
    | true =>
      cases hg : d.getter <;> cases hs : d.setter <;>
        simp [Descriptor.toProperty, ha, fillSlot, Descriptor.function?, hg, hs]
    | false =>
      cases hv : d.value <;> cases hw : d.writable <;>
        simp [Descriptor.toProperty, ha, fillSlot, hv, hw]
  rw [hslot]
  cases he : d.enumerable <;> cases hc : d.configurable <;> simp [Descriptor.toProperty, he, hc]

theorem getD_eq_self_iff {α : Type} {field : Option α} {a : α} :
    field.getD a = a ↔ ∀ b ∈ field, b = a := by
  cases field <;> simp

/-- A slot for a function is kept by a field that shows again as it was given only if the field
shows the slot. -/
theorem eq_ofSlot_of_filled {field : Option Value} {slot : Option ObjectId}
    (fits : ∀ f ∈ field, f.fitsSlot = true)
    (h : (if field.isSome then Descriptor.function? field else slot) = slot) :
    ∀ f ∈ field, f = .ofSlot slot := by
  rintro f rfl
  have hf : f.asObject? = slot := h
  rw [← hf, Value.ofSlot_asObject? (fits f rfl)]

/-- A property that has the fields of a descriptor already admits it once more if its function
fields show again as they were given, and only then. -/
theorem admits_iff_fitsSlots (hc : p.configurable = false) (plain : d.isMixed = false)
    (hp : p.revise d = p) : p.Admits d ↔ d.FitsSlots := by
  have hagrees : d.isGeneric = true ∨ p.isData = d.isData := hp ▸ revise_agrees p d
  obtain ⟨hdata, haccessor⟩ := (kind_agrees_iff plain).mp hagrees
  rw [revise, startSlot_of_agrees hagrees] at hp
  obtain ⟨slot, e, c⟩ := p
  -- Each field that is put in leaves what it is put into.
  obtain ⟨hslot, he, hconf⟩ := Property.mk.inj hp
  constructor
  · intro h
    have hfunctions : ∀ f, f ∈ d.getter ∨ f ∈ d.setter → f.fitsSlot = true := by
      intro f hf
      have hd : d.isAccessor = true := by
        rcases hf with hf | hf <;> simp [Descriptor.isAccessor, Option.mem_def.mp hf]
      cases slot with
      | data => cases haccessor hd
      | accessor getter setter =>
        obtain ⟨hg, hs⟩ := h.functions getter setter rfl
        rcases hf with hf | hf
        · rw [(Value.sameValue_iff _ _).mp (hg f hf), Value.fitsSlot_ofSlot]
        · rw [(Value.sameValue_iff _ _).mp (hs f hf), Value.fitsSlot_ofSlot]
    exact ⟨fun f hf => hfunctions f (.inl hf), fun f hf => hfunctions f (.inr hf)⟩
  · intro fits
    constructor
    case configurable =>
      intro htrue
      have hfalse : d.configurable.getD false = false := by rw [← hc]; exact hconf
      rw [htrue] at hfalse
      cases hfalse
    case enumerable => exact getD_eq_self_iff.mp he
    case data => exact hdata
    case accessor => exact haccessor
    case frozen =>
      rintro value rfl
      obtain ⟨hv, hw⟩ := Slot.data.inj hslot
      refine ⟨fun htrue => ?_, fun v hv' => ?_⟩
      · rw [htrue] at hw
        cases hw
      · exact (Value.sameValue_iff _ _).mpr (getD_eq_self_iff.mp hv v hv')
    case functions =>
      rintro getter setter rfl
      obtain ⟨hg, hs⟩ := Slot.accessor.inj hslot
      exact ⟨fun f hf => (Value.sameValue_iff _ _).mpr (eq_ofSlot_of_filled fits.getter hg f hf),
        fun f hf => (Value.sameValue_iff _ _).mpr (eq_ofSlot_of_filled fits.setter hs f hf)⟩

end Property

namespace Object
variable {x y z : Object} {key : String} {d : Descriptor}

theorem plain_of_define (h : x.define key d = .ok y) : d.isMixed = false := by
  cases hm : d.isMixed with
  | false => rfl
  | true =>
    rw [define, if_pos hm] at h
    cases h

/-- After a definition the property has the fields of the descriptor. -/
theorem settled_define (h : x.define key d = .ok y) :
    ∃ p, y.ownProperty? key = some p ∧ p.revise d = p := by
  refine ⟨_, ownProperty?_define h, ?_⟩
  cases x.ownProperty? key with
  | none => exact Property.revise_toProperty (plain_of_define h)
  | some q => exact Property.revise_revise q d

/-- A definition that is accepted twice in a row does nothing the second time. -/
theorem define_define (hy : x.define key d = .ok y) (hz : y.define key d = .ok z) : z = y := by
  obtain ⟨p, hp, hrevise⟩ := settled_define hy
  have hstored : ∀ q, y = x.store key q → z = y := by
    rintro q rfl
    obtain rfl : q = p := Option.some.inj ((ownProperty?_store_same x key q).symm.trans hp)
    rcases define_cases hz with ⟨ha, _, _⟩ | ⟨_, _, rfl⟩ | ⟨r, hr, _, rfl⟩
    · rw [ha] at hp
      cases hp
    · rfl
    · obtain rfl : r = q := Option.some.inj (hr.symm.trans hp)
      rw [hrevise, store_store]
  -- What the first call stored the second stores again; if it stored nothing, they are one call.
  rcases define_cases hy with ⟨_, _, hstore⟩ | ⟨_, _, rfl⟩ | ⟨_, _, _, hstore⟩
  · exact hstored _ hstore
  · exact Except.ok.inj (hz.symm.trans hy)
  · exact hstored _ hstore

/-- When the same definition is accepted again. -/
theorem define_again_iff {p : Property} (hy : x.define key d = .ok y)
    (hp : y.ownProperty? key = some p) :
    (∃ z, y.define key d = .ok z) ↔ p.configurable = true ∨ d.FitsSlots := by
  obtain ⟨q, hq, hrevise⟩ := settled_define hy
  obtain rfl : q = p := Option.some.inj (hq.symm.trans hp)
  rw [define_ok_iff_accepts (plain_of_define hy), accepts_of_own hp]
  cases hc : q.configurable with
  | true => simp
  | false => simp [Property.admits_iff_fitsSlots hc (plain_of_define hy) hrevise]

end Object

variable {σ : Type} {w u : World σ} {o : ObjectId} {key : String} {d : Descriptor} {strict : Bool}

/-- An object that came from a definition is left as it is by the same definition, in every world. -/
theorem Act.define_again {x : Object} {v : World σ} (hx : x.define key d = .ok (u.heap.object o))
    (h : Act.define o key d strict u = .ok true v) : v = u := by
  obtain ⟨z, hz, rfl⟩ := Act.define_ok_true_iff.mp h
  rw [Object.define_define hx hz, Heap.replace_self]

/-- A definition that was accepted changes nothing when it is repeated at once, be it strict or not.
It is accepted again if the property it left is configurable or if its function fields hold objects
or `undefined`, and only then. -/
theorem accepted_definition_repeats (ho : o.index < w.heap.size)
    (accepted : Act.define o key d strict w = .ok true u) :
    ∃ p, (u.heap.object o).ownProperty? key = some p ∧ ∀ again,
      (Act.define o key d again).after u = u ∧
      (Act.define o key d again u = .ok true u ↔ p.configurable = true ∨ d.FitsSlots) := by
  obtain ⟨y, hy, hu⟩ := Act.define_ok_true_iff.mp accepted
  obtain rfl : u.heap.object o = y := by
    rw [hu]
    exact Heap.object_replace_same y ho
  obtain ⟨p, hp, _⟩ := Object.settled_define hy
  refine ⟨p, hp, fun again => ⟨?_, ?_⟩⟩
  · by_cases h : ∃ v, Act.define o key d again u = .ok true v
    · obtain ⟨v, hv⟩ := h
      rw [Act.after, hv]
      exact Act.define_again hy hv
    · exact Act.after_define_of_ne fun v hv => h ⟨v, hv⟩
  · rw [← Object.define_again_iff hy hp]
    constructor
    · intro h
      obtain ⟨z, hz, _⟩ := Act.define_ok_true_iff.mp h
      exact ⟨z, hz⟩
    · rintro ⟨z, hz⟩
      obtain ⟨v, hv⟩ : ∃ v, Act.define o key d again u = .ok true v :=
        ⟨_, Act.define_ok_true_iff.mpr ⟨z, hz, rfl⟩⟩
      rw [hv, Act.define_again hy hv]

/-- A getter that is an object, with the setter left open, is accepted every time. -/
theorem accepted_definition_repeats_getter :
    let w : World Unit := { World.start () with heap := Heap.empty.push (.ordinary none) }
    let d : Descriptor := { getter := some (.object ⟨0⟩) }
    ∃ u, Act.define ⟨0⟩ "x" d true w = .ok true u ∧
      ∀ again, Act.define ⟨0⟩ "x" d again u = .ok true u := by
  intro w d
  have fits : d.FitsSlots := ⟨by rintro _ ⟨⟩; rfl, by rintro _ ⟨⟩⟩
  obtain ⟨u, hu⟩ : ∃ u, Act.define ⟨0⟩ "x" d true w = .ok true u := ⟨_, rfl⟩
  obtain ⟨p, _, hagain⟩ := accepted_definition_repeats (o := ⟨0⟩) (by decide) hu
  exact ⟨u, hu, fun again => (hagain again).2.mpr (.inr fits)⟩

/-- A number as a getter is stored as no function, and the definition that stored it is refused when
it is repeated. -/
theorem numeric_getter_refused_again :
    let d : Descriptor := { getter := some (.number (.ofNat 5)) }
    ∃ w u : World Unit, w.Reachable .default ∧ Act.define ⟨0⟩ "x" d true w = .ok true u ∧
      Act.define ⟨0⟩ "x" d false u = .ok false u := by
  intro d
  have made : Heap.empty.Evolves .default _ (Heap.empty.push (.ordinary none)) :=
    Heap.Evolves.start.change (.create .ordinary none) below_none
  exact ⟨_, _, World.reachable_of_evolves (s := ()) below_unit made, rfl, rfl⟩

end EcmaCore
