import EcmaCore.Proofs.Acceptance

/-!
# What a definition does

A definition is judged by a sequence of checks with early ends. Here it is described without them:
when it is accepted, and what each field of the property is afterwards. The two ends that come early
because nothing new is asked for agree with this, since a revision that asks for nothing new is
admitted and leaves the property as it is.
-/
namespace EcmaCore

namespace Value

/-- Whether a value can stand for a slot of a function: an object, or `undefined` for none. -/
def fitsSlot : Value → Bool
  | undefined | object _ => true
  | _ => false

theorem ofSlot_asObject? {v : Value} (h : v.fitsSlot = true) : ofSlot v.asObject? = v := by
  cases v with
  | undefined => rfl
  | object o => rfl
  | _ => cases h

@[simp] theorem fitsSlot_ofSlot (slot : Option ObjectId) : (ofSlot slot).fitsSlot = true := by
  cases slot <;> rfl

end Value

namespace Descriptor
variable {d : Descriptor} {p : Property}

/-- The function fields that are present hold an object or `undefined`. -/
structure FitsSlots (d : Descriptor) : Prop where
  getter : ∀ f ∈ d.getter, f.fitsSlot = true
  setter : ∀ f ∈ d.setter, f.fitsSlot = true

/-- Whether a definition comes to an accessor: if the descriptor speaks of functions, or of the flags
at most and what is there is an accessor. -/
def makesAccessor (d c : Descriptor) : Bool := d.isAccessor || (d.isGeneric && c.isAccessor)

@[simp] theorem makesAccessor_empty (d : Descriptor) : d.makesAccessor .empty = d.isAccessor := by
  have hempty : empty.isAccessor = false := rfl
  simp [makesAccessor, hempty]

/-- The complete description with the fields of a descriptor, with those of another description
where the descriptor leaves them open, and with defaults where both do. -/
def fill (d c : Descriptor) : Descriptor where
  value := if d.makesAccessor c then none else some ((d.value.or c.value).getD .undefined)
  writable := if d.makesAccessor c then none else some ((d.writable.or c.writable).getD false)
  getter := if d.makesAccessor c then some ((d.getter.or c.getter).getD .undefined) else none
  setter := if d.makesAccessor c then some ((d.setter.or c.setter).getD .undefined) else none
  enumerable := some ((d.enumerable.or c.enumerable).getD false)
  configurable := some ((d.configurable.or c.configurable).getD false)

@[simp] theorem isAccessor_ofProperty (p : Property) : (ofProperty p).isAccessor = p.isAccessor := by
  obtain ⟨slot, _, _⟩ := p
  cases slot <;> rfl

@[simp] theorem isData_ofProperty (p : Property) : (ofProperty p).isData = p.isData := by
  obtain ⟨slot, _, _⟩ := p
  cases slot <;> rfl

theorem eq_empty_of_isEmpty (h : d.isEmpty = true) : d = empty := by
  obtain ⟨value, writable, getter, setter, enumerable, configurable⟩ := d
  simp_all [isEmpty, isGeneric, isData, isAccessor, empty]

/-- A function field shows again as it was, and an open one as `undefined`. -/
theorem ofSlot_function? {field : Option Value} (fits : ∀ f ∈ field, f.fitsSlot = true) :
    Value.ofSlot (function? field) = field.getD .undefined := by
  cases field with
  | none => rfl
  | some f => exact Value.ofSlot_asObject? (fits f rfl)

/-- A slot for a function, once a field is put in, shows the field or else as before. -/
theorem ofSlot_filled {field : Option Value} (slot : Option ObjectId)
    (fits : ∀ f ∈ field, f.fitsSlot = true) :
    Value.ofSlot (if field.isSome then function? field else slot) =
      field.getD (.ofSlot slot) := by
  cases field with
  | none => rfl
  | some f => exact Value.ofSlot_asObject? (fits f rfl)

/-- A new property is described by the fields of the descriptor, filled in with defaults. -/
theorem ofProperty_toProperty_of_fits (fits : d.FitsSlots) :
    ofProperty d.toProperty = d.fill .empty := by
  cases ha : d.isAccessor <;>
    simp [toProperty, fill, ha, ofProperty, data, accessor, ofSlot_function? fits.getter,
      ofSlot_function? fits.setter] <;>
    simp [empty]

end Descriptor

namespace Property
variable {p : Property} {d : Descriptor}

/-- What a descriptor may ask of a property that is not configurable. -/
structure Admits (p : Property) (d : Descriptor) : Prop where
  configurable : d.configurable ≠ some true
  enumerable : ∀ e ∈ d.enumerable, e = p.enumerable
  data : d.isData = true → p.isData = true
  accessor : d.isAccessor = true → p.isAccessor = true
  frozen : ∀ value, p.slot = .data value false →
    d.writable ≠ some true ∧ ∀ v ∈ d.value, v.sameValue value = true
  functions : ∀ getter setter, p.slot = .accessor getter setter →
    (∀ f ∈ d.getter, f.sameValue (.ofSlot getter) = true) ∧
    ∀ f ∈ d.setter, f.sameValue (.ofSlot setter) = true

/-- A field that does not differ from a value is open or holds the value. -/
theorem any_differs_eq_false_iff {field : Option Value} {v : Value} :
    field.any (fun u => !u.sameValue v) = false ↔ ∀ u ∈ field, u.sameValue v = true := by
  cases field <;> simp

theorem flagRefusal?_eq_none_iff_fields (hc : p.configurable = false) :
    p.flagRefusal? d = none ↔ d.configurable ≠ some true ∧ ∀ e ∈ d.enumerable, e = p.enumerable := by
  rw [flagRefusal?_eq_none_iff hc]
  rcases d.configurable with _ | _ | _ <;> cases d.enumerable <;> simp

theorem contentRefusal?_eq_none_iff : p.contentRefusal? d = none ↔
    (∀ value, p.slot = .data value false →
      d.writable ≠ some true ∧ ∀ v ∈ d.value, v.sameValue value = true) ∧
    ∀ getter setter, p.slot = .accessor getter setter →
      (∀ f ∈ d.getter, f.sameValue (.ofSlot getter) = true) ∧
      ∀ f ∈ d.setter, f.sameValue (.ofSlot setter) = true := by
  unfold contentRefusal?
  split
  next value hslot =>
    simp only [hslot, Slot.data.injEq, and_true, ← any_differs_eq_false_iff]
    split <;> simp_all
  next hslot => simp [hslot]
  next getter setter hslot =>
    simp only [hslot, Slot.accessor.injEq, ← any_differs_eq_false_iff]
    split <;> simp_all

/-- The kinds agree as far as the descriptor has one. -/
theorem kind_agrees_iff (plain : d.isMixed = false) : d.isGeneric = true ∨ p.isData = d.isData ↔
    (d.isData = true → p.isData = true) ∧ (d.isAccessor = true → p.isAccessor = true) := by
  cases hd : d.isData <;> cases ha : d.isAccessor <;>
    simp_all [Descriptor.isMixed, Descriptor.isGeneric, isAccessor, isData]

theorem slotRefusal?_eq_none_iff_kind (hc : p.configurable = false) :
    p.slotRefusal? d = none ↔
      (d.isGeneric = true ∨ p.isData = d.isData) ∧ p.contentRefusal? d = none := by
  unfold slotRefusal?
  by_cases hd : d.isGeneric = true
  · simp [hd, contentRefusal?_of_isGeneric p hd]
  · by_cases hk : p.isData = d.isData <;> simp [hc, hd, hk]

/-- The checks of a revision together admit what a property that is not configurable admits. -/
theorem refusal?_eq_none_iff_admits (hc : p.configurable = false) (plain : d.isMixed = false) :
    p.refusal? d = none ↔ p.Admits d := by
  -- The order of the checks goes: all that counts is that none has a reason.
  rw [refusal?_eq_none_iff, flagRefusal?_eq_none_iff_fields hc, slotRefusal?_eq_none_iff_kind hc,
    kind_agrees_iff plain, contentRefusal?_eq_none_iff]
  constructor
  · rintro ⟨⟨hconf, henum⟩, ⟨hdata, haccessor⟩, hfrozen, hfunctions⟩
    exact ⟨hconf, henum, hdata, haccessor, hfrozen, hfunctions⟩
  · rintro ⟨hconf, henum, hdata, haccessor, hfrozen, hfunctions⟩
    exact ⟨⟨hconf, henum⟩, ⟨hdata, haccessor⟩, hfrozen, hfunctions⟩

theorem refusal?_eq_none_iff_configurable (plain : d.isMixed = false) :
    p.refusal? d = none ↔ p.configurable = true ∨ p.Admits d := by
  cases hc : p.configurable with
  | true => simp [refusal?_of_configurable d hc]
  | false => simp [refusal?_eq_none_iff_admits hc plain]

theorem admits_empty (p : Property) : p.Admits .empty := by
  constructor <;> simp [Descriptor.empty, Descriptor.isData, Descriptor.isAccessor]

/-- A property that is not configurable admits the complete description of itself. -/
theorem admits_ofProperty (hc : p.configurable = false) : p.Admits (.ofProperty p) := by
  obtain ⟨slot, e, c⟩ := p
  obtain rfl : c = false := hc
  cases slot <;> constructor <;>
    simp +contextual [Descriptor.ofProperty, Descriptor.data, Descriptor.accessor, isData,
      isAccessor, Slot.isData, Descriptor.isData, Descriptor.isAccessor]

@[simp] theorem revise_empty (p : Property) : p.revise .empty = p := by
  obtain ⟨slot, e, c⟩ := p
  cases slot <;> rfl

@[simp] theorem revise_ofProperty (p : Property) : p.revise (.ofProperty p) = p := by
  obtain ⟨slot, e, c⟩ := p
  cases slot <;>
    simp [revise, startSlot, fillSlot, Descriptor.ofProperty, Descriptor.data, Descriptor.accessor,
      isData, Slot.isData, Descriptor.isData, Descriptor.isGeneric, Descriptor.isAccessor,
      Descriptor.function?]

/-- The slot that a revision starts from, by the kind that it comes to. -/
theorem startSlot_data (plain : d.isMixed = false) (value : Value) (writable e c : Bool) :
    Property.startSlot ⟨.data value writable, e, c⟩ d =
      if d.isAccessor then .accessor none none else .data value writable := by
  cases hd : d.isData <;> cases ha : d.isAccessor <;>
    simp_all [Descriptor.isMixed, Descriptor.isGeneric, isData, Slot.isData, startSlot]

theorem startSlot_accessor (plain : d.isMixed = false) (getter setter : Option ObjectId)
    (e c : Bool) :
    Property.startSlot ⟨.accessor getter setter, e, c⟩ d =
      if d.isData then .data .undefined false else .accessor getter setter := by
  cases hd : d.isData <;> cases ha : d.isAccessor <;>
    simp_all [Descriptor.isMixed, Descriptor.isGeneric, isData, Slot.isData, startSlot]

/-- A revision is described by the fields of the descriptor, filled in from those of before. -/
theorem ofProperty_revise (plain : d.isMixed = false) (fits : d.FitsSlots) :
    .ofProperty (p.revise d) = d.fill (.ofProperty p) := by
  have hgetter := fun slot => Descriptor.ofSlot_filled slot fits.getter
  have hsetter := fun slot => Descriptor.ofSlot_filled slot fits.setter
  obtain ⟨slot, e, c⟩ := p
  cases slot with
  | data value writable =>
    have hkind : d.makesAccessor (.ofProperty ⟨.data value writable, e, c⟩) = d.isAccessor := by
      simp [Descriptor.makesAccessor, isAccessor, Slot.isData]
    rw [Descriptor.fill, hkind, revise, startSlot_data plain]
    cases d.isAccessor <;>
      simp [fillSlot, Descriptor.ofProperty, Descriptor.data, Descriptor.accessor, hgetter, hsetter]
    exact ⟨rfl, rfl⟩
  | accessor getter setter =>
    have hkind : d.makesAccessor (.ofProperty ⟨.accessor getter setter, e, c⟩) = !d.isData := by
      cases hd : d.isData <;> cases ha : d.isAccessor <;>
        simp_all [Descriptor.makesAccessor, Descriptor.isGeneric, Descriptor.isMixed, isAccessor,
          Slot.isData]
    rw [Descriptor.fill, hkind, revise, startSlot_accessor plain]
    cases d.isData <;>
      simp [fillSlot, Descriptor.ofProperty, Descriptor.data, Descriptor.accessor, hgetter, hsetter]

end Property

namespace Object
variable {x y : Object} {key : String} {d : Descriptor}

/-- Two states of an object that differ under one key at most. -/
structure SameBut (key : String) (x y : Object) : Prop where
  kind : y.kind = x.kind
  prototype : y.prototype = x.prototype
  extensible : y.extensible = x.extensible
  others : ∀ k, k ≠ key → y.ownProperty? k = x.ownProperty? k

theorem SameBut.refl (key : String) (x : Object) : SameBut key x x := ⟨rfl, rfl, rfl, fun _ _ => rfl⟩

theorem sameBut_store (x : Object) (key : String) (p : Property) : SameBut key x (x.store key p) :=
  ⟨rfl, rfl, rfl, fun _ hk => ownProperty?_store_other x p hk⟩

theorem sameBut_define (h : x.define key d = .ok y) : SameBut key x y := by
  rcases define_cases h with ⟨_, _, rfl⟩ | ⟨_, _, rfl⟩ | ⟨_, _, _, rfl⟩
  · exact sameBut_store x key _
  · exact .refl key _
  · exact sameBut_store x key _

/-- When a definition is accepted. -/
def Accepts (x : Object) (key : String) (d : Descriptor) : Prop :=
  (x.ownProperty? key = none ∧ x.extensible = true) ∨
  ∃ p, x.ownProperty? key = some p ∧ (p.configurable = true ∨ p.Admits d)

theorem accepts_of_absent (ha : x.ownProperty? key = none) :
    x.Accepts key d ↔ x.extensible = true := by
  simp [Accepts, ha]

theorem accepts_of_own {p : Property} (hp : x.ownProperty? key = some p) :
    x.Accepts key d ↔ p.configurable = true ∨ p.Admits d := by
  simp [Accepts, hp]

/-- A descriptor asks a property for nothing new if it is empty or describes it completely. -/
theorem nothing_new {p : Property} (h : (d.isEmpty || (Descriptor.ofProperty p).same d) = true) :
    (p.configurable = true ∨ p.Admits d) ∧ p.revise d = p := by
  rcases Bool.or_eq_true_iff.mp h with hempty | hsame
  · rw [Descriptor.eq_empty_of_isEmpty hempty]
    exact ⟨.inr p.admits_empty, p.revise_empty⟩
  · rw [← (Descriptor.same_iff _ _).mp hsame]
    refine ⟨?_, p.revise_ofProperty⟩
    cases hc : p.configurable with
    | true => exact .inl rfl
    | false => exact .inr (Property.admits_ofProperty hc)

theorem define_ok_iff_accepts (plain : d.isMixed = false) :
    (∃ y, x.define key d = .ok y) ↔ x.Accepts key d := by
  simp only [define, plain, Bool.false_eq_true, if_false]
  split
  next ha =>
    rw [accepts_of_absent ha]
    split <;> simp_all
  next p hp =>
    rw [accepts_of_own hp]
    split
    next hnew => simp [(nothing_new hnew).1]
    next =>
      rw [← Property.refusal?_eq_none_iff_configurable plain]
      split <;> simp_all

/-- What an accepted definition leaves under its key: a new property or a revised one. -/
theorem ownProperty?_define (h : x.define key d = .ok y) :
    y.ownProperty? key = some ((x.ownProperty? key).elim d.toProperty (·.revise d)) := by
  unfold define at h
  split at h
  · cases h
  · split at h
    next ha =>
      split at h
      next => cases h; simp [ha]
      next => cases h
    next p hp =>
      split at h
      -- The early end stores nothing, as a revision that asks for nothing new would.
      next hnew => cases h; simp [hp, (nothing_new hnew).2]
      next =>
        split at h
        next => cases h
        next => cases h; simp [hp]

/-- The complete description of what is under a key, empty if there is nothing. -/
def described (x : Object) (key : String) : Descriptor := (x.ownProperty? key).elim .empty .ofProperty

theorem described_define (plain : d.isMixed = false) (fits : d.FitsSlots)
    (h : x.define key d = .ok y) : y.described key = d.fill (x.described key) := by
  rw [described, ownProperty?_define h, described]
  cases x.ownProperty? key with
  | none => exact Descriptor.ofProperty_toProperty_of_fits fits
  | some p => exact Property.ofProperty_revise plain fits

end Object

variable {σ : Type} {w u : World σ} {o : ObjectId} {key : String} {d : Descriptor} {strict : Bool}

/-- Two worlds that differ under one key of one object at most. -/
structure World.SameBut (o : ObjectId) (key : String) (w u : World σ) : Prop where
  realm : u.realm = w.realm
  scopes : u.scopes = w.scopes
  host : u.host = w.host
  object : (w.heap.object o).SameBut key (u.heap.object o)
  others : ∀ p, p ≠ o → u.heap.object p = w.heap.object p

theorem World.sameBut_replace {y : Object} (ho : o.index < w.heap.size)
    (hy : (w.heap.object o).SameBut key y) :
    w.SameBut o key { w with heap := w.heap.replace o y } where
  realm := rfl
  scopes := rfl
  host := rfl
  object := by
    rw [Heap.object_replace_same y ho]
    exact hy
  others _ hp := Heap.object_replace_other y hp

/-- A definition whose descriptor is not mixed is accepted exactly if the object accepts it, be it
strict or not. The property under the key then has the fields of the descriptor, those it had
before where the descriptor leaves them open, and defaults for the rest; nothing else changes. -/
theorem definition_is_exact (plain : d.isMixed = false) (fits : d.FitsSlots) (w : World σ)
    (ho : o.index < w.heap.size) (key : String) (strict : Bool) :
    ((∃ u, Act.define o key d strict w = .ok true u) ↔ (w.heap.object o).Accepts key d) ∧
    ∀ u, Act.define o key d strict w = .ok true u →
      (∃ q, (u.heap.object o).ownProperty? key = some q ∧
        Descriptor.ofProperty q = d.fill ((w.heap.object o).described key)) ∧
      w.SameBut o key u := by
  constructor
  · rw [← Object.define_ok_iff_accepts plain]
    constructor
    · rintro ⟨u, hu⟩
      obtain ⟨y, hy, _⟩ := Act.define_ok_true_iff.mp hu
      exact ⟨y, hy⟩
    · rintro ⟨y, hy⟩
      exact ⟨_, Act.define_ok_true_iff.mpr ⟨y, hy, rfl⟩⟩
  · intro u hu
    obtain ⟨y, hy, rfl⟩ := Act.define_ok_true_iff.mp hu
    have hown := Object.ownProperty?_define hy
    have hdescribed := Object.described_define plain fits hy
    rw [Object.described, hown] at hdescribed
    refine ⟨⟨_, ?_, hdescribed⟩, World.sameBut_replace ho (Object.sameBut_define hy)⟩
    rw [Heap.object_replace_same y ho, hown]

/-- An object with an accessor that is not configurable, and its getter. -/
def accessorHeap : Heap :=
  let x := (Object.ordinary none).store "x" (.accessor (some ⟨1⟩) none true false)
  (Heap.empty.push x).push (.ofCallable ⟨"getter", 0⟩ none)

/-- The accessor admits its own functions and stays as it is, also with the flags left open. -/
theorem definition_is_exact_locked :
    let w : World Unit := { World.start () with heap := accessorHeap }
    let d : Descriptor := { getter := some (.object ⟨1⟩), setter := some .undefined }
    ∃ u q, Act.define ⟨0⟩ "x" d true w = .ok true u ∧
      (u.heap.object ⟨0⟩).ownProperty? "x" = some q ∧
      Descriptor.ofProperty q = .accessor (some ⟨1⟩) none true false ∧ w.SameBut ⟨0⟩ "x" u := by
  intro w d
  have fits : d.FitsSlots := ⟨by rintro _ ⟨⟩; rfl, by rintro _ ⟨⟩; rfl⟩
  have hp : (w.heap.object ⟨0⟩).ownProperty? "x" = some (.accessor (some ⟨1⟩) none true false) := rfl
  have admits : (Property.accessor (some ⟨1⟩) none true false).Admits d := by
    constructor
    case functions =>
      rintro _ _ ⟨⟩
      exact ⟨by rintro _ ⟨⟩; rfl, by rintro _ ⟨⟩; rfl⟩
    all_goals simp [d, Descriptor.isData, Property.accessor, Property.isAccessor, Slot.isData]
  obtain ⟨accepts, result⟩ := definition_is_exact rfl fits w (o := ⟨0⟩) (by decide) "x" true
  obtain ⟨u, hu⟩ := accepts.mpr ((Object.accepts_of_own hp).mpr (.inr admits))
  obtain ⟨⟨q, hq, hd⟩, hsame⟩ := result u hu
  rw [Object.described, hp] at hd
  exact ⟨u, q, hu, hq, hd.trans rfl, hsame⟩

end EcmaCore
