import EcmaCore.Proofs.Reentry

/-!
# Locked properties

A property that is not configurable keeps its flag for enumeration, its kind and the functions of an
accessor, and once its value cannot be written the value stays. A revision that is accepted keeps
all this, no other step touches the property, and so no run of operations does.
-/
namespace EcmaCore

/-- What may come of a slot whose property is not configurable. -/
def Slot.Locks : Slot → Slot → Prop
  | .data value false, .data v w => w = false ∧ v.sameValue value = true
  | .data _ true, .data _ _ => True
  | .accessor getter setter, .accessor g s => g = getter ∧ s = setter
  | _, _ => False

theorem Slot.Locks.refl (s : Slot) : s.Locks s := by
  rcases s with ⟨_, _ | _⟩ | _ <;> simp [Slot.Locks]

theorem Slot.Locks.trans {r s t : Slot} (hrs : r.Locks s) (hst : s.Locks t) : r.Locks t := by
  rcases r with ⟨a, _ | _⟩ | ⟨g, f⟩
  case data.false =>
    rcases s with ⟨b, c⟩ | _
    · obtain ⟨rfl, hb⟩ := hrs
      obtain rfl := (Value.sameValue_iff _ _).mp hb
      exact hst
    · cases hrs
  case data.true =>
    rcases s with ⟨b, _ | _⟩ | _
    · cases t with
      | data => trivial
      | accessor => cases hst
    · cases t with
      | data => trivial
      | accessor => cases hst
    · cases hrs
  case accessor =>
    cases s with
    | data => cases hrs
    | accessor =>
      obtain ⟨rfl, rfl⟩ := hrs
      exact hst

namespace Property

/-- What may come of a property that is not configurable. -/
structure Locks (p q : Property) : Prop where
  configurable : q.configurable = false
  enumerable : q.enumerable = p.enumerable
  slot : p.slot.Locks q.slot

theorem Locks.refl {p : Property} (hc : p.configurable = false) : p.Locks p :=
  ⟨hc, rfl, .refl _⟩

theorem Locks.trans {p q r : Property} (hpq : p.Locks q) (hqr : q.Locks r) : p.Locks r :=
  ⟨hqr.configurable, hqr.enumerable.trans hpq.enumerable, hpq.slot.trans hqr.slot⟩

/-- A function field that agrees with a slot stands for the function of the slot. -/
theorem function?_of_agrees {field : Option Value} {slot : Option ObjectId}
    (h : field.any (fun v => !v.sameValue (.ofSlot slot)) = false) :
    (if field.isSome then Descriptor.function? field else slot) = slot := by
  cases field with
  | none => rfl
  | some v =>
    have hv : v = .ofSlot slot := by simpa using h
    simp [Descriptor.function?, hv]

/-- A descriptor without a reason against it fills a slot as the lock allows. -/
theorem locks_fillSlot {p : Property} {d : Descriptor} (h : p.contentRefusal? d = none) :
    p.slot.Locks (fillSlot d p.slot) := by
  unfold contentRefusal? at h
  split at h
  next value hslot =>
    split at h
    · cases h
    next hw =>
      split at h
      · cases h
      next hv =>
        rw [hslot]
        have hwritable : d.writable.getD false = false := by
          rcases hd : d.writable with _ | _ | _ <;> simp_all
        have hvalue : d.value.getD value = value := by
          cases hd : d.value <;> simp_all
        simp only [fillSlot, hwritable, hvalue]
        exact .refl _
  next hslot =>
    rw [hslot]
    trivial
  next getter setter hslot =>
    split at h
    · cases h
    next hs =>
      split at h
      · cases h
      next hg =>
        rw [hslot]
        simp only [fillSlot, function?_of_agrees (Bool.not_eq_true _ ▸ hg),
          function?_of_agrees (Bool.not_eq_true _ ▸ hs)]
        exact .refl _

/-- A revision that is not refused keeps what is locked. -/
theorem locks_revise {p : Property} {d : Descriptor} (hc : p.configurable = false)
    (h : p.refusal? d = none) : p.Locks (p.revise d) := by
  obtain ⟨hflags, hslot⟩ := refusal?_eq_none_iff.mp h
  obtain ⟨hconf, henum⟩ := (flagRefusal?_eq_none_iff hc).mp hflags
  obtain ⟨hcontent, hstart⟩ := (slotRefusal?_eq_none_iff hc).mp hslot
  constructor
  case configurable =>
    rw [revise, hc]
    exact hconf
  case enumerable => exact henum
  case slot =>
    rw [revise, hstart]
    exact locks_fillSlot hcontent

end Property

/-- No step of an object breaks the lock of a property. -/
theorem Object.Step.locks {x y : Object} (h : x.Step y) {key : String} {p : Property}
    (hp : x.ownProperty? key = some p) (hc : p.configurable = false) :
    ∃ q, y.ownProperty? key = some q ∧ p.Locks q := by
  cases h with
  | same => exact ⟨p, hp, .refl hc⟩
  | create k d absent _ =>
    have hne : key ≠ k := by
      rintro rfl
      rw [absent] at hp
      cases hp
    exact ⟨p, by rw [ownProperty?_store_other x _ hne, hp], .refl hc⟩
  | revise k d r present accepted =>
    by_cases hk : key = k
    · subst hk
      obtain rfl : p = r := Option.some.inj (hp.symm.trans present)
      exact ⟨p.revise d, ownProperty?_store_same x _ _, Property.locks_revise hc accepted⟩
    · exact ⟨p, by rw [ownProperty?_store_other x _ hk, hp], .refl hc⟩
  | erase k r present configurable =>
    have hne : key ≠ k := by
      rintro rfl
      obtain rfl : p = r := Option.some.inj (hp.symm.trans present)
      rw [hc] at configurable
      cases configurable
    exact ⟨p, by rw [ownProperty?_erase_other x hne, hp], .refl hc⟩
  | preventExtensions => exact ⟨p, hp, .refl hc⟩
  | link prototype _ => exact ⟨p, hp, .refl hc⟩

/-- A run of changes keeps a locked property, since each of its steps does. -/
theorem Heap.Evolves.locks {limit : DepthLimit} {h k : Heap} {cs : List Change}
    (hk : h.Evolves limit cs k) {o : ObjectId} {key : String} {p : Property}
    (hp : (h.object o).ownProperty? key = some p) (hc : p.configurable = false) :
    ∃ q, (k.object o).ownProperty? key = some q ∧ p.Locks q := by
  let P (x : Object) : Prop := ∃ q, x.ownProperty? key = some q ∧ p.Locks q
  have hstep : ∀ x y, x.Step y → P x → P y := by
    rintro x y hxy ⟨q, hq, hpq⟩
    obtain ⟨r, hr, hqr⟩ := hxy.locks hq hpq.configurable
    exact ⟨r, hr, hpq.trans hqr⟩
  exact hk.preserves hstep (index_lt_of_ownProperty? hp) ⟨p, hp, .refl hc⟩

variable {σ : Type} [Mentions σ] {host : Host σ} {v w : World σ}

/-- A property that is not configurable stays through every run of operations, whatever the
callables do, and stays locked. -/
theorem locked_property_stays (law : host.Lawful) (hw : w.Reachable host.limit)
    {ops : List Operation} (run : host.Performs w ops v) {o : ObjectId} {key : String}
    {p : Property} (hp : (w.heap.object o).ownProperty? key = some p)
    (hc : p.configurable = false) :
    ∃ q, (v.heap.object o).ownProperty? key = some q ∧ p.Locks q := by
  obtain ⟨_, cs, hcs⟩ := run.leads law hw
  exact hcs.locks hp hc

/-- An object with a locked accessor, and a callable that meddles with the key of that accessor. -/
def lockedHeap : Heap :=
  let h := Heap.empty.push (.ordinary none)
  let h := h.push (.ofCallable ⟨"x", 0⟩ none)
  h.apply .default (.define ⟨0⟩ "x" (.accessor (some ⟨1⟩) none true false))

theorem reachable_lockedHeap :
    ({ World.start () with heap := lockedHeap } : World Unit).Reachable .default := by
  have hx : Heap.empty.Evolves .default _ _ :=
    ((Heap.Evolves.start.change (.create .ordinary none) below_none).change
      (.create (.function ⟨"x", 0⟩) none) below_none).change
      (.define ⟨0⟩ "x" (.accessor (some ⟨1⟩) none true false))
      (below_change_define.mpr ⟨by decide, below_descriptor.mpr ⟨below_none,
        below_some.mpr (below_object.mpr (by decide)),
        below_some.mpr (below_of_isObject_eq_false rfl)⟩⟩)
  exact World.reachable_of_evolves below_unit hx

/-- The accessor survives a callable that meddles with it, calls within calls. -/
theorem locked_property_stays_meddled :
    ∃ v q, (Host.nested .default .meddle 3).Performs { World.start () with heap := lockedHeap }
        [.call (.object ⟨1⟩) (.object ⟨0⟩) [.object ⟨1⟩]] v ∧
      (v.heap.object ⟨0⟩).ownProperty? "x" = some q ∧
      (Property.accessor (some ⟨1⟩) none true false).Locks q := by
  have hf : Below lockedHeap.size (Value.object ⟨1⟩) := below_object.mpr (by decide)
  have ht : Below lockedHeap.size (Value.object ⟨0⟩) := below_object.mpr (by decide)
  have known := below_operation_call.mpr ⟨hf, ht, below_cons.mpr ⟨hf, below_nil⟩⟩
  have run : (Host.nested .default .meddle 3).Performs
      { World.start () with heap := lockedHeap } _ _ := .operation known (.done _)
  have hp : (lockedHeap.object ⟨0⟩).ownProperty? "x" =
      some (.accessor (some ⟨1⟩) none true false) := by decide +kernel
  obtain ⟨q, hq, hl⟩ := locked_property_stays (Host.nested_lawful Body.meddle_lawful .default 3)
    reachable_lockedHeap run hp rfl
  exact ⟨_, q, run, hq, hl⟩

end EcmaCore
