import EcmaCore.Property

/-!
# Revising a property

What a descriptor may change of a property that exists. A configurable property takes every change.
Of one that is not, the flags and the kind stay, a value that cannot be written stays, and so do the
functions of an accessor. The checks come before any change, and their order decides which reason
is given.
-/
namespace EcmaCore

/-- Why a definition is refused. -/
inductive Refusal where
  | notExtensible
  | configurable
  | enumerable
  | kind
  | writable
  | value
  | setter
  | getter
  deriving DecidableEq, Repr

namespace Property

/-- The first reason against a change of the flags. -/
def flagRefusal? (p : Property) (d : Descriptor) : Option Refusal :=
  if p.configurable then none
  else if d.configurable = some true then some .configurable
  else if d.enumerable.any (· != p.enumerable) then some .enumerable
  else none

/-- The first reason against a change of what is stored, by a descriptor of the same kind. -/
def contentRefusal? (p : Property) (d : Descriptor) : Option Refusal :=
  match p.slot with
  | .data value false =>
    if d.writable = some true then some .writable
    else if d.value.any fun v => !v.sameValue value then some .value
    else none
  | .data _ true => none
  | .accessor getter setter =>
    if d.setter.any fun v => !v.sameValue (.ofSlot setter) then some .setter
    else if d.getter.any fun v => !v.sameValue (.ofSlot getter) then some .getter
    else none

/-- The first reason against a change of the slot. -/
def slotRefusal? (p : Property) (d : Descriptor) : Option Refusal :=
  if p.configurable || d.isGeneric then none
  else if p.isData != d.isData then some .kind
  else p.contentRefusal? d

/-- The first reason to refuse a revision. -/
def refusal? (p : Property) (d : Descriptor) : Option Refusal :=
  (p.flagRefusal? d).or (p.slotRefusal? d)

/-- The slot that a revision starts from: the present one, or an empty one of the other kind. -/
def startSlot (p : Property) (d : Descriptor) : Slot :=
  if d.isGeneric || p.isData == d.isData then p.slot
  else if p.isData then .accessor none none
  else .data .undefined false

/-- A slot with the fields of a descriptor put in. -/
def fillSlot (d : Descriptor) : Slot → Slot
  | .data value writable => .data (d.value.getD value) (d.writable.getD writable)
  | .accessor getter setter =>
    .accessor (if d.getter.isSome then Descriptor.function? d.getter else getter)
      (if d.setter.isSome then Descriptor.function? d.setter else setter)

/-- The property with the fields of a descriptor put in. -/
def revise (p : Property) (d : Descriptor) : Property where
  slot := fillSlot d (p.startSlot d)
  enumerable := d.enumerable.getD p.enumerable
  configurable := d.configurable.getD p.configurable

theorem refusal?_of_configurable {p : Property} (d : Descriptor) (h : p.configurable = true) :
    p.refusal? d = none := by
  simp [refusal?, flagRefusal?, slotRefusal?, h]

theorem refusal?_eq_none_iff {p : Property} {d : Descriptor} :
    p.refusal? d = none ↔ p.flagRefusal? d = none ∧ p.slotRefusal? d = none :=
  Option.or_eq_none_iff

/-- The flags that may be asked of a property that is not configurable are those it has. -/
theorem flagRefusal?_eq_none_iff {p : Property} {d : Descriptor} (hc : p.configurable = false) :
    p.flagRefusal? d = none ↔
      d.configurable.getD false = false ∧ d.enumerable.getD p.enumerable = p.enumerable := by
  obtain ⟨_, _, _, _, enumerable, configurable⟩ := d
  rcases configurable with _ | _ | _ <;> cases enumerable <;> simp [flagRefusal?, hc]

/-- A descriptor that speaks of the flags at most asks nothing of what is stored. -/
theorem contentRefusal?_of_isGeneric (p : Property) {d : Descriptor} (hd : d.isGeneric = true) :
    p.contentRefusal? d = none := by
  simp [Descriptor.isGeneric, Descriptor.isData, Descriptor.isAccessor] at hd
  obtain ⟨⟨hv, hw⟩, hg, hs⟩ := hd
  unfold contentRefusal?
  split <;> simp [hv, hw, hg, hs]

/-- A slot that is not configurable keeps its kind, so a revision starts from what it holds. -/
theorem slotRefusal?_eq_none_iff {p : Property} {d : Descriptor} (hc : p.configurable = false) :
    p.slotRefusal? d = none ↔ p.contentRefusal? d = none ∧ p.startSlot d = p.slot := by
  unfold slotRefusal? startSlot
  by_cases hd : d.isGeneric = true
  · simp [hd, contentRefusal?_of_isGeneric p hd]
  · by_cases hk : p.isData = d.isData
    · simp [hc, hd, hk]
    · have hslot : ∀ s : Slot, s.isData = d.isData → s ≠ p.slot := by
        rintro s hs rfl
        exact hk hs
      simp only [hc, hd, Bool.false_or, Bool.false_eq_true, if_false, bne_iff_ne, ne_eq, hk,
        not_false_eq_true, if_true, reduceCtorEq, beq_iff_eq, false_iff, not_and]
      intro _
      split
      · exact hslot _ (by simp_all [Slot.isData])
      · exact hslot _ (by simp_all [Slot.isData])

end Property
end EcmaCore
