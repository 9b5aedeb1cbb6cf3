import EcmaCore.Object

/-!
# Own keys

The list of an object's keys has each key of an own property once and no other. A place of a wrapped
text is listed from the text, also when a copy of its property stands in the table.
-/
namespace EcmaCore.Object
variable {x : Object} {t : Text} {key : String}

theorem repr_injective {m n : Nat} (h : m.repr = n.repr) : m = n := by
  have hread := congrArg indexOfKey? h
  rw [indexOfKey?_repr, indexOfKey?_repr] at hread
  exact Option.some.inj hread

theorem unitProperty?_eq_some_iff {p : Property} (hk : x.kind = .string t) :
    x.unitProperty? key = some p ↔
      ∃ i u, key = i.repr ∧ t.unitAt? i = some u ∧ p = unitProperty u := by
  simp only [unitProperty?, hk, Option.bind_eq_some_iff, Option.map_eq_some_iff,
    indexOfKey?_eq_some_iff]
  constructor
  · rintro ⟨i, hi, u, hu, rfl⟩
    exact ⟨i, u, hi, hu, rfl⟩
  · rintro ⟨i, u, hi, hu, rfl⟩
    exact ⟨i, hi, u, hu, rfl⟩

theorem unitKeys_of_text (hk : x.kind = .string t) :
    x.unitKeys = (List.range t.length).map Nat.repr := by
  simp only [unitKeys, hk]

/-- The places of a wrapped text are the keys that have a computed property. -/
theorem mem_unitKeys_iff : key ∈ x.unitKeys ↔ (x.unitProperty? key).isSome = true := by
  cases hk : x.kind with
  | string t =>
    rw [unitKeys_of_text hk, List.mem_map, Option.isSome_iff_exists]
    constructor
    · rintro ⟨i, hi, rfl⟩
      have hlt : i < t.units.length := List.mem_range.mp hi
      exact ⟨_, (unitProperty?_eq_some_iff hk).mpr
        ⟨i, t.units[i], rfl, List.getElem?_eq_getElem hlt, rfl⟩⟩
    · rintro ⟨p, hp⟩
      obtain ⟨i, u, rfl, hu, _⟩ := (unitProperty?_eq_some_iff hk).mp hp
      obtain ⟨hlt, _⟩ := List.getElem?_eq_some_iff.mp hu
      exact ⟨i, List.mem_range.mpr hlt, rfl⟩
  | _ => simp [unitKeys, unitProperty?, hk]

/-- What comes after the places: the keys of the table that are none. -/
def otherKeys (x : Object) : List String :=
  x.properties.keys.filter fun key => (x.unitProperty? key).isNone

theorem ownKeys_eq (x : Object) : x.ownKeys = x.unitKeys ++ x.otherKeys := rfl

theorem mem_otherKeys_iff : key ∈ x.otherKeys ↔
    (x.properties.find? key).isSome = true ∧ x.unitProperty? key = none := by
  rw [otherKeys, List.mem_filter, Table.isSome_find?_iff, Option.isNone_iff_eq_none]

theorem mem_ownKeys_iff : key ∈ x.ownKeys ↔ (x.ownProperty? key).isSome = true := by
  rw [ownKeys_eq, List.mem_append, mem_unitKeys_iff, mem_otherKeys_iff, ownProperty?]
  cases hp : x.properties.find? key <;> cases hu : x.unitProperty? key <;> simp

theorem nodup_ownKeys (x : Object) : x.ownKeys.Nodup := by
  have hunits : x.unitKeys.Nodup := by
    cases hk : x.kind with
    | string t =>
      rw [unitKeys_of_text hk]
      exact List.Pairwise.map Nat.repr (fun _ _ hne he => hne (repr_injective he)) List.nodup_range
    | _ => simp [unitKeys, hk]
  have hothers : x.otherKeys.Nodup := x.properties.nodup.sublist List.filter_sublist
  rw [ownKeys_eq, List.nodup_append]
  refine ⟨hunits, hothers, fun k hk l hl => ?_⟩
  rintro rfl
  have hsome := mem_unitKeys_iff.mp hk
  rw [(mem_otherKeys_iff.mp hl).2] at hsome
  cases hsome

theorem otherKeys_store_of_mem (p : Property) (h : key ∈ x.properties.keys) :
    (x.store key p).otherKeys = x.otherKeys := by
  have hkeys : (x.store key p).properties.keys = x.properties.keys :=
    x.properties.keys_insert_of_mem p h
  rw [otherKeys, hkeys]
  rfl

theorem otherKeys_store_of_not_mem (p : Property) (h : key ∉ x.properties.keys) :
    (x.store key p).otherKeys =
      x.otherKeys ++ [key].filter fun k => (x.unitProperty? k).isNone := by
  have hkeys : (x.store key p).properties.keys = x.properties.keys ++ [key] :=
    x.properties.keys_insert_of_not_mem p h
  rw [otherKeys, hkeys, List.filter_append]
  rfl

theorem otherKeys_erase (x : Object) (key : String) :
    (x.erase key).otherKeys = x.otherKeys.filter (· != key) := by
  have hkeys : (x.erase key).properties.keys = x.properties.keys.filter (· != key) :=
    x.properties.keys_erase key
  rw [otherKeys, otherKeys, hkeys, List.filter_filter, List.filter_filter]
  congr 1
  funext k
  exact Bool.and_comm _ _

/-- Storing under a key that has a property moves no key, also when the property was computed. -/
theorem ownKeys_store_of_own {q : Property} (p : Property) (hq : x.ownProperty? key = some q) :
    (x.store key p).ownKeys = x.ownKeys := by
  have hothers : (x.store key p).otherKeys = x.otherKeys := by
    by_cases hmem : key ∈ x.properties.keys
    · exact otherKeys_store_of_mem p hmem
    · have hunit : (x.unitProperty? key).isNone = false := by
        have hkeys := mem_ownKeys_iff.mpr (Option.isSome_of_eq_some hq)
        rw [ownKeys_eq, List.mem_append, mem_unitKeys_iff] at hkeys
        rcases hkeys with hsome | hother
        · rw [Option.isNone_eq_false_iff, hsome]
        · rw [mem_otherKeys_iff, Table.isSome_find?_iff] at hother
          exact absurd hother.1 hmem
      rw [otherKeys_store_of_not_mem p hmem, List.filter_cons_of_neg (by simp [hunit])]
      simp
  rw [ownKeys_eq, ownKeys_eq, hothers]
  rfl

theorem ownProperty?_eq_none_iff : x.ownProperty? key = none ↔ key ∉ x.ownKeys := by
  rw [mem_ownKeys_iff, Option.not_isSome_iff_eq_none]

/-- What is neither in the table nor computed is absent, and only that. -/
theorem absent_iff : x.ownProperty? key = none ↔
    key ∉ x.properties.keys ∧ x.unitProperty? key = none := by
  rw [← Table.isSome_find?_iff, Option.not_isSome_iff_eq_none, ownProperty?]
  cases x.properties.find? key <;> simp

/-- A new key goes to the end. -/
theorem ownKeys_store_of_absent (p : Property) (ha : x.ownProperty? key = none) :
    (x.store key p).ownKeys = x.ownKeys ++ [key] := by
  obtain ⟨hmem, hunit⟩ := absent_iff.mp ha
  have hunits : (x.store key p).unitKeys = x.unitKeys := rfl
  have hnew : [key].filter (fun k => (x.unitProperty? k).isNone) = [key] :=
    List.filter_cons_of_pos (by rw [hunit]; rfl)
  rw [ownKeys_eq, ownKeys_eq, hunits, otherKeys_store_of_not_mem p hmem, hnew, List.append_assoc]

/-- Puts a key at the end of a list unless it is there. -/
def addKey (key : String) (ks : List String) : List String :=
  if key ∈ ks then ks else ks ++ [key]

theorem addKey_of_mem {ks : List String} (h : key ∈ ks) : addKey key ks = ks := if_pos h

theorem addKey_of_not_mem {ks : List String} (h : key ∉ ks) : addKey key ks = ks ++ [key] := if_neg h

theorem ownKeys_store (x : Object) (key : String) (p : Property) :
    (x.store key p).ownKeys = addKey key x.ownKeys := by
  by_cases hmem : key ∈ x.ownKeys
  · obtain ⟨q, hq⟩ := Option.isSome_iff_exists.mp (mem_ownKeys_iff.mp hmem)
    rw [addKey_of_mem hmem, ownKeys_store_of_own p hq]
  · have ha := ownProperty?_eq_none_iff.mpr hmem
    rw [addKey_of_not_mem hmem, ownKeys_store_of_absent p ha]

/-- Erasing the copy of a place of a text moves no key. -/
theorem ownKeys_erase_of_unit (hu : key ∈ x.unitKeys) : (x.erase key).ownKeys = x.ownKeys := by
  have hunits : (x.erase key).unitKeys = x.unitKeys := rfl
  have hothers : x.otherKeys.filter (· != key) = x.otherKeys := by
    rw [List.filter_eq_self]
    intro k hk
    have hne : k ≠ key := by
      rintro rfl
      rw [mem_unitKeys_iff, (mem_otherKeys_iff.mp hk).2] at hu
      cases hu
    simp [hne]
  rw [ownKeys_eq, ownKeys_eq, hunits, otherKeys_erase, hothers]

/-- Erasing any other key keeps the order of the rest. -/
theorem ownKeys_erase (hu : key ∉ x.unitKeys) :
    (x.erase key).ownKeys = x.ownKeys.filter (· != key) := by
  have hunits : x.unitKeys.filter (· != key) = x.unitKeys := by
    rw [List.filter_eq_self]
    intro k hk
    have hne : k ≠ key := by
      rintro rfl
      exact hu hk
    simp [hne]
  rw [ownKeys_eq, ownKeys_eq, List.filter_append, hunits, otherKeys_erase]
  rfl

/-- Erasing takes away at most the erased key. -/
theorem ownKeys_erase_sublist (x : Object) (key : String) :
    (x.erase key).ownKeys.Sublist x.ownKeys := by
  rw [ownKeys_eq, ownKeys_eq, otherKeys_erase]
  exact (List.Sublist.refl x.unitKeys).append List.filter_sublist

end EcmaCore.Object
