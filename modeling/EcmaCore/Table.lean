/-!
# Tables in order of creation

A table maps each of its keys to one entry and remembers the order in which the keys came. Writing
to a key that is there keeps its place; a new key goes to the end; erasing keeps the order of the
rest.
-/
namespace EcmaCore

/-- Writes an entry of a list of pairs, in its place or at the end. -/
def insertPair (key : String) (a : α) : List (String × α) → List (String × α)
  | [] => [(key, a)]
  | e :: rest => if e.1 = key then (key, a) :: rest else e :: insertPair key a rest

theorem mem_keys_insertPair {key k : String} {a : α} {pairs : List (String × α)} :
    k ∈ (insertPair key a pairs).map (·.1) ↔ k = key ∨ k ∈ pairs.map (·.1) := by
  induction pairs with
  | nil => simp [insertPair]
  | cons e rest ih =>
    by_cases h : e.1 = key
    · subst h
      simp [insertPair]
    · simp only [insertPair, h, if_false, List.map_cons, List.mem_cons, ih]
      constructor
      · rintro (h | h | h) <;> simp_all
      · rintro (h | h | h) <;> simp_all

theorem nodup_keys_insertPair {key : String} {a : α} {pairs : List (String × α)}
    (h : (pairs.map (·.1)).Nodup) : ((insertPair key a pairs).map (·.1)).Nodup := by
  induction pairs with
  | nil => simp [insertPair]
  | cons e rest ih =>
    rw [List.map_cons, List.nodup_cons] at h
    by_cases he : e.1 = key
    · simp only [insertPair, he, if_true, List.map_cons, List.nodup_cons]
      rw [he] at h
      exact h
    · simp only [insertPair, he, if_false, List.map_cons, List.nodup_cons]
      refine ⟨fun hm => ?_, ih h.2⟩
      rcases mem_keys_insertPair.mp hm with hk | hk
      · exact he hk
      · exact h.1 hk

theorem insertPair_insertPair (key : String) (a b : α) (pairs : List (String × α)) :
    insertPair key b (insertPair key a pairs) = insertPair key b pairs := by
  induction pairs with
  | nil => simp [insertPair]
  | cons e rest ih => by_cases h : e.1 = key <;> simp [insertPair, h, ih]

/-- Entries under distinct keys, oldest first. -/
structure Table (α : Type) where
  pairs : List (String × α)
  nodup : (pairs.map (·.1)).Nodup
  deriving DecidableEq, Repr

namespace Table
variable {α : Type}

def empty : Table α := ⟨[], by simp⟩

instance : Inhabited (Table α) := ⟨empty⟩

/-- The keys, oldest first. -/
def keys (t : Table α) : List String := t.pairs.map (·.1)

def find? (t : Table α) (key : String) : Option α :=
  (t.pairs.find? fun e => e.1 == key).map (·.2)

def insert (t : Table α) (key : String) (a : α) : Table α :=
  ⟨insertPair key a t.pairs, nodup_keys_insertPair t.nodup⟩

def erase (t : Table α) (key : String) : Table α :=
  ⟨t.pairs.filter fun e => e.1 != key, (t.nodup.sublist (List.filter_sublist.map _))⟩

@[simp] theorem find?_empty (key : String) : (empty : Table α).find? key = none := rfl

@[simp] theorem find?_insert_same (t : Table α) (key : String) (a : α) :
    (t.insert key a).find? key = some a := by
  obtain ⟨pairs, _⟩ := t
  simp only [find?, insert]
  induction pairs with
  | nil => simp [insertPair]
  | cons e rest ih =>
    by_cases h : e.1 = key
    · simp [insertPair, h]
    · simp_all [insertPair]

theorem find?_insert_other (t : Table α) {key k : String} (a : α) (h : k ≠ key) :
    (t.insert key a).find? k = t.find? k := by
  obtain ⟨pairs, _⟩ := t
  simp only [find?, insert]
  have hk : (key == k) = false := by simp [Ne.symm h]
  induction pairs with
  | nil => simp [insertPair, hk]
  | cons e rest ih =>
    by_cases he : e.1 = key
    · simp [insertPair, he, hk]
    · by_cases hek : e.1 = k <;> simp_all [insertPair]

/-- Of two entries written to a key the second counts. -/
@[simp] theorem insert_insert (t : Table α) (key : String) (a b : α) :
    (t.insert key a).insert key b = t.insert key b := by
  simp only [insert, insertPair_insertPair]

@[simp] theorem find?_erase_same (t : Table α) (key : String) : (t.erase key).find? key = none := by
  simp [find?, erase]

theorem find?_erase_other (t : Table α) {key k : String} (h : k ≠ key) :
    (t.erase key).find? k = t.find? k := by
  simp only [find?, erase, List.find?_filter]
  congr 2
  funext e
  by_cases he : e.1 = k <;> simp [he, h]

theorem isSome_find?_iff (t : Table α) (key : String) :
    (t.find? key).isSome = true ↔ key ∈ t.keys := by
  simp [find?, keys]

/-- Writing to a key that is there keeps its place. -/
theorem keys_insert_of_mem (t : Table α) {key : String} (a : α) (h : key ∈ t.keys) :
    (t.insert key a).keys = t.keys := by
  obtain ⟨pairs, _⟩ := t
  simp only [keys, insert] at h ⊢
  induction pairs with
  | nil => simp at h
  | cons e rest ih =>
    by_cases he : e.1 = key
    · simp [insertPair, he]
    · have hr : key ∈ rest.map (·.1) := by
        rw [List.map_cons, List.mem_cons] at h
        exact h.resolve_left (Ne.symm he)
      simp [insertPair, he, ih (by simp_all) hr]

/-- A new key goes to the end. -/
theorem keys_insert_of_not_mem (t : Table α) {key : String} (a : α) (h : key ∉ t.keys) :
    (t.insert key a).keys = t.keys ++ [key] := by
  obtain ⟨pairs, _⟩ := t
  simp only [keys, insert] at h ⊢
  induction pairs with
  | nil => simp [insertPair]
  | cons e rest ih =>
    rw [List.map_cons, List.mem_cons, not_or] at h
    have he : ¬ e.1 = key := Ne.symm h.1
    simp [insertPair, he, ih (by simp_all) h.2]

/-- Erasing a key keeps the order of the rest. -/
theorem keys_erase (t : Table α) (key : String) :
    (t.erase key).keys = t.keys.filter (· != key) := by
  simp only [keys, erase, List.filter_map]
  rfl

end Table
end EcmaCore
