import EcmaCore.Proofs.Definition
import EcmaCore.Proofs.Keys

/-!
# Updates of different properties

A definition or deletion goes by the property under its key and by whether the object can grow, and
writes under that key alone. So of two updates of different properties neither sees the other: in
either order they have the same results and leave the same properties. Only if both keys are new on
one object, their places at the end of its list tell which came first.
-/
namespace EcmaCore

namespace Object
variable {x y : Object} {k l key : String}

/-- What an update does to an object under its key. -/
inductive Write where
  | keep
  | store (p : Property)
  | erase

def write (x : Object) (key : String) : Write → Object
  | .keep => x
  | .store p => x.store key p
  | .erase => x.erase key

@[simp] theorem kind_write (x : Object) (key : String) (a : Write) :
    (x.write key a).kind = x.kind := by
  cases a <;> rfl

@[simp] theorem prototype_write (x : Object) (key : String) (a : Write) :
    (x.write key a).prototype = x.prototype := by
  cases a <;> rfl

@[simp] theorem extensible_write (x : Object) (key : String) (a : Write) :
    (x.write key a).extensible = x.extensible := by
  cases a <;> rfl

@[simp] theorem unitKeys_write (x : Object) (key : String) (a : Write) :
    (x.write key a).unitKeys = x.unitKeys := by
  cases a <;> rfl

theorem ownProperty?_write_other (x : Object) (a : Write) (h : k ≠ key) :
    (x.write key a).ownProperty? k = x.ownProperty? k := by
  cases a with
  | keep => rfl
  | store p => exact ownProperty?_store_other x p h
  | erase => exact ownProperty?_erase_other x h

/-- Two states of an object that an update of a key cannot tell apart. -/
structure AlikeAt (key : String) (x y : Object) : Prop where
  kind : y.kind = x.kind
  extensible : y.extensible = x.extensible
  own : y.ownProperty? key = x.ownProperty? key

theorem AlikeAt.refl (key : String) (x : Object) : AlikeAt key x x := ⟨rfl, rfl, rfl⟩

theorem alikeAt_write (x : Object) (a : Write) (h : l ≠ k) : AlikeAt l x (x.write k a) :=
  ⟨by simp, by simp, ownProperty?_write_other x a h⟩

/-- What is under the key after a write does not depend on the rest of the object. -/
theorem AlikeAt.write (h : AlikeAt key x y) (a : Write) :
    (y.write key a).ownProperty? key = (x.write key a).ownProperty? key := by
  cases a with
  | keep => exact h.own
  | store p => simp [Object.write]
  | erase =>
    have herased : ∀ z : Object, (z.erase key).ownProperty? key = z.unitProperty? key := by
      intro z
      simp only [ownProperty?, erase, Table.find?_erase_same]
      rfl
    rw [Object.write, Object.write, herased, herased, unitProperty?_congr h.kind]

/-- A definition does not tell alike states apart. -/
theorem AlikeAt.define (h : AlikeAt key x y) (d : Descriptor) :
    (∃ e, x.define key d = .error e ∧ y.define key d = .error e) ∨
    ∃ a, x.define key d = .ok (x.write key a) ∧ y.define key d = .ok (y.write key a) := by
  unfold Object.define
  rw [h.own, h.extensible]
  split
  · exact .inl ⟨_, rfl, rfl⟩
  · split
    · split
      · exact .inr ⟨.store d.toProperty, rfl, rfl⟩
      · exact .inl ⟨_, rfl, rfl⟩
    next p _ =>
      split
      · exact .inr ⟨.keep, rfl, rfl⟩
      · split
        · exact .inl ⟨_, rfl, rfl⟩
        · exact .inr ⟨.store (p.revise d), rfl, rfl⟩

/-- Nor does a deletion. -/
theorem AlikeAt.delete? (h : AlikeAt key x y) :
    (x.delete? key = none ∧ y.delete? key = none) ∨
    ∃ a, x.delete? key = some (x.write key a) ∧ y.delete? key = some (y.write key a) := by
  unfold Object.delete?
  rw [h.own]
  split
  · exact .inr ⟨.keep, rfl, rfl⟩
  · split
    · exact .inr ⟨.erase, rfl, rfl⟩
    · exact .inl ⟨rfl, rfl⟩

/-- Takes a key out of a list unless it is computed. -/
def dropKey (computed : List String) (key : String) (ks : List String) : List String :=
  if key ∈ computed then ks else ks.filter (· != key)

theorem addKey_comm (hne : k ≠ l) (ks : List String) :
    addKey l (addKey k ks) = addKey k (addKey l ks) ∨
    (k ∉ ks ∧ l ∉ ks ∧ addKey l (addKey k ks) = ks ++ [k, l] ∧
      addKey k (addKey l ks) = ks ++ [l, k]) := by
  by_cases hk : k ∈ ks <;> by_cases hl : l ∈ ks <;> simp [addKey, hk, hl, hne, hne.symm]

theorem dropKey_addKey (computed : List String) (hne : k ≠ l) (ks : List String) :
    dropKey computed l (addKey k ks) = addKey k (dropKey computed l ks) := by
  by_cases hc : l ∈ computed
  · simp only [dropKey, if_pos hc]
  · by_cases hk : k ∈ ks <;> simp [dropKey, addKey, hc, hk, hne]

theorem dropKey_comm (computed : List String) (k l : String) (ks : List String) :
    dropKey computed l (dropKey computed k ks) = dropKey computed k (dropKey computed l ks) := by
  by_cases hk : k ∈ computed <;> by_cases hl : l ∈ computed <;>
    simp [dropKey, hk, hl, List.filter_filter, Bool.and_comm]

/-- What a write does to the list of keys. -/
def Write.relist (computed : List String) (key : String) (ks : List String) : Write → List String
  | keep => ks
  | store _ => addKey key ks
  | erase => dropKey computed key ks

theorem ownKeys_write (x : Object) (key : String) (a : Write) :
    (x.write key a).ownKeys = a.relist x.unitKeys key x.ownKeys := by
  cases a with
  | keep => rfl
  | store p => exact ownKeys_store x key p
  | erase =>
    by_cases hunit : key ∈ x.unitKeys
    · simp only [write, Write.relist, dropKey, if_pos hunit, ownKeys_erase_of_unit hunit]
    · simp only [write, Write.relist, dropKey, if_neg hunit, ownKeys_erase hunit]

/-- Writes under two keys come to the same list, unless both put their key at its end. -/
theorem Write.relist_comm (computed : List String) (hne : k ≠ l) (a b : Write) (ks : List String) :
    b.relist computed l (a.relist computed k ks) = a.relist computed k (b.relist computed l ks) ∨
    (k ∉ ks ∧ l ∉ ks ∧ b.relist computed l (a.relist computed k ks) = ks ++ [k, l] ∧
      a.relist computed k (b.relist computed l ks) = ks ++ [l, k]) := by
  cases a with
  | keep => exact .inl rfl
  | store p =>
    cases b with
    | keep => exact .inl rfl
    | store q => exact addKey_comm hne ks
    | erase => exact .inl (dropKey_addKey computed hne ks)
  | erase =>
    cases b with
    | keep => exact .inl rfl
    | store q => exact .inl (dropKey_addKey computed hne.symm ks).symm
    | erase => exact .inl (dropKey_comm computed k l ks)

/-- Two states of an object in which everything is the same but for the places of two keys that are
new since a third. -/
structure Swapped (k l : String) (x y z : Object) : Prop where
  kind : z.kind = y.kind
  prototype : z.prototype = y.prototype
  extensible : z.extensible = y.extensible
  own : ∀ key, z.ownProperty? key = y.ownProperty? key
  keys : z.ownKeys = y.ownKeys ∨
    (x.ownProperty? k = none ∧ x.ownProperty? l = none ∧
      y.ownKeys = x.ownKeys ++ [k, l] ∧ z.ownKeys = x.ownKeys ++ [l, k])

theorem swapped_write (x : Object) (hne : k ≠ l) (a b : Write) :
    Swapped k l x ((x.write k a).write l b) ((x.write l b).write k a) where
  kind := by simp
  prototype := by simp
  extensible := by simp
  own := by
    intro key
    by_cases hk : key = k
    · subst hk
      rw [ownProperty?_write_other _ b hne, (alikeAt_write x b hne).write a]
    · rw [ownProperty?_write_other _ a hk]
      by_cases hl : key = l
      · subst hl
        rw [(alikeAt_write x a hne.symm).write b]
      · rw [ownProperty?_write_other _ b hl, ownProperty?_write_other _ b hl,
          ownProperty?_write_other _ a hk]
  keys := by
    simp only [ownKeys_write, unitKeys_write, ownProperty?_eq_none_iff]
    rcases Write.relist_comm x.unitKeys hne a b x.ownKeys with h | h
    · exact .inl h.symm
    · exact .inr h

end Object

namespace Heap
variable {h : Heap} {o p : ObjectId} {k l : String}

/-- A write under a key of an object. -/
def write (h : Heap) (o : ObjectId) (key : String) (a : Object.Write) : Heap :=
  h.replace o ((h.object o).write key a)

@[simp] theorem size_write (h : Heap) (o : ObjectId) (key : String) (a : Object.Write) :
    (h.write o key a).size = h.size :=
  size_replace h o _

theorem object_write_same (key : String) (a : Object.Write) (ho : o.index < h.size) :
    (h.write o key a).object o = (h.object o).write key a :=
  object_replace_same _ ho

theorem object_write_other (key : String) (a : Object.Write) (hp : p ≠ o) :
    (h.write o key a).object p = h.object p :=
  object_replace_other _ hp

@[simp] theorem write_keep (h : Heap) (o : ObjectId) (key : String) : h.write o key .keep = h :=
  replace_self h o

theorem write_of_size_le (key : String) (a : Object.Write) (ho : h.size ≤ o.index) :
    h.write o key a = h :=
  replace_of_size_le ho

/-- No update of a key can tell a write under another key. -/
theorem alikeAt_write (h : Heap) (a : Object.Write) (hne : (o, k) ≠ (p, l)) :
    (h.object p).AlikeAt l ((h.write o k a).object p) := by
  by_cases hp : p = o
  · subst hp
    have hkl : l ≠ k := fun he => hne (by rw [he])
    rcases Nat.lt_or_ge p.index h.size with ho | ho
    · rw [object_write_same k a ho]
      exact Object.alikeAt_write _ a hkl
    · rw [write_of_size_le k a ho]
      exact .refl l _
  · rw [object_write_other k a hp]
    exact .refl l _

theorem replace_comm (h : Heap) (hne : o ≠ p) (x y : Object) :
    (h.replace o x).replace p y = (h.replace p y).replace o x := by
  have hi : o.index ≠ p.index := fun he => hne (congrArg ObjectId.mk he)
  simp only [replace, Array.setIfInBounds_comm x y hi]

/-- Writes to different properties come to the same in either order, but for the places of two keys
that are both new on one object. -/
theorem write_write (h : Heap) (a b : Object.Write) (hne : (o, k) ≠ (p, l)) (q : ObjectId) :
    ((h.write p l b).write o k a).object q = ((h.write o k a).write p l b).object q ∨
    (o = q ∧ p = q ∧ (h.object q).Swapped k l (((h.write o k a).write p l b).object q)
      (((h.write p l b).write o k a).object q)) := by
  by_cases hop : o = p
  · subst hop
    by_cases hq : q = o
    · subst hq
      rcases Nat.lt_or_ge q.index h.size with hlt | hle
      · have hkl : k ≠ l := fun he => hne (by rw [he])
        right
        rw [object_write_same l b (by simpa using hlt), object_write_same k a hlt,
          object_write_same k a (by simpa using hlt), object_write_same l b hlt]
        exact ⟨rfl, rfl, Object.swapped_write _ hkl a b⟩
      · left
        simp only [write_of_size_le _ _ hle]
    · left
      simp only [object_write_other _ _ hq]
  · -- On two objects even the tables come to be the same.
    left
    have hboth : (h.write p l b).write o k a = (h.write o k a).write p l b := by
      rw [write, object_write_other l b hop, write, write, object_write_other k a (Ne.symm hop)]
      exact replace_comm h (Ne.symm hop) _ _
    rw [hboth]

end Heap

variable {σ : Type} {u w : World σ}

/-- A definition with a descriptor, or a deletion. -/
inductive Edit where
  | define (d : Descriptor)
  | delete

/-- An update of one property. -/
structure Update where
  object : ObjectId
  key : String
  edit : Edit
  strict : Bool

namespace Update

def run (a : Update) : Act σ Bool :=
  match a.edit with
  | .define d => Act.define a.object a.key d a.strict
  | .delete => Act.delete a.object a.key a.strict

/-- An update has a result and writes under its key. -/
def Does (a : Update) (result : Except Fault Bool) (write : Object.Write) (w : World σ) : Prop :=
  a.run.outcome w = result ∧
  a.run.after w = { w with heap := w.heap.write a.object a.key write }

theorem Does.of_refused {a : Update} {result : Except Fault Bool}
    (h : a.run.outcome w = result ∧ a.run.after w = w) : a.Does result .keep w := by
  refine ⟨h.1, ?_⟩
  rw [h.2, Heap.write_keep]

/-- In worlds that are alike under its key an update does the same. -/
theorem does_alike (a : Update)
    (alike : (w.heap.object a.object).AlikeAt a.key (u.heap.object a.object)) :
    ∃ result write, a.Does result write w ∧ a.Does result write u := by
  obtain ⟨o, key, edit, strict⟩ := a
  cases edit with
  | define d =>
    rcases alike.define d with ⟨e, hw, hu⟩ | ⟨write, hw, hu⟩
    · have hdw : w.heap.define o key d = .error e := congrArg (Except.map _) hw
      have hdu : u.heap.define o key d = .error e := congrArg (Except.map _) hu
      exact ⟨_, .keep, .of_refused (Act.outcome_define_of_error hdw strict),
        .of_refused (Act.outcome_define_of_error hdu strict)⟩
    · have hdw : w.heap.define o key d = .ok (w.heap.write o key write) :=
        congrArg (Except.map _) hw
      have hdu : u.heap.define o key d = .ok (u.heap.write o key write) :=
        congrArg (Except.map _) hu
      exact ⟨.ok true, write, Act.outcome_of_ok (Act.define_of_ok hdw strict),
        Act.outcome_of_ok (Act.define_of_ok hdu strict)⟩
  | delete =>
    rcases alike.delete? with ⟨hw, hu⟩ | ⟨write, hw, hu⟩
    · have hdw : w.heap.delete? o key = none := congrArg (Option.map _) hw
      have hdu : u.heap.delete? o key = none := congrArg (Option.map _) hu
      exact ⟨_, .keep, .of_refused (Act.outcome_delete_of_none hdw strict),
        .of_refused (Act.outcome_delete_of_none hdu strict)⟩
    · have hdw : w.heap.delete? o key = some (w.heap.write o key write) :=
        congrArg (Option.map _) hw
      have hdu : u.heap.delete? o key = some (u.heap.write o key write) :=
        congrArg (Option.map _) hu
      exact ⟨.ok true, write, Act.outcome_of_ok (Act.delete_of_some hdw strict),
        Act.outcome_of_ok (Act.delete_of_some hdu strict)⟩

end Update

/-- Two updates of different properties have the same results in either order, and leave the same
but for the places of two keys that are both new on one object. -/
theorem updates_are_independent (a b : Update) (hne : (a.object, a.key) ≠ (b.object, b.key))
    (w : World σ) :
    a.run.outcome (b.run.after w) = a.run.outcome w ∧
    b.run.outcome (a.run.after w) = b.run.outcome w ∧
    ∀ o, (a.run.after (b.run.after w)).heap.object o = (b.run.after (a.run.after w)).heap.object o ∨
      (a.object = o ∧ b.object = o ∧ (w.heap.object o).Swapped a.key b.key
        ((b.run.after (a.run.after w)).heap.object o)
        ((a.run.after (b.run.after w)).heap.object o)) := by
  -- What each writes by itself shows that it leaves the property of the other alone.
  obtain ⟨_, write, ⟨_, hwrite⟩, _⟩ := a.does_alike (w := w) (.refl _ _)
  obtain ⟨_, write', ⟨_, hwrite'⟩, _⟩ := b.does_alike (w := w) (.refl _ _)
  have alike : (w.heap.object a.object).AlikeAt a.key ((b.run.after w).heap.object a.object) := by
    rw [hwrite']
    exact w.heap.alikeAt_write write' hne.symm
  have alike' : (w.heap.object b.object).AlikeAt b.key ((a.run.after w).heap.object b.object) := by
    rw [hwrite]
    exact w.heap.alikeAt_write write hne
  obtain ⟨r, c, ⟨hr, hc⟩, ⟨hr', hc'⟩⟩ := a.does_alike alike
  obtain ⟨s, e, ⟨hs, he⟩, ⟨hs', he'⟩⟩ := b.does_alike alike'
  refine ⟨hr'.trans hr.symm, hs'.trans hs.symm, fun o => ?_⟩
  rw [hc', he', hc, he]
  exact w.heap.write_write c e hne o

/-- Two keys that are new on one object end up in the order in which they came, and nothing else
tells that order. -/
theorem updates_are_independent_new :
    let w : World Unit := { World.start () with heap := Heap.empty.push (.ordinary none) }
    let a : Update := ⟨⟨0⟩, "x", .define { value := some .null }, true⟩
    let b : Update := ⟨⟨0⟩, "y", .define { getter := some (.object ⟨0⟩) }, false⟩
    let u := b.run.after (a.run.after w)
    let v := a.run.after (b.run.after w)
    a.run.outcome (b.run.after w) = a.run.outcome w ∧
    b.run.outcome (a.run.after w) = b.run.outcome w ∧
    (w.heap.object ⟨0⟩).Swapped "x" "y" (u.heap.object ⟨0⟩) (v.heap.object ⟨0⟩) ∧
    (u.heap.object ⟨0⟩).ownKeys = ["x", "y"] ∧ (v.heap.object ⟨0⟩).ownKeys = ["y", "x"] := by
  intro w a b u v
  have hne : (a.object, a.key) ≠ (b.object, b.key) := by decide
  have hu : (u.heap.object ⟨0⟩).ownKeys = ["x", "y"] := by decide +kernel
  have hv : (v.heap.object ⟨0⟩).ownKeys = ["y", "x"] := by decide +kernel
  obtain ⟨ha, hb, h⟩ := updates_are_independent a b hne w
  rcases h ⟨0⟩ with heq | ⟨_, _, hswapped⟩
  · have hkeys := congrArg Object.ownKeys heq
    rw [hu, hv] at hkeys
    exact absurd hkeys (by decide)
  · exact ⟨ha, hb, hswapped, hu, hv⟩

end EcmaCore
