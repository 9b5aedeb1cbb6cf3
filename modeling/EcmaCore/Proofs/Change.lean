import EcmaCore.Proofs.Mentions

/-!
# Changes of the heap

Operations act on the heap by five elementary changes, one after the other. A change that is refused
leaves the heap as it is. What one change can do is said once, by `Heap.Effect` for the heap and by
`Object.Step` for each of its objects, with the checks that were passed; what a run of changes keeps
follows from that by induction.
-/
namespace EcmaCore

/-- A new object of a kind. -/
def Object.ofKind (kind : ObjectKind) (prototype : Option ObjectId) : Object :=
  match kind with
  | .ordinary => ordinary prototype
  | .boolean b => ofBoolean b prototype
  | .number x => ofNumber x prototype
  | .string t => ofText t prototype
  | .function f => ofCallable f prototype

inductive Change where
  | create (kind : ObjectKind) (prototype : Option ObjectId)
  | define (o : ObjectId) (key : String) (d : Descriptor)
  | delete (o : ObjectId) (key : String)
  | preventExtensions (o : ObjectId)
  | setPrototype (o : ObjectId) (prototype : Option ObjectId)

instance : Mentions Change where
  mentions
    | .create _ prototype, p => mentions prototype p
    | .define o _ d, p => mentions o p ∨ mentions d p
    | .delete o _, p => mentions o p
    | .preventExtensions o, p => mentions o p
    | .setPrototype o prototype, p => mentions o p ∨ mentions prototype p

theorem below_change_define {n : Nat} {o : ObjectId} {key : String} {d : Descriptor} :
    Below n (Change.define o key d) ↔ o.index < n ∧ Below n d := by
  constructor
  · intro h
    exact ⟨below_objectId.mp fun p hp => h p (.inl hp), fun p hp => h p (.inr hp)⟩
  · rintro ⟨ho, hd⟩ p (hp | hp)
    · exact below_objectId.mpr ho p hp
    · exact hd p hp

theorem below_change_setPrototype {n : Nat} {o : ObjectId} {q : Option ObjectId} :
    Below n (Change.setPrototype o q) ↔ o.index < n ∧ Below n q := by
  constructor
  · intro h
    exact ⟨below_objectId.mp fun p hp => h p (.inl hp), fun p hp => h p (.inr hp)⟩
  · rintro ⟨ho, hq⟩ p (hp | hp)
    · exact below_objectId.mpr ho p hp
    · exact hq p hp

namespace Object

/-- What one change can do to an object. -/
inductive Step (x : Object) : Object → Prop where
  | same : Step x x
  | create (key : String) (d : Descriptor) (absent : x.ownProperty? key = none)
      (extensible : x.extensible = true) : Step x (x.store key d.toProperty)
  | revise (key : String) (d : Descriptor) (p : Property) (present : x.ownProperty? key = some p)
      (accepted : p.refusal? d = none) : Step x (x.store key (p.revise d))
  | erase (key : String) (p : Property) (present : x.ownProperty? key = some p)
      (configurable : p.configurable = true) : Step x (x.erase key)
  | preventExtensions : Step x x.preventExtensions
  | link (prototype : Option ObjectId) (extensible : x.extensible = true) :
      Step x { x with prototype := prototype }

/-- The three ways in which a definition is accepted. -/
theorem define_cases {x y : Object} {key : String} {d : Descriptor} (h : x.define key d = .ok y) :
    (x.ownProperty? key = none ∧ x.extensible = true ∧ y = x.store key d.toProperty) ∨
    (∃ p, x.ownProperty? key = some p ∧ y = x) ∨
    (∃ p, x.ownProperty? key = some p ∧ p.refusal? d = none ∧ y = x.store key (p.revise d)) := by
  unfold define at h
  split at h
  · cases h
  · split at h
    next habsent =>
      split at h
      next hext => cases h; exact .inl ⟨habsent, hext, rfl⟩
      next => cases h
    next p hpresent =>
      split at h
      next => cases h; exact .inr (.inl ⟨p, hpresent, rfl⟩)
      next =>
        split at h
        next => cases h
        next haccepted => cases h; exact .inr (.inr ⟨p, hpresent, haccepted, rfl⟩)

theorem delete?_cases {x y : Object} {key : String} (h : x.delete? key = some y) :
    (x.ownProperty? key = none ∧ y = x) ∨
    (∃ p, x.ownProperty? key = some p ∧ p.configurable = true ∧ y = x.erase key) := by
  unfold delete? at h
  split at h
  next habsent => cases h; exact .inl ⟨habsent, rfl⟩
  next p hpresent =>
    split at h
    next hc => cases h; exact .inr ⟨p, hpresent, hc, rfl⟩
    next => cases h

theorem step_of_define {x y : Object} {key : String} {d : Descriptor}
    (h : x.define key d = .ok y) : x.Step y := by
  rcases define_cases h with ⟨ha, he, rfl⟩ | ⟨p, _, rfl⟩ | ⟨p, hp, hr, rfl⟩
  · exact .create key d ha he
  · exact .same
  · exact .revise key d p hp hr

theorem step_of_delete? {x y : Object} {key : String} (h : x.delete? key = some y) : x.Step y := by
  rcases delete?_cases h with ⟨_, rfl⟩ | ⟨p, hp, hc, rfl⟩
  · exact .same
  · exact .erase key p hp hc

/-- The kind of an object is fixed when it is made. -/
theorem Step.kind {x y : Object} (h : x.Step y) : y.kind = x.kind := by
  cases h <;> rfl

end Object

namespace Heap
variable {limit : DepthLimit} {h k l : Heap} {o p : ObjectId}

def apply (h : Heap) (limit : DepthLimit) : Change → Heap
  | .create kind prototype => h.push (.ofKind kind prototype)
  | .define o key d => (h.define o key d).toOption.getD h
  | .delete o key => (h.delete? o key).getD h
  | .preventExtensions o => h.preventExtensions o
  | .setPrototype o prototype => (h.setPrototype? limit o prototype).getD h

theorem apply_define_of_ok {key : String} {d : Descriptor} (hk : h.define o key d = .ok k) :
    h.apply limit (.define o key d) = k := by
  simp [apply, hk, Except.toOption]

theorem apply_define_of_error {key : String} {d : Descriptor} {e : DefinitionFault}
    (hk : h.define o key d = .error e) : h.apply limit (.define o key d) = h := by
  simp [apply, hk, Except.toOption]

theorem apply_delete_of_some {key : String} (hk : h.delete? o key = some k) :
    h.apply limit (.delete o key) = k := by
  simp [apply, hk]

theorem apply_delete_of_none {key : String} (hk : h.delete? o key = none) :
    h.apply limit (.delete o key) = h := by
  simp [apply, hk]

theorem apply_setPrototype_of_some {q : Option ObjectId} (hk : h.setPrototype? limit o q = some k) :
    h.apply limit (.setPrototype o q) = k := by
  simp [apply, hk]

theorem apply_setPrototype_of_none {q : Option ObjectId} (hk : h.setPrototype? limit o q = none) :
    h.apply limit (.setPrototype o q) = h := by
  simp [apply, hk]

theorem define_ok_iff {key : String} {d : Descriptor} :
    h.define o key d = .ok k ↔ ∃ y, (h.object o).define key d = .ok y ∧ k = h.replace o y := by
  unfold define
  cases (h.object o).define key d <;> simp [Except.map, eq_comm]

theorem delete?_eq_some_iff {key : String} :
    h.delete? o key = some k ↔ ∃ y, (h.object o).delete? key = some y ∧ k = h.replace o y := by
  simp only [delete?, Option.map_eq_some_iff]
  constructor <;> rintro ⟨y, hy, rfl⟩ <;> exact ⟨y, hy, rfl⟩

/-- The two ways in which a link is accepted. -/
theorem setPrototype?_cases {q : Option ObjectId} (hk : h.setPrototype? limit o q = some k) :
    ((h.object o).prototype = q ∧ k = h) ∨
    ((h.object o).extensible = true ∧ h.walk limit o q = .root ∧
      k = h.replace o { h.object o with prototype := q }) := by
  simp only [setPrototype?] at hk
  split at hk
  next hq => cases hk; exact .inl ⟨hq, rfl⟩
  next =>
    split at hk
    next ha =>
      cases hk
      simp only [Bool.and_eq_true, decide_eq_true_eq] at ha
      exact .inr ⟨ha.1, ha.2, rfl⟩
    next => cases hk

theorem index_lt_of_ownProperty? {key : String} {q : Property}
    (hq : (h.object o).ownProperty? key = some q) : o.index < h.size := by
  apply index_lt_of_object_ne
  intro hd
  rw [hd] at hq
  cases hq

theorem step_replace {x : Object} (hs : (h.object o).Step x) (hp : p.index < h.size) :
    (h.object p).Step ((h.replace o x).object p) := by
  by_cases he : p = o
  · subst he
    rw [object_replace_same x hp]
    exact hs
  · rw [object_replace_other x he]
    exact .same

/-- What a change does to the heap, with the checks that were passed. -/
inductive Effect (limit : DepthLimit) (h : Heap) : Change → Heap → Prop where
  | unchanged (c : Change) : Effect limit h c h
  | create (kind : ObjectKind) (prototype : Option ObjectId) :
      Effect limit h (.create kind prototype) (h.push (.ofKind kind prototype))
  | define (o : ObjectId) (key : String) (d : Descriptor) (y : Object)
      (accepted : (h.object o).define key d = .ok y) :
      Effect limit h (.define o key d) (h.replace o y)
  | delete (o : ObjectId) (key : String) (y : Object)
      (accepted : (h.object o).delete? key = some y) :
      Effect limit h (.delete o key) (h.replace o y)
  | preventExtensions (o : ObjectId) :
      Effect limit h (.preventExtensions o) (h.replace o (h.object o).preventExtensions)
  | link (o : ObjectId) (prototype : Option ObjectId)
      (extensible : (h.object o).extensible = true) (ends : h.walk limit o prototype = .root) :
      Effect limit h (.setPrototype o prototype)
        (h.replace o { h.object o with prototype := prototype })

theorem apply_effect (h : Heap) (limit : DepthLimit) (c : Change) :
    h.Effect limit c (h.apply limit c) := by
  cases c with
  | create kind prototype => exact .create kind prototype
  | define o key d =>
    cases hk : h.define o key d with
    | error e =>
      rw [apply_define_of_error hk]
      exact .unchanged _
    | ok k =>
      obtain ⟨y, hy, rfl⟩ := define_ok_iff.mp hk
      rw [apply_define_of_ok hk]
      exact .define o key d y hy
  | delete o key =>
    cases hk : h.delete? o key with
    | none =>
      rw [apply_delete_of_none hk]
      exact .unchanged _
    | some k =>
      obtain ⟨y, hy, rfl⟩ := delete?_eq_some_iff.mp hk
      rw [apply_delete_of_some hk]
      exact .delete o key y hy
  | preventExtensions o => exact .preventExtensions o
  | setPrototype o prototype =>
    cases hk : h.setPrototype? limit o prototype with
    | none =>
      rw [apply_setPrototype_of_none hk]
      exact .unchanged _
    | some k =>
      rw [apply_setPrototype_of_some hk]
      rcases setPrototype?_cases hk with ⟨_, rfl⟩ | ⟨he, hw, rfl⟩
      · exact .unchanged _
      · exact .link o prototype he hw

/-- A change does to each object that is there one of the steps. -/
theorem Effect.step {c : Change} (hc : h.Effect limit c k) (hp : p.index < h.size) :
    (h.object p).Step (k.object p) := by
  cases hc with
  | unchanged => exact .same
  | create kind prototype =>
    rw [object_push_of_lt _ hp]
    exact .same
  | define o key d y accepted => exact step_replace (Object.step_of_define accepted) hp
  | delete o key y accepted => exact step_replace (Object.step_of_delete? accepted) hp
  | preventExtensions o => exact step_replace .preventExtensions hp
  | link o prototype extensible _ => exact step_replace (.link prototype extensible) hp

theorem Effect.size_le {c : Change} (hc : h.Effect limit c k) : h.size ≤ k.size := by
  cases hc <;> simp

section Below
variable {n : Nat} {x y : Object} {key : String} {q : Property} {d : Descriptor}

theorem below_store (hx : Below n x) (hq : Below n q) : Below n (x.store key q) := by
  rw [below_object_record] at hx ⊢
  constructor
  · exact hx.1
  · intro k p hp
    simp only [Object.store] at hp
    by_cases hk : k = key
    · subst hk
      rw [Table.find?_insert_same] at hp
      cases hp
      exact hq
    · rw [Table.find?_insert_other _ _ hk] at hp
      exact hx.2 k p hp

theorem below_erase (hx : Below n x) : Below n (x.erase key) := by
  rw [below_object_record] at hx ⊢
  constructor
  · exact hx.1
  · intro k p hp
    simp only [Object.erase] at hp
    by_cases hk : k = key
    · subst hk
      rw [Table.find?_erase_same] at hp
      cases hp
    · rw [Table.find?_erase_other _ hk] at hp
      exact hx.2 k p hp

theorem below_function? {field : Option Value} (hf : Below n field) :
    Below n (Descriptor.function? field) := by
  rcases field with _ | v
  · exact below_none
  · cases v with
    | object o => simpa [Descriptor.function?, Value.asObject?] using hf
    | _ => exact below_none

theorem below_value_getD {field : Option Value} {v : Value} (hf : Below n field) (hv : Below n v) :
    Below n (field.getD v) := by
  cases field with
  | none => exact hv
  | some w => simpa using hf

theorem below_toProperty (hd : Below n d) : Below n d.toProperty := by
  rw [below_descriptor] at hd
  unfold Descriptor.toProperty
  split
  · exact below_accessor.mpr ⟨below_function? hd.2.1, below_function? hd.2.2⟩
  · exact below_data.mpr (below_value_getD hd.1 (below_of_isObject_eq_false rfl))

theorem below_fillSlot {s : Slot} (hs : Below n s) (hd : Below n d) :
    Below n (Property.fillSlot d s) := by
  rw [below_descriptor] at hd
  cases s with
  | data v w => exact below_value_getD hd.1 hs
  | accessor getter setter =>
    have hg : Below n getter := fun o ho => hs o (.inl ho)
    have hw : Below n setter := fun o ho => hs o (.inr ho)
    rintro o (ho | ho)
    · split at ho
      · exact below_function? hd.2.1 o ho
      · exact hg o ho
    · split at ho
      · exact below_function? hd.2.2 o ho
      · exact hw o ho

theorem below_revise (hq : Below n q) (hd : Below n d) : Below n (q.revise d) := by
  have hstart : Below n (q.startSlot d) := by
    unfold Property.startSlot
    split
    · exact hq
    · split
      · rintro o (ho | ho) <;> exact below_none o ho
      · exact below_of_isObject_eq_false rfl
  exact below_fillSlot hstart hd

theorem below_ownProperty? (hx : Below n x) (hq : x.ownProperty? key = some q) : Below n q := by
  unfold Object.ownProperty? at hq
  split at hq
  next p hp => cases hq; exact (below_object_record.mp hx).2 key _ hp
  next =>
    unfold Object.unitProperty? at hq
    split at hq
    · obtain ⟨i, _, hi⟩ := Option.bind_eq_some_iff.mp hq
      obtain ⟨u, _, rfl⟩ := Option.map_eq_some_iff.mp hi
      exact below_data.mpr (below_of_isObject_eq_false rfl)
    · cases hq

theorem below_define (hx : Below n x) (hd : Below n d) (hy : x.define key d = .ok y) :
    Below n y := by
  rcases Object.define_cases hy with ⟨_, _, rfl⟩ | ⟨p, _, rfl⟩ | ⟨p, hp, _, rfl⟩
  · exact below_store hx (below_toProperty hd)
  · exact hx
  · exact below_store hx (below_revise (below_ownProperty? hx hp) hd)

theorem below_delete? (hx : Below n x) (hy : x.delete? key = some y) : Below n y := by
  rcases Object.delete?_cases hy with ⟨_, rfl⟩ | ⟨p, _, _, rfl⟩
  · exact hx
  · exact below_erase hx

theorem below_link {prototype : Option ObjectId} (hx : Below n x) (hp : Below n prototype) :
    Below n { x with prototype := prototype } := by
  rw [below_object_record] at hx ⊢
  exact ⟨hp, hx.2⟩

theorem below_ofKind (kind : ObjectKind) {prototype : Option ObjectId}
    (hp : Below n prototype) : Below n (Object.ofKind kind prototype) := by
  have hempty : Below n (⟨kind, .empty, prototype, true⟩ : Object) :=
    below_object_record.mpr ⟨hp, by simp⟩
  cases kind with
  | string t => exact below_store hempty (below_data.mpr (below_of_isObject_eq_false rfl))
  | _ => exact hempty

theorem below_empty : Below n empty := by
  rw [below_heap]
  exact fun _ => below_ofKind .ordinary below_none

theorem below_replace (hh : Below n h) (hx : Below n x) : Below n (h.replace o x) := by
  rw [below_heap] at hh ⊢
  intro p
  by_cases hp : p = o
  · subst hp
    rcases Nat.lt_or_ge p.index h.size with ho | ho
    · rw [object_replace_same x ho]
      exact hx
    · rw [replace_of_size_le ho]
      exact hh p
  · rw [object_replace_other x hp]
    exact hh p

theorem below_push (hh : Below h.size h) (hx : Below h.size x) :
    Below (h.push x).size (h.push x) := by
  rw [size_push, below_heap]
  intro p
  rcases Nat.lt_trichotomy p.index h.size with hp | hp | hp
  · rw [object_push_of_lt _ hp]
    exact (below_heap.mp hh p).mono (Nat.le_succ _)
  · obtain rfl : p = h.fresh := by cases p; simp_all [fresh]
    rw [object_push_fresh]
    exact hx.mono (Nat.le_succ _)
  · rw [object_of_size_le (by rw [size_push]; omega)]
    exact below_ofKind .ordinary below_none

/-- No change lets the heap mention an object that is not there. -/
theorem Effect.closed {c : Change} (he : h.Effect limit c k) (hh : Below h.size h)
    (hc : Below h.size c) : Below k.size k := by
  have hobject := below_heap.mp hh
  cases he with
  | unchanged => exact hh
  | create kind prototype => exact below_push hh (below_ofKind kind hc)
  | define o key d y accepted =>
    rw [size_replace]
    exact below_replace hh (below_define (hobject o) (below_change_define.mp hc).2 accepted)
  | delete o key y accepted =>
    rw [size_replace]
    exact below_replace hh (below_delete? (hobject o) accepted)
  | preventExtensions o =>
    rw [size_replace]
    exact below_replace hh (below_object_record.mpr (below_object_record.mp (hobject o)))
  | link o prototype _ _ =>
    rw [size_replace]
    exact below_replace hh (below_link (hobject o) (below_change_setPrototype.mp hc).2)

end Below

/-- A run of changes, each of which mentions only objects that are there at its turn. -/
inductive Evolves (limit : DepthLimit) (h : Heap) : List Change → Heap → Prop where
  | start : Evolves limit h [] h
  | change {cs : List Change} {k : Heap} (c : Change) (run : Evolves limit h cs k)
      (known : Below k.size c) : Evolves limit h (cs ++ [c]) (k.apply limit c)

theorem Evolves.one {c : Change} (hc : Below h.size c) : h.Evolves limit [c] (h.apply limit c) :=
  .change c .start hc

theorem Evolves.trans {cs ds : List Change} (hk : h.Evolves limit cs k)
    (hl : k.Evolves limit ds l) : h.Evolves limit (cs ++ ds) l := by
  induction hl with
  | start => simpa using hk
  | change c _ hc ih =>
    rw [← List.append_assoc]
    exact .change c ih hc

theorem Evolves.size_le {cs : List Change} (hk : h.Evolves limit cs k) : h.size ≤ k.size := by
  induction hk with
  | start => exact Nat.le_refl _
  | change c _ _ ih => exact Nat.le_trans ih (apply_effect _ _ c).size_le

theorem Evolves.closed {cs : List Change} (hk : h.Evolves limit cs k) (hh : Below h.size h) :
    Below k.size k := by
  induction hk with
  | start => exact hh
  | change c _ hc ih => exact (apply_effect _ _ c).closed ih hc

/-- What every step of an object keeps, a run of changes keeps. -/
theorem Evolves.preserves {P : Object → Prop} (hstep : ∀ x y, x.Step y → P x → P y)
    {cs : List Change} (hk : h.Evolves limit cs k) (ho : o.index < h.size)
    (hP : P (h.object o)) : P (k.object o) := by
  induction hk with
  | start => exact hP
  | change c run _ ih =>
    have hsize : o.index < _ := Nat.lt_of_lt_of_le ho run.size_le
    exact hstep _ _ ((apply_effect _ _ c).step hsize) ih

end Heap
end EcmaCore
