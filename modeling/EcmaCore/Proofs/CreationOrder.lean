import EcmaCore.Proofs.Definition
import EcmaCore.Proofs.Origin
import EcmaCore.Proofs.Reentry

/-!
# Keys in order of creation

The list of an object's keys tells in which order its properties were created. A change moves no key
within it: a property that is new comes last, one that is deleted leaves the others as they stand,
and every other change leaves the list as it is. By induction the list of an object that wraps no
text follows the changes by which its properties were last created, for every run that there can be.
-/
namespace EcmaCore

namespace Object
variable {x y : Object} {key : String}

theorem unitKeys_of_not_text (hk : ∀ t, x.kind ≠ .string t) : x.unitKeys = [] := by
  unfold unitKeys
  split
  next t ht => exact absurd ht (hk t)
  next => rfl

/-- A definition puts its key at the end of the list, or leaves the list as it is. -/
theorem ownKeys_define {d : Descriptor} (h : x.define key d = .ok y) :
    y.ownKeys = addKey key x.ownKeys := by
  rcases define_cases h with ⟨_, _, rfl⟩ | ⟨p, hp, rfl⟩ | ⟨_, _, _, rfl⟩
  · exact ownKeys_store x key _
  · exact (addKey_of_mem (mem_ownKeys_iff.mpr (Option.isSome_of_eq_some hp))).symm
  · exact ownKeys_store x key _

/-- A deletion takes its key out of the list and leaves no property under it. -/
theorem ownKeys_delete? (hk : ∀ t, x.kind ≠ .string t) (h : x.delete? key = some y) :
    y.ownKeys = x.ownKeys.filter (· != key) ∧ y.ownProperty? key = none := by
  rcases delete?_cases h with ⟨ha, rfl⟩ | ⟨_, _, _, rfl⟩
  · refine ⟨?_, ha⟩
    rw [ownProperty?_eq_none_iff] at ha
    rw [eq_comm, List.filter_eq_self]
    intro k hmem
    have hne : k ≠ key := by
      rintro rfl
      exact ha hmem
    simp [hne]
  · have hunit : key ∉ x.unitKeys := by simp [unitKeys_of_not_text hk]
    have hkeys := ownKeys_erase hunit
    refine ⟨hkeys, ?_⟩
    rw [ownProperty?_eq_none_iff, hkeys]
    simp

end Object

namespace Heap
variable {limit : DepthLimit} {h k : Heap} {o : ObjectId} {key : String} {cs : List Change}

/-- What a change can do to the list of keys of an object. -/
inductive Relists (h : Heap) (o : ObjectId) : Change → List String → Prop where
  | same (c : Change) : Relists h o c (h.object o).ownKeys
  | created (key : String) (d : Descriptor) (absent : (h.object o).ownProperty? key = none)
      (accepted : ∃ k, h.define o key d = .ok k) :
      Relists h o (.define o key d) ((h.object o).ownKeys ++ [key])
  | deleted (key : String) (accepted : ∃ k, h.delete? o key = some k) :
      Relists h o (.delete o key) ((h.object o).ownKeys.filter (· != key))

theorem relists_define {d : Descriptor} {y : Object} (accepted : (h.object o).define key d = .ok y) :
    h.Relists o (.define o key d) y.ownKeys := by
  rw [Object.ownKeys_define accepted]
  by_cases hmem : key ∈ (h.object o).ownKeys
  · rw [Object.addKey_of_mem hmem]
    exact .same _
  · rw [Object.addKey_of_not_mem hmem]
    exact .created key d (Object.ownProperty?_eq_none_iff.mpr hmem)
      ⟨_, define_ok_iff.mpr ⟨y, accepted, rfl⟩⟩

/-- A change of another object leaves the list. -/
theorem relists_replace {p : ObjectId} {y : Object} {c : Change} (ho : o.index < h.size)
    (hy : o = p → h.Relists o c y.ownKeys) : h.Relists o c ((h.replace p y).object o).ownKeys := by
  by_cases hop : o = p
  · subst hop
    rw [object_replace_same y ho]
    exact hy rfl
  · rw [object_replace_other y hop]
    exact .same c

/-- What one change does to the list of keys of an object that wraps no text. -/
theorem Effect.relists {c : Change} (he : h.Effect limit c k) (ho : o.index < h.size)
    (hk : ∀ t, (h.object o).kind ≠ .string t) : h.Relists o c (k.object o).ownKeys := by
  cases he with
  | unchanged => exact .same c
  | create kind prototype =>
    rw [object_push_of_lt _ ho]
    exact .same _
  | define p key d y accepted =>
    apply relists_replace ho
    rintro rfl
    exact relists_define accepted
  | delete p key y accepted =>
    apply relists_replace ho
    rintro rfl
    rw [(Object.ownKeys_delete? hk accepted).1]
    exact .deleted key ⟨_, delete?_eq_some_iff.mpr ⟨y, accepted, rfl⟩⟩
  | preventExtensions p =>
    apply relists_replace ho
    rintro rfl
    exact .same _
  | link p prototype _ _ =>
    apply relists_replace ho
    rintro rfl
    exact .same _

/-- An object that is new, or not there yet, and wraps no text has no keys. -/
theorem Effect.ownKeys_of_new {c : Change} (he : h.Effect limit c k) (ho : h.size ≤ o.index)
    (hk : ∀ t, (k.object o).kind ≠ .string t) : (k.object o).ownKeys = [] := by
  rcases Nat.lt_or_ge o.index k.size with hlt | hge
  · cases he with
    | create kind prototype =>
      rw [size_push] at hlt
      obtain rfl : o = h.fresh := congrArg ObjectId.mk (Nat.le_antisymm (Nat.le_of_lt_succ hlt) ho)
      rw [object_push_fresh] at hk ⊢
      cases kind with
      | string t => exact absurd rfl (hk t)
      | _ => rfl
    | unchanged => exact absurd hlt (Nat.not_lt.mpr ho)
    | _ =>
      rw [size_replace] at hlt
      exact absurd hlt (Nat.not_lt.mpr ho)
  · rw [object_of_size_le hge]
    rfl

/-- Among changes from the empty heap the one by which a property was last created: the property is
absent before it and present ever since. -/
structure BornAt (limit : DepthLimit) (cs : List Change) (o : ObjectId) (key : String) (i : Nat) :
    Prop where
  created : ∃ d, cs[i]? = some (.define o key d)
  absent : ((empty.applyAll limit (cs.take i)).object o).ownProperty? key = none
  present : ∀ m, i < m → m ≤ cs.length →
    ((empty.applyAll limit (cs.take m)).object o).ownProperty? key ≠ none

theorem BornAt.lt {i : Nat} (hb : BornAt limit cs o key i) : i < cs.length := by
  obtain ⟨d, hd⟩ := hb.created
  exact (List.getElem?_eq_some_iff.mp hd).1

/-- There is one such change at most. -/
theorem BornAt.unique {i j : Nat} (hi : BornAt limit cs o key i) (hj : BornAt limit cs o key j) :
    i = j := by
  rcases Nat.lt_trichotomy i j with hlt | heq | hlt
  · exact absurd hj.absent (hi.present j hlt (Nat.le_of_lt hj.lt))
  · exact heq
  · exact absurd hi.absent (hj.present i hlt (Nat.le_of_lt hi.lt))

/-- A property that is still there after a further change was created when it was before. -/
theorem BornAt.concat {i : Nat} (hb : BornAt limit cs o key i) {c : Change}
    (hp : ((empty.applyAll limit (cs ++ [c])).object o).ownProperty? key ≠ none) :
    BornAt limit (cs ++ [c]) o key i where
  created := by
    obtain ⟨d, hd⟩ := hb.created
    exact ⟨d, by rw [List.getElem?_append_left hb.lt, hd]⟩
  absent := by
    rw [List.take_append_of_le_length (Nat.le_of_lt hb.lt)]
    exact hb.absent
  present := by
    intro m him hm
    rcases Nat.lt_or_ge cs.length m with hlast | hbefore
    · rw [List.take_of_length_le (by simpa using Nat.succ_le_of_lt hlast)]
      exact hp
    · rw [List.take_append_of_le_length hbefore]
      exact hb.present m him hbefore

/-- The last change creates what was absent before it and is there after it. -/
theorem bornAt_length {d : Descriptor}
    (ha : ((empty.applyAll limit cs).object o).ownProperty? key = none)
    (hp : ((empty.applyAll limit (cs ++ [.define o key d])).object o).ownProperty? key ≠ none) :
    BornAt limit (cs ++ [.define o key d]) o key cs.length where
  created := ⟨d, by simp⟩
  absent := by
    rw [List.take_left]
    exact ha
  present := by
    intro m him hm
    rw [List.take_of_length_le (by simpa using Nat.succ_le_of_lt him)]
    exact hp

/-- Each of the keys has its creation among the changes, and they come in the order of these. -/
def ListedByAge (limit : DepthLimit) (cs : List Change) (o : ObjectId) (keys : List String) : Prop :=
  ∃ birth : String → Nat, (∀ key ∈ keys, BornAt limit cs o key (birth key)) ∧
    keys.Pairwise (birth · < birth ·)

theorem listedByAge_nil : ListedByAge limit cs o [] := ⟨fun _ => 0, by simp, .nil⟩

/-- Of the keys that are still there the order stays. -/
theorem ListedByAge.concat {keys rest : List String} (hl : ListedByAge limit cs o keys) {c : Change}
    (hsub : rest.Sublist keys)
    (hp : ∀ key ∈ rest, ((empty.applyAll limit (cs ++ [c])).object o).ownProperty? key ≠ none) :
    ListedByAge limit (cs ++ [c]) o rest := by
  obtain ⟨birth, hbirth, hkeys⟩ := hl
  exact ⟨birth, fun key hmem => (hbirth key (hsub.subset hmem)).concat (hp key hmem),
    hkeys.sublist hsub⟩

/-- A property that was created last is listed last. -/
theorem ListedByAge.created {keys : List String} (hl : ListedByAge limit cs o keys) {d : Descriptor}
    (ha : ((empty.applyAll limit cs).object o).ownProperty? key = none) (hnew : key ∉ keys)
    (hp : ∀ k ∈ keys ++ [key],
      ((empty.applyAll limit (cs ++ [.define o key d])).object o).ownProperty? k ≠ none) :
    ListedByAge limit (cs ++ [.define o key d]) o (keys ++ [key]) := by
  obtain ⟨birth, hbirth, hkeys⟩ := hl
  have hold : ∀ k ∈ keys, (if k = key then cs.length else birth k) = birth k := by
    intro k hk
    have hne : k ≠ key := by
      rintro rfl
      exact hnew hk
    rw [if_neg hne]
  -- The new key is born by the last change, after all that are listed before it.
  refine ⟨fun k => if k = key then cs.length else birth k, fun k hk => ?_, ?_⟩
  · rcases List.mem_append.mp hk with hmem | hmem
    · simp only [hold k hmem]
      exact (hbirth k hmem).concat (hp k hk)
    · obtain rfl := List.mem_singleton.mp hmem
      simp only [if_true]
      exact bornAt_length ha (hp k hk)
  · rw [List.pairwise_append]
    refine ⟨hkeys.imp_of_mem fun {a b} hma hmb hab => ?_, List.pairwise_singleton _ _, ?_⟩
    · simp only [hold a hma, hold b hmb]
      exact hab
    · intro a hma b hmb
      obtain rfl := List.mem_singleton.mp hmb
      simp only [hold a hma, if_true]
      exact (hbirth a hma).lt

/-- By induction on the changes: the last one leaves a part of the list, which keeps its order, or
adds a key at its end, which it creates. -/
theorem Evolves.listedByAge (hk : empty.Evolves limit cs k)
    (htext : ∀ t, (k.object o).kind ≠ .string t) :
    ListedByAge limit cs o (k.object o).ownKeys := by
  induction hk with
  | start => exact listedByAge_nil
  | @change cs k c run known ih =>
    have hafter : empty.applyAll limit (cs ++ [c]) = k.apply limit c := by
      rw [applyAll_concat, ← run.eq_applyAll]
    have hpresent : ∀ key ∈ ((k.apply limit c).object o).ownKeys,
        ((empty.applyAll limit (cs ++ [c])).object o).ownProperty? key ≠ none := by
      intro key hmem hnone
      rw [hafter] at hnone
      exact Object.ownProperty?_eq_none_iff.mp hnone hmem
    have he := k.apply_effect limit c
    -- Only an object that is there has a kind that the change keeps; a new one has no keys.
    rcases Nat.lt_or_ge o.index k.size with ho | ho
    · have hkind : ∀ t, (k.object o).kind ≠ .string t := by
        rw [← (he.step ho).kind]
        exact htext
      have hrelists := he.relists ho hkind
      generalize ((k.apply limit c).object o).ownKeys = keys at hrelists hpresent ⊢
      cases hrelists with
      | same => exact (ih hkind).concat (.refl _) hpresent
      | created key d absent _ =>
        have habsent := absent
        rw [run.eq_applyAll] at habsent
        exact (ih hkind).created habsent (Object.ownProperty?_eq_none_iff.mp absent) hpresent
      | deleted key _ => exact (ih hkind).concat List.filter_sublist hpresent
    · rw [he.ownKeys_of_new ho htext]
      exact listedByAge_nil

end Heap

variable {σ : Type} {host : Host σ} {u v w : World σ} {o : ObjectId} {key : String} {strict : Bool}

/-- What an assignment does to the keys of its object: it only calls a setter, or changes nothing, or
stores a value under its key. -/
inductive Host.Puts (host : Host σ) (o : ObjectId) (key : String) (a : Value) (strict : Bool)
    (w : World σ) : Prop where
  | called (setter : ObjectId)
      (result : host.put o key a strict w = discard (host.callObject setter (.object o) [a]) w)
  | unchanged (result : (host.put o key a strict).after w = w)
  | stored (u : World σ) (result : host.put o key a strict w = .ok () u)
      (present : key ∈ (u.heap.object o).ownKeys)
      (keys : (u.heap.object o).ownKeys = Object.addKey key (w.heap.object o).ownKeys)

theorem Host.put_puts (host : Host σ) (ho : o.index < w.heap.size) (key : String) (a : Value)
    (strict : Bool) : host.Puts o key a strict w := by
  have hstored : ∀ p, host.put o key a strict w = .ok () { w with
      heap := w.heap.replace o ((w.heap.object o).store key p) } →
      host.Puts o key a strict w := by
    intro p result
    refine .stored _ result ?_ ?_
    · rw [Heap.object_replace_same _ ho, Object.mem_ownKeys_iff, Object.ownProperty?_store_same]
      rfl
    · rw [Heap.object_replace_same _ ho, Object.ownKeys_store]
  cases host.course o key w with
  | fault e _ result =>
    refine .unchanged ?_
    rw [Act.after, put_eq_assign, result]
  | refused result =>
    refine .unchanged ?_
    rw [Act.after, put_eq_assign, result]
    cases strict <;> rfl
  | own b e c hp result =>
    refine hstored ⟨.data a true, e, c⟩ ?_
    rw [put_eq_assign, result, Act.discard_define_value hp]
  | called getter setter e c _ result =>
    refine .called setter ?_
    rw [put_eq_assign, result]
  | new ha he result =>
    refine hstored (.data a true true true) ?_
    rw [put_eq_assign, result, Act.discard_define_new ha he]

/-- What the list of an object's keys tells, and what is done to it. -/
structure World.ListsByAge (host : Host σ) (v : World σ) (o : ObjectId) : Prop where
  complete : ∀ key,
    key ∈ (v.heap.object o).ownKeys ↔ ((v.heap.object o).ownProperty? key).isSome = true
  nodup : (v.heap.object o).ownKeys.Nodup
  explained : ∃ cs, Heap.empty.Evolves host.limit cs v.heap
  /-- The list is in order of creation in whatever changes explain the heap. -/
  order : ∀ cs, Heap.empty.Evolves host.limit cs v.heap →
    Heap.ListedByAge host.limit cs o (v.heap.object o).ownKeys
  /-- What any further change does to the list, also one that a callable makes. -/
  change : ∀ c, v.heap.Relists o c ((v.heap.apply host.limit c).object o).ownKeys
  define : ∀ key d strict u, Act.define o key d strict v = .ok true u →
    key ∈ (u.heap.object o).ownKeys ∧
    (u.heap.object o).ownKeys = Object.addKey key (v.heap.object o).ownKeys
  refusedDefinition : ∀ key d strict, (∀ u, Act.define o key d strict v ≠ .ok true u) →
    (Act.define o key d strict).after v = v
  delete : ∀ key strict u, Act.delete o key strict v = .ok true u →
    (u.heap.object o).ownKeys = (v.heap.object o).ownKeys.filter (· != key) ∧
    (u.heap.object o).ownProperty? key = none
  refusedDeletion : ∀ key strict, (∀ u, Act.delete o key strict v ≠ .ok true u) →
    (Act.delete o key strict).after v = v
  put : ∀ key a strict, host.Puts o key a strict v

/-- After every run of operations, whatever the callables do, an object that wraps no text lists its
keys in order of creation. -/
theorem keys_in_order_of_creation [Mentions σ] (law : host.Lawful) (hw : w.Reachable host.limit)
    {ops : List Operation} (run : host.Performs w ops v) (ho : o.index < v.heap.size)
    (hk : ∀ t, (v.heap.object o).kind ≠ .string t) : v.ListsByAge host o where
  complete _ := Object.mem_ownKeys_iff
  nodup := Object.nodup_ownKeys _
  explained := ((run.leads law hw).reachable hw).history
  order _ hcs := hcs.listedByAge hk
  change c := (v.heap.apply_effect host.limit c).relists ho hk
  define key d strict u hu := by
    obtain ⟨y, hy, rfl⟩ := Act.define_ok_true_iff.mp hu
    rw [Heap.object_replace_same y ho, Object.mem_ownKeys_iff, Object.ownProperty?_define hy]
    exact ⟨rfl, Object.ownKeys_define hy⟩
  refusedDefinition _ _ _ := Act.after_define_of_ne
  delete key strict u hu := by
    obtain ⟨y, hy, rfl⟩ := Act.delete_ok_true_iff.mp hu
    rw [Heap.object_replace_same y ho]
    exact Object.ownKeys_delete? hk hy
  refusedDeletion _ _ := Act.after_delete_of_ne
  put key a strict := host.put_puts ho key a strict

/-- A key that is deleted and assigned again comes last. -/
theorem keys_in_order_of_creation_again :
    ∃ v, (Host.nested .default .meddle 3 : Host Unit).Performs (.start ())
        [.create .ordinary none, .define ⟨0⟩ "b" { configurable := some true } true,
          .define ⟨0⟩ "a" .empty true, .delete ⟨0⟩ "b" true, .put ⟨0⟩ "b" .null true] v ∧
      (v.heap.object ⟨0⟩).ownKeys = ["a", "b"] ∧
      v.ListsByAge (Host.nested .default .meddle 3) ⟨0⟩ := by
  have law : (Host.nested .default .meddle 3 : Host Unit).Lawful :=
    Host.nested_lawful Body.meddle_lawful .default 3
  have hdefine (key : String) (c : Option Bool) :
      Below 1 (Operation.define ⟨0⟩ key { configurable := c } true) := by
    rintro p (hp | hp | hp | hp)
    · exact below_objectId.mpr (by decide) p hp
    all_goals exact below_none p hp
  have hdelete : Below 1 (Operation.delete ⟨0⟩ "b" true) := below_objectId.mpr (by decide)
  have hput : Below 1 (Operation.put ⟨0⟩ "b" .null true) := by
    rintro p (hp | hp)
    · exact below_objectId.mpr (by decide) p hp
    · exact below_of_isObject_eq_false (v := .null) rfl p hp
  have run : (Host.nested .default .meddle 3 : Host Unit).Performs (.start ())
      [.create .ordinary none, .define ⟨0⟩ "b" { configurable := some true } true,
        .define ⟨0⟩ "a" .empty true, .delete ⟨0⟩ "b" true, .put ⟨0⟩ "b" .null true] _ :=
    .operation below_none (.operation (hdefine "b" _) (.operation (hdefine "a" none)
      (.operation hdelete (.operation hput (.done _)))))
  have hkind {x : Object} (hx : x.kind = .ordinary) : ∀ t, x.kind ≠ .string t := by
    intro t
    rw [hx]
    exact nofun
  refine ⟨_, run, by decide +kernel, ?_⟩
  exact keys_in_order_of_creation law (World.reachable_start _ below_unit) run (by decide +kernel)
    (hkind (by decide +kernel))

end EcmaCore
