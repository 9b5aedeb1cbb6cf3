import EcmaCore.Proofs.Assignment
import EcmaCore.Proofs.Lawful

/-!
# Operations of a lawful host

Each public operation, on arguments that are there, does nothing to the heap but changes, and its
result mentions only what is there. Of the callables only their law is used.
-/
namespace EcmaCore

variable {σ : Type} [Mentions σ] {limit : DepthLimit} {w : World σ} {o : ObjectId} {key : String}
  {v : Value}

namespace Act

theorem define_keeps (hw : w.Closed) (ho : o.index < w.heap.size) {d : Descriptor}
    (hd : Below w.heap.size d) (strict : Bool) : (define o key d strict).Keeps limit w := by
  apply keeps_heap
  cases hk : w.heap.define o key d with
  | ok h =>
    have hc : Below w.heap.size (Change.define o key d) := below_change_define.mpr ⟨ho, hd⟩
    have hl : w.Leads limit _ := World.leads_apply hw hc
    rw [Heap.apply_define_of_ok hk] at hl
    exact ⟨hl, below_bool⟩
  | error e =>
    cases e with
    | mixed => exact keeps_throw hw (below_fault rfl)
    | refused reason =>
      cases strict with
      | true => exact keeps_throw hw (below_fault rfl)
      | false => exact keeps_pure hw below_bool

theorem delete_keeps (hw : w.Closed) (ho : o.index < w.heap.size) (strict : Bool) :
    (delete o key strict).Keeps limit w := by
  apply keeps_heap
  cases hk : w.heap.delete? o key with
  | some h =>
    have hl : w.Leads limit _ :=
      World.leads_apply hw (c := .delete o key) (below_objectId.mpr ho)
    rw [Heap.apply_delete_of_some hk] at hl
    exact ⟨hl, below_bool⟩
  | none =>
    cases strict with
    | true => exact keeps_throw hw (below_fault rfl)
    | false => exact keeps_pure hw below_bool

theorem preventExtensions_keeps (hw : w.Closed) (ho : o.index < w.heap.size) :
    (preventExtensions o).Keeps limit w :=
  ⟨World.leads_apply hw (c := .preventExtensions o) (below_objectId.mpr ho), below_unit⟩

theorem create_keeps (hw : w.Closed) (kind : ObjectKind) {prototype : Option ObjectId}
    (hp : Below w.heap.size prototype) : (create (.ofKind kind prototype)).Keeps limit w := by
  refine ⟨World.leads_apply hw (c := .create kind prototype) hp, ?_⟩
  simp [Heap.fresh]

theorem intrinsic_keeps (hw : w.Closed) (i : Intrinsic) : (intrinsic? i).Keeps limit w :=
  ⟨.refl hw, below_realm.mp hw.realm i⟩

theorem setIntrinsic_keeps (hw : w.Closed) (i : Intrinsic) {p : Option ObjectId}
    (hp : Below w.heap.size p) : (setIntrinsic i p).Keeps limit w := by
  refine ⟨⟨⟨hw.heap, ?_, hw.scopes, hw.host⟩, [], .start⟩, below_realm.mp hw.realm i⟩
  rw [below_realm]
  intro j
  by_cases hj : j = i
  · subst hj
    rw [Realm.get?_set_same]
    exact hp
  · rw [Realm.get?_set_other _ _ hj]
    exact below_realm.mp hw.realm j

theorem wrapper_keeps (hw : w.Closed) (kind : ObjectKind) (i : Intrinsic) :
    (intrinsic? i >>= fun p => create (.ofKind kind p)).Keeps limit w :=
  keeps_bind (intrinsic_keeps hw i) fun _ _ hv hp => create_keeps hv.closed kind hp

theorem toObject_keeps (hw : w.Closed) (hv : Below w.heap.size v) :
    (toObject v).Keeps limit w := by
  cases v with
  | undefined | null => exact keeps_throw hw (below_some.mpr (below_of_isObject_eq_false rfl))
  | boolean b => exact wrapper_keeps hw (.boolean b) .booleanPrototype
  | number x => exact wrapper_keeps hw (.number x) .numberPrototype
  | string t => exact wrapper_keeps hw (.string t) .stringPrototype
  | object o => exact keeps_pure hw (below_objectId.mpr (below_object.mp hv))

theorem ofChain_keeps {α : Type} [Mentions α] (hw : w.Closed) (key : String)
    {r : Except ChainFault α} (hr : ∀ a, r = .ok a → Below w.heap.size a) :
    (ofChain key r).Keeps limit w := by
  cases r with
  | ok a => exact keeps_pure hw (hr a rfl)
  | error e => cases e <;> exact keeps_throw hw (below_fault rfl)

theorem ofExcept_keeps {α : Type} [Mentions α] (hw : w.Closed) {r : Except Fault α}
    (hr : ∀ a, r = .ok a → Below w.heap.size a) (he : ∀ e, r = .error e → Below w.heap.size e) :
    (ofExcept r : Act σ α).Keeps limit w := by
  cases r with
  | ok a => exact keeps_pure hw (hr a rfl)
  | error e => exact keeps_throw hw (he e rfl)

theorem createScope_keeps (hw : w.Closed) {s : Scope} (hs : Below w.heap.size s) :
    (createScope s).Keeps limit w := by
  refine ⟨⟨⟨hw.heap, hw.realm, fun i => ?_, hw.host⟩, [], .start⟩, below_scopeId⟩
  simp only [World.scope, Array.getD_eq_getD_getElem?, Array.getElem?_push]
  split
  · exact hs
  · simpa [World.scope, Array.getD_eq_getD_getElem?] using hw.scopes i

theorem setScope_keeps (hw : w.Closed) {i : ScopeId} {s : Scope} (hs : Below w.heap.size s) :
    (setScope i s).Keeps limit w := by
  refine ⟨⟨⟨hw.heap, hw.realm, fun j => ?_, hw.host⟩, [], .start⟩, below_unit⟩
  have hold := hw.scopes j
  simp only [World.scope, Array.getD_eq_getD_getElem?, Array.getElem?_setIfInBounds] at hold ⊢
  split
  · split
    · exact hs
    · exact below_scope.mpr fun name => below_none
  · exact hold

theorem checkCoercible_keeps (hw : w.Closed) (hv : Below w.heap.size v) :
    (checkCoercible v).Keeps limit w := by
  unfold checkCoercible
  split
  · exact keeps_pure hw below_unit
  · exact keeps_throw hw (below_some.mpr hv)

end Act

namespace Scope
variable {n : Nat} {s z : Scope} {name : String} {strict : Bool}

theorem below_get (hs : Below n s) (hv : s.get name strict = .ok v) : Below n v := by
  have hb := below_scope.mp hs name
  unfold get at hv
  split at hv
  next kind u hu =>
    cases hv
    rw [hu, below_some] at hb
    exact below_some.mp hb
  next =>
    split at hv <;> cases hv
    exact below_of_isObject_eq_false rfl
  next => cases hv

theorem below_get_fault {e : Fault} (he : s.get name strict = .error e) : Below n e := by
  unfold get at he
  split at he
  · cases he
  · split at he <;> cases he
    exact below_none
  · cases he
    exact below_none

theorem below_insert {b : Binding} (hs : Below n s) (hb : Below n b) :
    Below n (⟨s.bindings.insert name b⟩ : Scope) := by
  rw [below_scope] at hs ⊢
  intro m
  by_cases hm : m = name
  · subst hm
    rw [binding?, Table.find?_insert_same]
    exact below_some.mpr hb
  · rw [binding?, Table.find?_insert_other _ _ hm]
    exact hs m

theorem below_set (hs : Below n s) (hv : Below n v) (hz : s.set name v strict = .ok z) :
    Below n z := by
  unfold set at hz
  split at hz
  · cases hz
  · split at hz <;> cases hz
    exact hs
  · cases hz
    exact below_insert hs (below_some.mpr hv)

theorem below_set_fault {e : Fault} (he : s.set name v strict = .error e) : Below n e := by
  unfold set at he
  split at he
  · cases he
    exact below_none
  · split at he <;> cases he
    exact below_none
  · cases he

end Scope

/-- With one field stored the fields that are left are still absent. -/
theorem Object.absent_store {x : Object} {f : String × Value} {rest : List (String × Value)}
    (hf : f.1 ∉ rest.map (·.1)) (habsent : ∀ g ∈ f :: rest, x.ownProperty? g.1 = none)
    (p : Property) : ∀ g ∈ rest, (x.store f.1 p).ownProperty? g.1 = none := by
  intro g hg
  have hne : g.1 ≠ f.1 := by
    intro he
    exact hf (he ▸ List.mem_map_of_mem hg)
  rw [ownProperty?_store_other x _ hne]
  exact habsent g (List.mem_cons_of_mem f hg)

namespace Heap

/-- Defining a field of an object that was just made is as good as making it with the field. -/
theorem define_push {h : Heap} {x : Object} (hx : x.extensible = true)
    (hk : x.ownProperty? key = none) :
    (h.push x).define h.fresh key (.data v true true true) =
      .ok (h.push (x.store key (.data v true true true))) := by
  rw [define, object_push_fresh, Object.define_new hk hx]
  simp [Except.map, replace, push, fresh, size, Array.setIfInBounds, Array.set_push]

theorem evolves_fields {h : Heap} (fields : List (String × Value)) {x : Object}
    (hx : x.extensible = true) (hnodup : (fields.map (·.1)).Nodup)
    (habsent : ∀ f ∈ fields, x.ownProperty? f.1 = none) (hb : ∀ f ∈ fields, Below h.size f.2) :
    ∃ cs, (h.push x).Evolves limit cs
      (h.push (fields.foldl (fun y f => y.store f.1 (.data f.2 true true true)) x)) := by
  induction fields generalizing x with
  | nil => exact ⟨[], .start⟩
  | cons f rest ih =>
    rw [List.map_cons, List.nodup_cons] at hnodup
    obtain ⟨cs, hcs⟩ := ih (x := x.store f.1 (.data f.2 true true true)) hx hnodup.2
      (Object.absent_store hnodup.1 habsent _) (fun g hg => hb g (List.mem_cons_of_mem f hg))
    have hc : Below (h.push x).size (Change.define h.fresh f.1 (.data f.2 true true true)) := by
      have hf : Below h.size (Descriptor.data f.2 true true true) :=
        below_descriptor.mpr
          ⟨below_some.mpr (hb f List.mem_cons_self), below_none, below_none⟩
      rw [size_push, below_change_define]
      exact ⟨Nat.lt_succ_self _, hf.mono (Nat.le_succ _)⟩
    have hone : (h.push x).Evolves limit _ _ := .one hc
    rw [apply_define_of_ok (define_push hx (habsent f List.mem_cons_self))] at hone
    exact ⟨_, hone.trans hcs⟩

/-- An object that describes a property comes about by making it and defining its fields. -/
theorem evolves_toObject {h : Heap} {p : Property} {prototype : Option ObjectId}
    (hp : Below h.size p) (hl : Below h.size prototype) :
    ∃ cs, h.Evolves limit cs (h.push (p.toObject prototype)) := by
  have hmake : h.Evolves limit [.create .ordinary prototype] (h.push (.ordinary prototype)) :=
    .one (c := .create .ordinary prototype) hl
  have hfields : ∃ cs, (h.push (.ordinary prototype)).Evolves limit cs
      (h.push (p.toObject prototype)) := by
    refine evolves_fields _ rfl p.nodup_fields (fun _ _ => rfl) ?_
    obtain ⟨slot, e, c⟩ := p
    have hflag : ∀ b, Below h.size (Value.boolean b) := fun _ => below_of_isObject_eq_false rfl
    cases slot with
    | data v writable =>
      have hv : Below h.size v := below_data.mp hp
      simp [Property.fields, hflag, hv]
    | accessor getter setter =>
      have hgs := below_accessor.mp hp
      simp [Property.fields, hflag, hgs.1, hgs.2]
  obtain ⟨cs, hcs⟩ := hfields
  exact ⟨_, hmake.trans hcs⟩

theorem Finds.known {n : Nat} {h : Heap} {r : Option Property} (hr : h.Finds key o r)
    (hh : Below n h) : Below n r := by
  induction hr with
  | own hp => exact below_some.mpr (below_ownProperty? (below_heap.mp hh _) hp)
  | root => exact below_none
  | inherited _ _ _ ih => exact ih

end Heap

theorem Act.describe_keeps (hw : w.Closed) {p : Option Property} (hp : Below w.heap.size p) :
    (describe p).Keeps limit w := by
  cases p with
  | none => exact keeps_pure hw (below_of_isObject_eq_false rfl)
  | some p =>
    apply keeps_bind (intrinsic_keeps hw .objectPrototype)
    intro q u hu hq
    obtain ⟨cs, hcs⟩ := Heap.evolves_toObject ((below_some.mp hp).mono hu.size_le) hq
    refine ⟨World.leads_evolves hu.closed hcs, ?_⟩
    simp [Heap.fresh]

namespace Host
open Act
variable {host : Host σ} {s t : Value} {args : List Value}

theorem setPrototype_keeps (hw : w.Closed) (ho : o.index < w.heap.size) {p : Option ObjectId}
    (hp : Below w.heap.size p) : (host.setPrototype o p).Keeps host.limit w := by
  apply keeps_heap
  cases hk : w.heap.setPrototype? host.limit o p with
  | none => exact keeps_pure hw below_bool
  | some h =>
    have hc : Below w.heap.size (Change.setPrototype o p) := below_change_setPrototype.mpr ⟨ho, hp⟩
    have hl : w.Leads host.limit _ := World.leads_apply hw hc
    rw [Heap.apply_setPrototype_of_some hk] at hl
    exact ⟨hl, below_bool⟩

theorem getProperty_keeps (hw : w.Closed) (o : ObjectId) (key : String) :
    (host.getProperty o key).Keeps host.limit w :=
  keeps_heap (ofChain_keeps hw key fun _ hp => (Heap.finds_of_lookup hp).known hw.heap)

theorem hasProperty_keeps (hw : w.Closed) (o : ObjectId) (key : String) :
    (host.hasProperty o key).Keeps host.limit w :=
  keeps_bind (getProperty_keeps hw o key) fun _ _ hu _ => keeps_pure hu.closed below_bool

theorem canPut_keeps (hw : w.Closed) (o : ObjectId) (key : String) :
    (host.canPut o key).Keeps host.limit w :=
  keeps_heap (ofChain_keeps hw key fun _ _ => below_bool)

section Calls
variable (law : host.Lawful) (hw : w.Reachable host.limit)
include law hw

theorem callObject_keeps {f : ObjectId} (hf : f.index < w.heap.size) (hs : Below w.heap.size s)
    (ha : Below w.heap.size args) : (host.callObject f s args).Keeps host.limit w := by
  apply keeps_object
  split
  · exact law.invoke _ s args hw hs ha
  · exact keeps_throw hw.closed (below_some.mpr (below_object.mpr hf))

theorem call_keeps {f : Value} (hf : Below w.heap.size f) (hs : Below w.heap.size s)
    (ha : Below w.heap.size args) : (host.call f s args).Keeps host.limit w := by
  cases f with
  | object o => exact callObject_keeps law hw (below_object.mp hf) hs ha
  | _ => exact keeps_throw hw.closed (below_some.mpr (below_of_isObject_eq_false rfl))

theorem read_keeps {p : Option Property} (hp : Below w.heap.size p) (hs : Below w.heap.size s) :
    (host.read p s).Keeps host.limit w := by
  rcases p with _ | ⟨slot, e, c⟩
  · exact keeps_pure hw.closed (below_of_isObject_eq_false rfl)
  · have hslot := below_some.mp hp
    cases slot with
    | data u writable => exact keeps_pure hw.closed (below_data.mp hslot)
    | accessor getter setter =>
      cases getter with
      | none => exact keeps_pure hw.closed (below_of_isObject_eq_false rfl)
      | some g =>
        have hg := (below_accessor.mp hslot).1
        exact callObject_keeps law hw (below_objectId.mp (below_some.mp hg)) hs below_nil

theorem get_keeps (ho : o.index < w.heap.size) (key : String) :
    (host.get o key).Keeps host.limit w := by
  apply keeps_bind (getProperty_keeps hw.closed o key)
  intro p u hu hp
  exact read_keeps law (hu.reachable hw) hp (below_object.mpr (Nat.lt_of_lt_of_le ho hu.size_le))

theorem getV_keeps (hv : Below w.heap.size v) (key : String) :
    (host.getV v key).Keeps host.limit w := by
  apply keeps_bind (toObject_keeps hw.closed hv)
  intro o u hu _
  apply keeps_bind (getProperty_keeps hu.closed o key)
  intro p z hz hp
  exact read_keeps law (hz.reachable (hu.reachable hw)) hp
    (hv.mono (Nat.le_trans hu.size_le hz.size_le))

theorem getMethod_keeps (hv : Below w.heap.size v) (key : String) :
    (host.getMethod v key).Keeps host.limit w := by
  apply keeps_bind (getV_keeps law hw hv key)
  intro f u hu hf
  split
  · exact keeps_pure hu.closed (below_of_isObject_eq_false rfl)
  · apply keeps_heap
    split
    · exact keeps_pure hu.closed hf
    · exact keeps_throw hu.closed (below_fault rfl)

theorem write_keeps {setter : Option ObjectId} (hset : Below w.heap.size setter)
    (hs : Below w.heap.size s) (hv : Below w.heap.size v) :
    (host.write setter s v).Keeps host.limit w := by
  cases setter with
  | none => exact keeps_pure hw.closed below_unit
  | some f =>
    have hf := below_objectId.mp (below_some.mp hset)
    exact keeps_discard (callObject_keeps law hw hf hs (below_cons.mpr ⟨hv, below_nil⟩))

theorem put_keeps (ho : o.index < w.heap.size) (hv : Below w.heap.size v) (key : String)
    (strict : Bool) : (host.put o key v strict).Keeps host.limit w := by
  have hdefine : ∀ {z : World σ}, z.Closed → w.heap.size ≤ z.heap.size → ∀ b e c : Option Bool,
      (discard (define o key { value := v, writable := b, enumerable := e, configurable := c }
        strict) : Act σ Unit).Keeps host.limit z := by
    intro z hz hsize b e c
    refine keeps_discard (define_keeps hz (Nat.lt_of_lt_of_le ho hsize) ?_ strict)
    exact below_descriptor.mpr ⟨below_some.mpr (hv.mono hsize), below_none, below_none⟩
  apply keeps_next hw ho (canPut_keeps hw.closed o key)
  intro allowed u hu hou hsu _
  split
  · apply keeps_object
    split
    · exact hdefine hu.closed hsu none none none
    · apply keeps_next hu hou (getProperty_keeps hu.closed o key)
      intro p z hz hoz hsz hp
      split
      · have hset := (below_accessor.mp (below_some.mp hp)).2
        exact write_keeps law hz hset (below_object.mpr hoz) (hv.mono (Nat.le_trans hsu hsz))
      · exact hdefine hz.closed (Nat.le_trans hsu hsz) (some true) (some true) (some true)
  · split
    · exact keeps_throw hu.closed (below_fault rfl)
    · exact keeps_pure hu.closed below_unit

theorem tryMethods_keeps (ho : o.index < w.heap.size) (keys : List String) :
    (host.tryMethods o keys).Keeps host.limit w := by
  induction keys generalizing w with
  | nil => exact keeps_throw hw.closed (below_fault rfl)
  | cons key rest ih =>
    apply keeps_next hw ho (get_keeps law hw ho key)
    intro f u hu hou _ hf
    apply keeps_heap
    split
    · apply keeps_next hu hou (call_keeps law hu hf (below_object.mpr hou) below_nil)
      intro r z hz hoz _ hr
      split
      · exact ih hz hoz
      · exact keeps_pure hz.closed hr
    · exact ih hu hou

theorem toPrimitive_keeps (hv : Below w.heap.size v) (hint : Hint) :
    (host.toPrimitive v hint).Keeps host.limit w := by
  cases v with
  | object o => exact tryMethods_keeps law hw (below_object.mp hv) hint.methods
  | _ => exact keeps_pure hw.closed (below_of_isObject_eq_false rfl)

theorem toNumber_keeps (hv : Below w.heap.size v) : (host.toNumber v).Keeps host.limit w :=
  keeps_bind (toPrimitive_keeps law hw hv .number) fun _ _ hu _ =>
    keeps_pure hu.closed below_binary64

theorem toIntegral_keeps (hv : Below w.heap.size v) : (host.toIntegral v).Keeps host.limit w :=
  keeps_bind (toNumber_keeps law hw hv) fun _ _ hu _ => keeps_pure hu.closed below_binary64

theorem toInt32_keeps (hv : Below w.heap.size v) : (host.toInt32 v).Keeps host.limit w :=
  keeps_bind (toNumber_keeps law hw hv) fun _ _ hu _ => keeps_pure hu.closed below_int32

theorem toUInt32_keeps (hv : Below w.heap.size v) : (host.toUInt32 v).Keeps host.limit w :=
  keeps_bind (toNumber_keeps law hw hv) fun _ _ hu _ => keeps_pure hu.closed below_uint32

theorem toUInt16_keeps (hv : Below w.heap.size v) : (host.toUInt16 v).Keeps host.limit w :=
  keeps_bind (toNumber_keeps law hw hv) fun _ _ hu _ => keeps_pure hu.closed below_uint16

theorem toText_keeps (hv : Below w.heap.size v) (format : Formatter) :
    (host.toText v format).Keeps host.limit w :=
  keeps_bind (toPrimitive_keeps law hw hv .string) fun _ _ hu _ => keeps_pure hu.closed below_text

theorem looseEquals_keeps (hs : Below w.heap.size s) (ht : Below w.heap.size t) :
    (host.looseEquals s t).Keeps host.limit w := by
  unfold looseEquals
  split
  · exact keeps_pure hw.closed below_bool
  · split
    · exact keeps_bind (toPrimitive_keeps law hw hs .default) fun _ _ hu _ =>
        keeps_pure hu.closed below_bool
    · exact keeps_pure hw.closed below_bool
  · split
    · exact keeps_bind (toPrimitive_keeps law hw ht .default) fun _ _ hu _ =>
        keeps_pure hu.closed below_bool
    · exact keeps_pure hw.closed below_bool
  · exact keeps_pure hw.closed below_bool

theorem readField_keeps (ho : o.index < w.heap.size) (key : String) :
    (host.readField o key).Keeps host.limit w := by
  apply keeps_object
  split
  · exact keeps_bind (get_keeps law hw ho key) fun a u hu ha =>
      keeps_pure hu.closed (below_some.mpr ha)
  · exact keeps_pure hw.closed below_none

theorem readFlag_keeps (ho : o.index < w.heap.size) (key : String) :
    (host.readFlag o key).Keeps host.limit w := by
  apply keeps_bind (readField_keeps law hw ho key)
  intro a u hu _
  apply keeps_pure hu.closed
  cases a with
  | none => exact below_none
  | some a => exact below_some.mpr below_bool

theorem readFunction_keeps (ho : o.index < w.heap.size) (key : String)
    {cause : Value → TypeErrorCause}
    (hcause : ∀ f n, Below n f → Below n (Fault.typeError (cause f))) :
    (host.readFunction o key cause).Keeps host.limit w := by
  apply keeps_bind (readField_keeps law hw ho key)
  intro a u hu ha
  cases a with
  | none => exact keeps_pure hu.closed below_none
  | some f =>
    apply keeps_heap
    split
    · exact keeps_pure hu.closed ha
    · exact keeps_throw hu.closed (hcause f _ (below_some.mp ha))

theorem toDescriptor_keeps (hv : Below w.heap.size v) :
    (host.toDescriptor v).Keeps host.limit w := by
  cases v with
  | object o =>
    have ho := below_object.mp hv
    apply keeps_next hw ho (readFlag_keeps law hw ho _)
    intro enumerable w₁ hw₁ ho₁ _ _
    apply keeps_next hw₁ ho₁ (readFlag_keeps law hw₁ ho₁ _)
    intro configurable w₂ hw₂ ho₂ _ _
    apply keeps_next hw₂ ho₂ (readField_keeps law hw₂ ho₂ _)
    intro value w₃ hw₃ ho₃ _ hvalue
    apply keeps_next hw₃ ho₃ (readFlag_keeps law hw₃ ho₃ _)
    intro writable w₄ hw₄ ho₄ h₄ _
    apply keeps_next hw₄ ho₄ (readFunction_keeps law hw₄ ho₄ _ fun _ _ => below_some.mpr)
    intro getter w₅ hw₅ ho₅ h₅ hgetter
    apply keeps_next hw₅ ho₅ (readFunction_keeps law hw₅ ho₅ _ fun _ _ => below_some.mpr)
    intro setter w₆ hw₆ _ h₆ hsetter
    dsimp only
    split
    · exact keeps_throw hw₆.closed (below_fault rfl)
    · refine keeps_pure hw₆.closed (below_descriptor.mpr ⟨?_, hgetter.mono h₆, hsetter⟩)
      exact hvalue.mono (Nat.le_trans h₄ (Nat.le_trans h₅ h₆))
  | _ => exact keeps_throw hw.closed (below_some.mpr (below_of_isObject_eq_false rfl))

theorem getValue_keeps {r : Resolution} (hr : Below w.heap.size r) :
    (host.getValue r).Keeps host.limit w := by
  cases r with
  | value v => exact keeps_pure hw.closed hr
  | reference r =>
    obtain ⟨base, name, strict⟩ := r
    cases base with
    | unresolvable => exact keeps_throw hw.closed (below_fault rfl)
    | primitive v => exact getV_keeps law hw hr name
    | object o => exact get_keeps law hw (below_objectId.mp hr) name
    | scope s =>
      exact keeps_scope (ofExcept_keeps hw.closed
        (fun _ hv => Scope.below_get (hw.closed.scopes s) hv) fun _ he => Scope.below_get_fault he)

theorem putOnPrimitive_keeps {base : Value} (hbase : Below w.heap.size base)
    (hv : Below w.heap.size v) (key : String) (strict : Bool) :
    (host.putOnPrimitive base key v strict).Keeps host.limit w := by
  have hrefuse : ∀ {z : World σ}, z.Closed →
      (refusePrimitivePut key strict : Act σ Unit).Keeps host.limit z := by
    intro z hz
    cases strict with
    | true => exact keeps_throw hz (below_fault rfl)
    | false => exact keeps_pure hz below_unit
  apply keeps_bind (toObject_keeps hw.closed hbase)
  intro o u hu ho
  have hou := below_objectId.mp ho
  apply keeps_next (hu.reachable hw) hou (canPut_keeps hu.closed o key)
  intro allowed y hy hoy hsy _
  split
  · apply keeps_object
    split
    · exact hrefuse hy.closed
    · apply keeps_next hy hoy (getProperty_keeps hy.closed o key)
      intro p z hz _ hsz hp
      have hsize := Nat.le_trans hu.size_le (Nat.le_trans hsy hsz)
      split
      · exact write_keeps law hz (below_accessor.mp (below_some.mp hp)).2 (hbase.mono hsize)
          (hv.mono hsize)
      · exact hrefuse hz.closed
  · exact hrefuse hy.closed

theorem putValue_keeps {r : Resolution} {global : Option ObjectId} (hr : Below w.heap.size r)
    (hv : Below w.heap.size v) (hg : Below w.heap.size global) :
    (host.putValue r v global).Keeps host.limit w := by
  cases r with
  | value v => exact keeps_throw hw.closed (below_some.mpr hr)
  | reference r =>
    obtain ⟨base, name, strict⟩ := r
    cases base with
    | unresolvable =>
      cases global with
      | none => exact keeps_throw hw.closed (below_fault rfl)
      | some g =>
        cases strict with
        | true => exact keeps_throw hw.closed (below_fault rfl)
        | false => exact put_keeps law hw (below_objectId.mp (below_some.mp hg)) hv name false
    | primitive base => exact putOnPrimitive_keeps law hw hr hv name strict
    | object o => exact put_keeps law hw (below_objectId.mp hr) hv name strict
    | scope s =>
      apply keeps_scope
      apply keeps_bind (ofExcept_keeps hw.closed
        (fun _ hz => Scope.below_set (hw.closed.scopes s) hv hz)
        fun _ he => Scope.below_set_fault he)
      intro z u hu hz
      exact setScope_keeps hu.closed hz

end Calls

end Host
end EcmaCore
