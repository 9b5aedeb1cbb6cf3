import EcmaCore.Proofs.Assignment
import EcmaCore.Proofs.Lock
import EcmaCore.Proofs.Origin

/-!
# Wrappers of texts

A wrapper shows the code units of its text and their number for good. These properties are locked
and cannot be written, so every copy that a definition stores of one is the property itself; the
list of keys begins with the places and the length, whatever is done to the object.
-/
namespace EcmaCore

/-- A property that is locked and whose value cannot be written does not change at all. -/
theorem Property.Locks.eq_of_frozen {value : Value} {e : Bool} {q : Property}
    (h : (Property.data value false e false).Locks q) : q = .data value false e false := by
  obtain ⟨slot, enumerable, configurable⟩ := q
  obtain ⟨hc, he, hs⟩ := h
  cases slot with
  | data v b =>
    obtain ⟨hb, hv⟩ := hs
    obtain rfl := (Value.sameValue_iff _ _).mp hv
    simp_all [Property.data]
  | accessor => cases hs

namespace Object
variable {x y : Object} {t : Text} {key : String}

theorem Step.frozen (h : x.Step y) {value : Value} {e : Bool}
    (hp : x.ownProperty? key = some (.data value false e false)) :
    y.ownProperty? key = some (.data value false e false) := by
  obtain ⟨q, hq, hl⟩ := h.locks hp rfl
  rw [hq, hl.eq_of_frozen]

/-- An object shows a text: its code units, their number, and these keys first. -/
structure Wraps (x : Object) (t : Text) : Prop where
  kind : x.kind = .string t
  unit : ∀ i u, t.unitAt? i = some u → x.ownProperty? i.repr = some (unitProperty u)
  length : x.ownProperty? "length" = some (lengthProperty t)
  listed : ∃ rest, x.otherKeys = "length" :: rest

theorem ne_length_of_unit (i : Nat) : i.repr ≠ "length" := by
  intro h
  have hnone : indexOfKey? "length" = none := by decide +kernel
  rw [← h, indexOfKey?_repr] at hnone
  cases hnone

theorem unitProperty?_length (x : Object) : x.unitProperty? "length" = none := by
  have hnone : indexOfKey? "length" = none := by decide +kernel
  unfold unitProperty?
  split
  · rw [hnone]
    rfl
  · rfl

/-- Apart from its length a new wrapper has only what is computed. -/
theorem ownProperty?_ofText (t : Text) (prototype : Option ObjectId) (hk : key ≠ "length") :
    (ofText t prototype).ownProperty? key = (ofText t prototype).unitProperty? key := by
  let bare : Object := ⟨.string t, .empty, prototype, true⟩
  have hstore : ofText t prototype = bare.store "length" (lengthProperty t) := rfl
  rw [hstore, ownProperty?_store_other bare _ hk]
  rfl

/-- A key that is no place of a text has no computed property. -/
theorem unitProperty?_of_no_place (hx : x.kind = .string t)
    (hk : ∀ i, i < t.length → key ≠ i.repr) : x.unitProperty? key = none := by
  cases hu : x.unitProperty? key with
  | none => rfl
  | some p =>
    obtain ⟨i, u, rfl, hi, _⟩ := (unitProperty?_eq_some_iff hx).mp hu
    obtain ⟨hlt, _⟩ := List.getElem?_eq_some_iff.mp hi
    exact absurd rfl (hk i hlt)

theorem wraps_ofText (t : Text) (prototype : Option ObjectId) : (ofText t prototype).Wraps t where
  kind := rfl
  unit := by
    intro i u hu
    have hkind : (ofText t prototype).kind = .string t := rfl
    rw [ownProperty?_ofText t prototype (ne_length_of_unit i)]
    exact (unitProperty?_eq_some_iff hkind).mpr ⟨i, u, rfl, hu, rfl⟩
  length := ownProperty?_store_same ⟨.string t, .empty, prototype, true⟩ "length" _
  listed := by
    have hkeys : (ofText t prototype).properties.keys = ["length"] := rfl
    refine ⟨[], ?_⟩
    rw [otherKeys, hkeys]
    simp [unitProperty?_length]

/-- Storing under a key leaves the first of the other keys where it is. -/
theorem listed_store {first : String} {rest : List String} (p : Property)
    (h : x.otherKeys = first :: rest) : ∃ rest, (x.store key p).otherKeys = first :: rest := by
  by_cases hk : key ∈ x.properties.keys
  · exact ⟨rest, by rw [otherKeys_store_of_mem p hk, h]⟩
  · exact ⟨_, by rw [otherKeys_store_of_not_mem p hk, h, List.cons_append]⟩

/-- No step of an object changes what it shows of a text. -/
theorem Step.wraps (h : x.Step y) (hx : x.Wraps t) : y.Wraps t where
  kind := h.kind.trans hx.kind
  unit i u hu := h.frozen (hx.unit i u hu)
  length := h.frozen hx.length
  listed := by
    obtain ⟨rest, hrest⟩ := hx.listed
    cases h with
    | same => exact ⟨rest, hrest⟩
    | create key d _ _ => exact listed_store _ hrest
    | revise key d p _ _ => exact listed_store _ hrest
    | erase key p present configurable =>
      have hne : "length" ≠ key := by
        rintro rfl
        obtain rfl := Option.some.inj (hx.length.symm.trans present)
        cases configurable
      refine ⟨rest.filter (· != key), ?_⟩
      rw [otherKeys_erase, hrest, List.filter_cons_of_pos (by simpa using hne)]
    | preventExtensions => exact ⟨rest, hrest⟩
    | link prototype _ => exact ⟨rest, hrest⟩

end Object

theorem Heap.Evolves.wraps {limit : DepthLimit} {h k : Heap} {cs : List Change}
    (hk : h.Evolves limit cs k) {o : ObjectId} (ho : o.index < h.size) {t : Text}
    (hx : (h.object o).Wraps t) : (k.object o).Wraps t := by
  let P (x : Object) : Prop := x.Wraps t
  have hstep : ∀ x y, x.Step y → P x → P y := fun x y hxy hw => hxy.wraps hw
  exact hk.preserves hstep ho hx

variable {σ : Type} {host : Host σ} {w v : World σ} {o : ObjectId} {key : String}

/-- What can be seen of a text from its wrapper: the properties, the list of keys, and the text by
reading its length and then its places. -/
structure World.Shows (w : World σ) (host : Host σ) (o : ObjectId) (t : Text) : Prop where
  unit : ∀ i u, t.unitAt? i = some u →
    (w.heap.object o).ownProperty? i.repr = some (.data (.string (.ofUnit u)) false true false)
  length : (w.heap.object o).ownProperty? "length" =
    some (.data (.number (.ofNat t.length)) false false false)
  keys : ∃ rest, (w.heap.object o).ownKeys =
    (List.range t.length).map Nat.repr ++ "length" :: rest
  nodup : (w.heap.object o).ownKeys.Nodup
  complete : ∀ key, key ∈ (w.heap.object o).ownKeys ↔
    ((w.heap.object o).ownProperty? key).isSome = true
  /-- No place is needed that a word cannot hold. -/
  words : t.length ≤ UInt64.size → ∀ key, (w.heap.object o).unitProperty? key =
    (wordOfKey? key).bind fun i => (t.unitAt? i.toNat).map Object.unitProperty
  readLength : host.get o "length" w = .ok (.number (.ofNat t.length)) w
  readUnit : ∀ i u, t.unitAt? i = some u → host.get o i.repr w = .ok (.string (.ofUnit u)) w

theorem World.shows_of_wraps {t : Text} (hx : (w.heap.object o).Wraps t) : w.Shows host o t where
  unit := hx.unit
  length := hx.length
  keys := by
    obtain ⟨rest, hrest⟩ := hx.listed
    exact ⟨rest, by rw [Object.ownKeys_eq, Object.unitKeys_of_text hx.kind, hrest]⟩
  nodup := Object.nodup_ownKeys _
  complete _ := Object.mem_ownKeys_iff
  words := Object.unitProperty?_eq_word hx.kind
  readLength := Host.get_of_own hx.length
  readUnit i u hu := Host.get_of_own (hx.unit i u hu)

/-- A wrapper of a text shows it after every run of operations. Any other key has a property only by
a definition that was accepted, after which no deletion was: in whatever changes explain the run. -/
theorem wrapper_shows_text [Mentions σ] (law : host.Lawful) (hw : w.Reachable host.limit)
    {t : Text} {prototype : Option ObjectId} (hp : Below w.heap.size prototype)
    {ops : List Operation}
    (run : host.Performs ((Act.create (.ofText t prototype)).after w) ops v) :
    v.Shows host w.heap.fresh t ∧
    (∃ cs, (w.heap.push (.ofText t prototype)).Evolves host.limit cs v.heap) ∧
    ∀ cs, (w.heap.push (.ofText t prototype)).Evolves host.limit cs v.heap →
      ∀ key, (∀ i, i < t.length → key ≠ i.repr) → key ≠ "length" →
        ((v.heap.object w.heap.fresh).ownProperty? key).isSome = true →
        (w.heap.push (.ofText t prototype)).Creates host.limit w.heap.fresh key cs := by
  have hmade : (w.heap.push (.ofText t prototype)).object w.heap.fresh = .ofText t prototype :=
    Heap.object_push_fresh w.heap _
  have hsize : w.heap.fresh.index < (w.heap.push (.ofText t prototype)).size := by
    rw [Heap.size_push]
    exact Nat.lt_succ_self _
  have hreach : ((Act.create (.ofText t prototype)).after w).Reachable host.limit :=
    (Act.create_keeps hw.closed (.string t) hp).leads.reachable hw
  have hleads := (run.leads law hreach).changes
  change ∃ cs, (w.heap.push (.ofText t prototype)).Evolves host.limit cs v.heap at hleads
  obtain ⟨cs, hcs⟩ := hleads
  have hwraps : (v.heap.object w.heap.fresh).Wraps t :=
    hcs.wraps hsize (by rw [hmade]; exact Object.wraps_ofText t prototype)
  refine ⟨World.shows_of_wraps hwraps, ⟨cs, hcs⟩, ?_⟩
  intro ds hds key hplace hlength hsome
  have hunit : (Object.ofText t prototype).unitProperty? key = none :=
    Object.unitProperty?_of_no_place rfl hplace
  have habsent : (Object.ofText t prototype).ownProperty? key = none := by
    rw [Object.ownProperty?_ofText t prototype hlength, hunit]
  have hpresent : (v.heap.object w.heap.fresh).ownProperty? key ≠ none := by
    intro hnone
    rw [hnone] at hsome
    cases hsome
  exact hds.creates hsize (by rw [hmade, hunit]) (by rw [hmade, habsent]) hpresent

/-- A callable that meddles with the first place of its receiver. -/
def callableHeap : Heap := Heap.empty.push (.ofCallable ⟨"0", 0⟩ none)

theorem reachable_callableHeap :
    ({ World.start () with heap := callableHeap } : World Unit).Reachable .default := by
  have hx : Heap.empty.Evolves .default [.create (.function ⟨"0", 0⟩) none] callableHeap :=
    .one (c := .create (.function ⟨"0", 0⟩) none) below_none
  exact World.reachable_of_evolves below_unit hx

/-- A wrapper of a text with a lone surrogate shows it after the callable has run. -/
theorem wrapper_shows_text_meddled :
    ∃ v, (Host.nested .default .meddle 3).Performs
        ((Act.create (.ofText ⟨[0x61, 0xD800]⟩ none)).after
          { World.start () with heap := callableHeap })
        [.call (.object ⟨0⟩) (.object ⟨1⟩) [.object ⟨0⟩]] v ∧
      v.Shows (Host.nested .default .meddle 3) ⟨1⟩ ⟨[0x61, 0xD800]⟩ := by
  have law : (Host.nested .default .meddle 3 : Host Unit).Lawful :=
    Host.nested_lawful Body.meddle_lawful .default 3
  have hf : Below 2 (Value.object ⟨0⟩) := below_object.mpr (by decide)
  have ht : Below 2 (Value.object ⟨1⟩) := below_object.mpr (by decide)
  have hcall := below_operation_call.mpr ⟨hf, ht, below_cons.mpr ⟨hf, below_nil⟩⟩
  have run : (Host.nested .default .meddle 3).Performs
      ((Act.create (.ofText ⟨[0x61, 0xD800]⟩ none)).after
        { World.start () with heap := callableHeap }) _ _ := .operation hcall (.done _)
  exact ⟨_, run, (wrapper_shows_text law reachable_callableHeap below_none run).1⟩

end EcmaCore
