import EcmaCore.Proofs.Abort
import EcmaCore.Proofs.Readable
import EcmaCore.Proofs.Reading

/-!
# Fields read one after the other

To read a descriptor is to give each of its fields a turn. A field that is not an own property when
its turn comes is passed over, whatever prototypes have; one that is there is read, by one getter at
most, and may change what the later turns find. The first field that cannot be read, or whose value
does not fit, has the last turn.
-/
namespace EcmaCore

/-- The keys of the fields, in the order of their turns. -/
def Descriptor.keys : List String :=
  ["enumerable", "configurable", "value", "writable", "get", "set"]

/-- What is to be said of a value that is no function, in a field for functions. -/
def Descriptor.functionCause? : String → Option (Value → TypeErrorCause)
  | "get" => some .getterNotCallable
  | "set" => some .setterNotCallable
  | _ => none

/-- Why a value does not fit a field, if it does not. -/
def Heap.misfit? (h : Heap) (key : String) (v : Value) : Option TypeErrorCause :=
  if v.isUndefined || h.isCallable v then none
  else (Descriptor.functionCause? key).map (· v)

/-- The turn of a field: what was called for it, and the value that it had, if it had one. -/
structure Turn where
  key : String
  call : Option Call
  value : Option Value

/-- A field that may be there, before others. -/
theorem lookup_field (key k : String) (value : Option Value) (rest : List (String × Value)) :
    (value.toList.map (key, ·) ++ rest).lookup k =
      if k == key then value.or (rest.lookup k) else rest.lookup k := by
  cases value with
  | none => simp
  | some v => cases h : k == key <;> simp [List.lookup_cons, h]

namespace Turn

/-- The fields that had a value at their turn. -/
def fields (turns : List Turn) : List (String × Value) :=
  turns.flatMap fun t => t.value.toList.map (t.key, ·)

/-- A field was there at its turn. -/
def Present (turns : List Turn) (key : String) : Prop :=
  ∃ t ∈ turns, t.key = key ∧ t.value.isSome = true

/-- Fields of data and fields of accessors were there. -/
def Mixed (turns : List Turn) : Prop :=
  (Present turns "value" ∨ Present turns "writable") ∧ (Present turns "get" ∨ Present turns "set")

theorem isSome_lookup_fields {turns : List Turn} {key : String} :
    ((fields turns).lookup key).isSome = true ↔ Present turns key := by
  induction turns with
  | nil => simp [fields, Present]
  | cons t turns ih =>
    have hpresent : Present (t :: turns) key ↔
        (t.key = key ∧ t.value.isSome = true) ∨ Present turns key := by simp [Present]
    rw [hpresent, ← ih, fields, List.flatMap_cons, lookup_field]
    by_cases hk : key = t.key
    · simp [hk, fields]
    · have hne : t.key ≠ key := fun he => hk he.symm
      simp [hk, hne, fields]

theorem isMixed_fields {turns : List Turn} :
    (Descriptor.ofFields (fields turns)).isMixed = true ↔ Mixed turns := by
  simp only [Mixed, Descriptor.isMixed, Descriptor.isData, Descriptor.isAccessor,
    Descriptor.ofFields, Option.isSome_map, Bool.and_eq_true, Bool.or_eq_true, isSome_lookup_fields]

end Turn

/-- Gives a value back that fits a field, now. -/
def Act.checkFit {σ : Type} (key : String) (v : Value) : Act σ (Option Value) := do
  match (← heap).misfit? key v with
  | none => return some v
  | some cause => throw (.typeError cause)

namespace Host
open Act
variable {σ : Type}

section
variable (host : Host σ)

/-- Reads a field whose value has to fit. -/
def readFitting (o : ObjectId) (key : String) : Act σ (Option Value) := do
  match ← host.readField o key with
  | none => return none
  | some v => checkFit key v

/-- Reads fields one after the other. -/
def readFields (o : ObjectId) : List String → Act σ (List (String × Value))
  | [] => return []
  | key :: keys => do
    let field ← host.readFitting o key
    return field.toList.map (key, ·) ++ (← readFields o keys)

variable {host} {o : ObjectId} {key : String} {w : World σ}

theorem readFitting_of_cause {cause : Value → TypeErrorCause}
    (hkey : Descriptor.functionCause? key = some cause) :
    host.readFitting o key = host.readFunction o key cause := by
  unfold readFitting readFunction
  congr 1
  funext field w
  cases field with
  | none => rfl
  | some v =>
    simp only [checkFit, heap_bind, Heap.misfit?, hkey]
    split <;> rfl

theorem readFitting_of_no_cause (hkey : Descriptor.functionCause? key = none) :
    host.readFitting o key = host.readField o key := by
  rw [← bind_pure (host.readField o key)]
  unfold readFitting
  congr 1
  funext field w
  cases field with
  | none => rfl
  | some v => simp [checkFit, Heap.misfit?, hkey]

/-- A field that is there is read by what its property answers. -/
theorem readFitting_of_own {p : Property} (own : (w.heap.object o).ownProperty? key = some p) :
    host.readFitting o key w = (host.read (some p) (.object o) >>= checkFit key) w := by
  have hown : (w.heap.object o).hasOwn key = true := by rw [Object.hasOwn, own]; rfl
  simp only [readFitting, readField, bind_assoc, object_bind, if_pos hown, pure_bind]
  rw [get, bind_assoc, getProperty_bind (Heap.lookup_of_own own)]

/-- The flags are read as other fields are, and the functions with a cause each. -/
theorem toDescriptor_eq_readFields (o : ObjectId) :
    host.toDescriptor (.object o) = (do
      let d := Descriptor.ofFields (← host.readFields o Descriptor.keys)
      if d.isMixed then throw (.typeError .mixedDescription) else return d) := by
  have hget : host.readFitting o "get" = host.readFunction o "get" .getterNotCallable :=
    readFitting_of_cause rfl
  have hset : host.readFitting o "set" = host.readFunction o "set" .setterNotCallable :=
    readFitting_of_cause rfl
  have hfield : ∀ key, Descriptor.functionCause? key = none →
      host.readFitting o key = host.readField o key := fun _ => readFitting_of_no_cause
  simp only [toDescriptor, readFields, Descriptor.keys, readFlag, bind_assoc, pure_bind,
    hget, hset, hfield "enumerable" rfl, hfield "configurable" rfl, hfield "value" rfl,
    hfield "writable" rfl, Descriptor.ofFields, lookup_field]
  simp

end

/-- How a field takes its turn: it is judged by the own property that the object has now, which
answers to the object, and its value has to fit the heap that is there afterwards. -/
inductive Takes (host : Host σ) (o : ObjectId) (key : String) (w : World (Recorded σ)) :
    Turn → EStateM.Result Fault (World (Recorded σ)) (Option Value) → Prop where
  | absent (own : (w.heap.object o).ownProperty? key = none) :
    Takes host o key w ⟨key, none, none⟩ (.ok none w)
  | failed {p : Property} {call : Option Call} {e : Fault} {u : World (Recorded σ)}
      (own : (w.heap.object o).ownProperty? key = some p)
      (answers : host.Answers (.object o) w (some p) call (.error e u)) :
    Takes host o key w ⟨key, call, none⟩ (.error e u)
  | misfit {p : Property} {call : Option Call} {v : Value} {cause : TypeErrorCause}
      {u : World (Recorded σ)} (own : (w.heap.object o).ownProperty? key = some p)
      (answers : host.Answers (.object o) w (some p) call (.ok v u))
      (misfit : u.heap.misfit? key v = some cause) :
    Takes host o key w ⟨key, call, some v⟩ (.error (.typeError cause) u)
  | read {p : Property} {call : Option Call} {v : Value} {u : World (Recorded σ)}
      (own : (w.heap.object o).ownProperty? key = some p)
      (answers : host.Answers (.object o) w (some p) call (.ok v u))
      (fits : u.heap.misfit? key v = none) :
    Takes host o key w ⟨key, call, some v⟩ (.ok (some v) u)

/-- How fields take their turns, each in the world that the one before it left, up to the first
that comes to a fault. -/
inductive Visits (host : Host σ) (o : ObjectId) :
    List String → World (Recorded σ) → List Turn → Option Fault → World (Recorded σ) → Prop where
  | done {w : World (Recorded σ)} : Visits host o [] w [] none w
  | stop {key : String} {keys : List String} {u w : World (Recorded σ)} {t : Turn} {e : Fault}
      (turn : host.Takes o key w t (.error e u)) : Visits host o (key :: keys) w [t] (some e) u
  | next {key : String} {keys : List String} {m u w : World (Recorded σ)} {t : Turn}
      {field : Option Value} {turns : List Turn} {stop : Option Fault}
      (turn : host.Takes o key w t (.ok field m)) (rest : Visits host o keys m turns stop u) :
    Visits host o (key :: keys) w (t :: turns) stop u

variable {host : Host σ} {o : ObjectId} {key : String} {keys : List String}
  {u w : World (Recorded σ)} {t : Turn} {turns : List Turn} {stop : Option Fault}

/-- By the own property that is there. -/
theorem exists_takes (host : Host σ) (o : ObjectId) (key : String) (w : World (Recorded σ)) :
    ∃ t, host.Takes o key w t (host.recording.readFitting o key w) := by
  cases own : (w.heap.object o).ownProperty? key with
  | none =>
    have absent : (w.heap.object o).hasOwn key = false := by rw [Object.hasOwn, own]; rfl
    rw [readFitting, bind_of_ok (readField_of_absent absent)]
    exact ⟨_, .absent own⟩
  | some p =>
    obtain ⟨call, answers⟩ := host.exists_answers (some p) (.object o) w
    rw [readFitting_of_own own]
    cases hr : host.recording.read (some p) (.object o) w with
    | error e u =>
      rw [hr] at answers
      rw [bind_of_error hr]
      exact ⟨_, .failed own answers⟩
    | ok v u =>
      rw [hr] at answers
      rw [bind_of_ok hr, checkFit, heap_bind]
      cases hfit : u.heap.misfit? key v with
      | none => exact ⟨_, .read own answers hfit⟩
      | some cause => exact ⟨_, .misfit own answers hfit⟩

namespace Takes
variable {r : EStateM.Result Fault (World (Recorded σ)) (Option Value)}

theorem key_eq (h : host.Takes o key w t r) : t.key = key := by
  cases h <;> rfl

theorem value_eq {field : Option Value} (h : host.Takes o key w t (.ok field u)) :
    t.value = field := by
  cases h <;> rfl

theorem calls (h : host.Takes o key w t r) :
    (left r).host.calls = w.host.calls ++ t.call.toList := by
  cases h with
  | absent => exact (List.append_nil _).symm
  | failed own answers | misfit own answers | read own answers => exact answers.calls

theorem receiver (h : host.Takes o key w t r) :
    ∀ c ∈ t.call, c.receiver = .object o ∧ c.args = [] := by
  cases h with
  | absent => exact fun c hc => absurd hc (Option.not_mem_none c)
  | failed own answers | misfit own answers | read own answers => exact answers.receiver

end Takes

/-- What comes of turns. -/
def visited (turns : List Turn) (u : World (Recorded σ)) :
    Option Fault → EStateM.Result Fault (World (Recorded σ)) (List (String × Value))
  | none => .ok (Turn.fields turns) u
  | some e => .error e u

/-- One turn after the other, by induction on the keys. -/
theorem exists_visits (host : Host σ) (o : ObjectId) (keys : List String)
    (w : World (Recorded σ)) : ∃ turns stop u, host.Visits o keys w turns stop u ∧
      host.recording.readFields o keys w = visited turns u stop := by
  induction keys generalizing w with
  | nil => exact ⟨[], none, w, .done, rfl⟩
  | cons key keys ih =>
    obtain ⟨t, turn⟩ := host.exists_takes o key w
    rw [readFields]
    cases hr : host.recording.readFitting o key w with
    | error e u =>
      -- The other keys have no turn.
      rw [hr] at turn
      exact ⟨[t], some e, u, .stop turn, bind_of_error hr _⟩
    | ok field m =>
      rw [hr] at turn
      obtain ⟨turns, stop, u, rest, hrest⟩ := ih m
      refine ⟨t :: turns, stop, u, .next turn rest, ?_⟩
      rw [bind_of_ok hr]
      cases stop with
      | some e => exact bind_of_error hrest _
      | none =>
        rw [bind_of_ok hrest]
        obtain rfl := turn.value_eq
        obtain rfl := turn.key_eq
        rfl

namespace Visits

theorem calls (h : host.Visits o keys w turns stop u) :
    u.host.calls = w.host.calls ++ turns.flatMap fun t => t.call.toList := by
  induction h with
  | done => simp
  | stop turn => simpa [left] using turn.calls
  | next turn rest ih =>
    have hturn := turn.calls
    simp only [left] at hturn
    rw [ih, hturn, List.flatMap_cons, List.append_assoc]

theorem receiver (h : host.Visits o keys w turns stop u) :
    ∀ t ∈ turns, ∀ c ∈ t.call, c.receiver = .object o ∧ c.args = [] := by
  induction h with
  | done => exact fun t ht => absurd ht List.not_mem_nil
  | stop turn => exact List.forall_mem_singleton.mpr turn.receiver
  | next turn rest ih => exact List.forall_mem_cons.mpr ⟨turn.receiver, ih⟩

/-- The turns come in order, and only a fault leaves fields without one. -/
theorem order (h : host.Visits o keys w turns stop u) :
    turns.map (·.key) <+: keys ∧ (stop = none → turns.map (·.key) = keys) := by
  induction h with
  | done => simp
  | stop turn => simp [turn.key_eq]
  | next turn rest ih => simpa [turn.key_eq] using ih

end Visits

/-- How a descriptor is read from an object. A fault at the turn of a field is the outcome. After
six turns the descriptor has the fields that were there, unless they speak of both kinds. -/
structure ReadsInTurns (host : Host σ) (o : ObjectId) (w : World (Recorded σ)) (turns : List Turn)
    (stop : Option Fault) (u : World (Recorded σ)) : Prop where
  visits : host.Visits o Descriptor.keys w turns stop u
  order : turns.map (·.key) <+: Descriptor.keys
  complete : stop = none → turns.map (·.key) = Descriptor.keys
  /-- The getters of the fields are all that is called. -/
  calls : u.host.calls = w.host.calls ++ turns.flatMap fun t => t.call.toList
  receiver : ∀ t ∈ turns, ∀ c ∈ t.call, c.receiver = .object o ∧ c.args = []
  stopped : ∀ e, stop = some e → host.recording.toDescriptor (.object o) w = .error e u
  mixed : stop = none → Turn.Mixed turns →
    host.recording.toDescriptor (.object o) w = .error (.typeError .mixedDescription) u
  plain : stop = none → ¬ Turn.Mixed turns →
    (Descriptor.ofFields (Turn.fields turns)).isMixed = false ∧
      host.recording.toDescriptor (.object o) w = .ok (.ofFields (Turn.fields turns)) u
  /-- The record changes nothing. -/
  same : forget (host.recording.toDescriptor (.object o) w) =
    host.toDescriptor (.object o) w.forget

theorem readsInTurns_of_visits (h : host.Visits o Descriptor.keys w turns stop u)
    (run : host.recording.readFields o Descriptor.keys w = visited turns u stop) :
    host.ReadsInTurns o w turns stop u where
  visits := h
  order := h.order.1
  complete := h.order.2
  calls := h.calls
  receiver := h.receiver
  stopped := by
    rintro e rfl
    rw [toDescriptor_eq_readFields]
    exact bind_of_error run _
  mixed := by
    rintro rfl hmixed
    rw [toDescriptor_eq_readFields, bind_of_ok run, if_pos (Turn.isMixed_fields.mpr hmixed)]
    rfl
  plain := by
    rintro rfl hplain
    have hdescriptor : (Descriptor.ofFields (Turn.fields turns)).isMixed = false :=
      Bool.eq_false_iff.mpr fun hd => hplain (Turn.isMixed_fields.mp hd)
    rw [toDescriptor_eq_readFields, bind_of_ok run, hdescriptor]
    exact ⟨rfl, rfl⟩
  same := (host.toDescriptor_records (.object o)).forgets w

end Host

/-- Whatever getters do, in every world and from every object: the fields of a descriptor are read
in turns, and what each of them had at its turn settles the outcome. If callables keep to what an
engine may do and the world can come about, the functions of a descriptor that was read can be
called in the world that is left. -/
theorem descriptor_fields_take_turns {σ : Type} [Mentions σ] (host : Host σ) (o : ObjectId)
    (w : World (Recorded σ)) : ∃ turns stop u, host.ReadsInTurns o w turns stop u ∧
      (host.Lawful → w.forget.Reachable host.limit → o.index < w.heap.size →
        ∀ d v, host.recording.toDescriptor (.object o) w = .ok d v →
          v.heap.FunctionField d.getter ∧ v.heap.FunctionField d.setter) := by
  obtain ⟨turns, stop, u, visits, run⟩ := host.exists_visits o Descriptor.keys w
  have reads := Host.readsInTurns_of_visits visits run
  refine ⟨turns, stop, u, reads, ?_⟩
  intro law hw ho d v read
  have same := reads.same
  rw [read] at same
  exact (Host.plain_of_toDescriptor law hw (below_object.mpr ho) same.symm).2

/-- An object whose first field is read by a callable that drops another, with a flag that is no
boolean. -/
def flaggedHeap : Heap :=
  selfDroppingHeap.apply .default
    (.define ⟨0⟩ "configurable" (.data (.string .empty) true true true))

theorem reachable_flaggedHeap :
    ({ World.start () with heap := flaggedHeap } : World Unit).Reachable .default := by
  have hd : Below selfDroppingHeap.size (Descriptor.data (.string .empty) true true true) :=
    below_descriptor.mpr
      ⟨below_some.mpr (below_of_isObject_eq_false rfl), below_none, below_none⟩
  have ho : (0 : Nat) < selfDroppingHeap.size := by decide
  exact (World.leads_apply reachable_selfDroppingHeap.closed
    (below_change_define.mpr ⟨ho, hd⟩)).reachable reachable_selfDroppingHeap

def flaggedWorld : World (Recorded Unit) := { World.start ⟨(), []⟩ with heap := flaggedHeap }

/-- A flag that was an own property when the reading began is not there at its turn, and one that
holds an empty text is read as `false`. -/
theorem descriptor_fields_take_turns_dropping :
    let host : Host Unit := .nested .default .drop 1
    let d : Descriptor :=
      { getter := some (.object ⟨1⟩), enumerable := some true, configurable := some false }
    (flaggedWorld.heap.object ⟨0⟩).hasOwn "writable" = true ∧
      (flaggedWorld.heap.object ⟨0⟩).ownProperty? "configurable" =
        some (.data (.string .empty) true true true) ∧
      ∃ turns u, host.ReadsInTurns ⟨0⟩ flaggedWorld turns none u ∧
        Descriptor.ofFields (Turn.fields turns) = d ∧ u.heap.FunctionField d.getter := by
  intro host d
  have law : host.Lawful := Host.nested_lawful Body.drop_lawful .default 1
  -- A lookup is no structural recursion, and evaluates only when it is unfolded.
  obtain ⟨v, read⟩ : ∃ v, host.recording.toDescriptor (.object ⟨0⟩) flaggedWorld = .ok d v :=
    ⟨_, by with_unfolding_all rfl⟩
  obtain ⟨turns, stop, u, reads, functions⟩ := descriptor_fields_take_turns host ⟨0⟩ flaggedWorld
  have hstop : stop = none := by
    cases stop with
    | none => rfl
    | some e => cases read.symm.trans (reads.stopped e rfl)
  subst hstop
  have hplain : ¬ Turn.Mixed turns := by
    intro hmixed
    cases read.symm.trans (reads.mixed rfl hmixed)
  have outcome := (reads.plain rfl hplain).2.symm.trans read
  simp only [EStateM.Result.ok.injEq] at outcome
  obtain ⟨hd, rfl⟩ := outcome
  have hw : flaggedWorld.forget.Reachable .default := reachable_flaggedHeap
  exact ⟨rfl, rfl, turns, u, reads, hd, (functions law hw (by decide) d u read).1⟩

end EcmaCore
