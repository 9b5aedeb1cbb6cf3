import EcmaCore.Proofs.Abort
import EcmaCore.Proofs.Reading

/-!
# Primitive values of objects

An object is turned into a primitive by its methods. They are tried in turn, each in the world that
the one before left, and the first that gives a primitive ends the trial; so does the fault of a
lookup, of a getter or of a method. Since the result is never an object, a conversion of any value
to a number or a text needs at most one such trial.
-/
namespace EcmaCore

/-- A method that was tried: the call that was made to read it, and the call of the method. -/
structure Trial where
  key : String
  getter : Option Call
  method : Option Call

def Trial.calls (t : Trial) : List Call := t.getter.toList ++ t.method.toList

namespace Host
open Act
variable {σ : Type}

/-- How the methods of an object under some keys are tried, and what comes of it. -/
inductive Converts (host : Host σ) (o : ObjectId) : List String → World (Recorded σ) →
    List Trial → EStateM.Result Fault (World (Recorded σ)) Value → Prop where
  /-- No method is left. -/
  | exhausted (w : World (Recorded σ)) :
    Converts host o [] w [] (.error (.typeError .noPrimitive) w)
  /-- A fault of the lookup or of a getter. -/
  | unread {key : String} {rest : List String} {w u : World (Recorded σ)} {getter : Option Call}
      {e : Fault} (read : host.Reads o key (.object o) w getter (.error e u)) :
    Converts host o (key :: rest) w [⟨key, getter, none⟩] (.error e u)
  /-- What cannot be called is passed over. -/
  | passedOver {key : String} {rest : List String} {w u : World (Recorded σ)}
      {getter : Option Call} {f : Value} {trials : List Trial}
      {r : EStateM.Result Fault (World (Recorded σ)) Value}
      (read : host.Reads o key (.object o) w getter (.ok f u))
      (uncallable : u.heap.isCallable f = false) (more : Converts host o rest u trials r) :
    Converts host o (key :: rest) w (⟨key, getter, none⟩ :: trials) r
  /-- A fault of the method. -/
  | failed {key : String} {rest : List String} {w u v : World (Recorded σ)}
      {getter : Option Call} {m : ObjectId} {f : Callable} {e : Fault}
      (read : host.Reads o key (.object o) w getter (.ok (.object m) u))
      (callable : (u.heap.object m).callable? = some f)
      (call : host.recording.invoke f (.object o) [] u = .error e v) :
    Converts host o (key :: rest) w [⟨key, getter, some (host.entry f (.object o) [] u)⟩]
      (.error e v)
  /-- A primitive is the answer. -/
  | answered {key : String} {rest : List String} {w u v : World (Recorded σ)}
      {getter : Option Call} {m : ObjectId} {f : Callable} {a : Value}
      (read : host.Reads o key (.object o) w getter (.ok (.object m) u))
      (callable : (u.heap.object m).callable? = some f)
      (call : host.recording.invoke f (.object o) [] u = .ok a v)
      (primitive : a.isObject = false) :
    Converts host o (key :: rest) w [⟨key, getter, some (host.entry f (.object o) [] u)⟩]
      (.ok a v)
  /-- After an object the next method has its turn. -/
  | unanswered {key : String} {rest : List String} {w u v : World (Recorded σ)}
      {getter : Option Call} {m q : ObjectId} {f : Callable} {trials : List Trial}
      {r : EStateM.Result Fault (World (Recorded σ)) Value}
      (read : host.Reads o key (.object o) w getter (.ok (.object m) u))
      (callable : (u.heap.object m).callable? = some f)
      (call : host.recording.invoke f (.object o) [] u = .ok (.object q) v)
      (more : Converts host o rest v trials r) :
    Converts host o (key :: rest) w
      (⟨key, getter, some (host.entry f (.object o) [] u)⟩ :: trials) r

section Trials
variable {host : Host σ} {o : ObjectId} {keys : List String} {w : World (Recorded σ)}
  {trials : List Trial} {r : EStateM.Result Fault (World (Recorded σ)) Value}

/-- The calls of the trials are all that a conversion adds to the record. -/
theorem Converts.calls (h : host.Converts o keys w trials r) :
    (left r).host.calls = w.host.calls ++ trials.flatMap Trial.calls := by
  induction h with
  | exhausted w => exact (List.append_nil _).symm
  | unread read => simpa [Trial.calls] using read.calls
  | passedOver read uncallable more ih =>
    have hread := read.calls
    simp only [left] at hread
    simp [ih, hread, Trial.calls]
  | failed read callable call | answered read callable call primitive =>
    have hread := read.calls
    simp only [left] at hread
    simp [calls_of_invoke call, hread, Trial.calls]
  | unanswered read callable call more ih =>
    have hread := read.calls
    have hcall := calls_of_invoke call
    simp only [left] at hread hcall
    simp [ih, hcall, hread, Trial.calls]

/-- The methods are tried in their order, each at most once. -/
theorem Converts.prefix_keys (h : host.Converts o keys w trials r) :
    trials.map Trial.key <+: keys := by
  induction h with
  | exhausted w => exact List.prefix_rfl
  | unread | failed | answered => exact ⟨_, rfl⟩
  | passedOver _ _ _ ih => exact List.cons_prefix_cons.mpr ⟨rfl, ih⟩
  | unanswered _ _ _ _ ih => exact List.cons_prefix_cons.mpr ⟨rfl, ih⟩

end Trials

section Methods
variable {host : Host σ} {o : ObjectId} {key : String} {rest : List String} {u w : World σ}

theorem tryMethods_of_error {e : Fault} (read : host.get o key w = .error e u) :
    host.tryMethods o (key :: rest) w = .error e u := by
  rw [tryMethods]
  simp only [bind, EStateM.bind, read]

theorem tryMethods_of_uncallable {f : Value} (read : host.get o key w = .ok f u)
    (uncallable : u.heap.isCallable f = false) :
    host.tryMethods o (key :: rest) w = host.tryMethods o rest u := by
  rw [tryMethods, bind_of_ok read, heap_bind, uncallable]
  rfl

theorem tryMethods_of_callable {m : ObjectId} {f : Callable}
    (read : host.get o key w = .ok (.object m) u)
    (callable : (u.heap.object m).callable? = some f) :
    host.tryMethods o (key :: rest) w = (host.invoke f (.object o) [] >>= fun a =>
      if a.isObject then host.tryMethods o rest else return a) u := by
  have hm : u.heap.isCallable (.object m) = true := by
    simp [Heap.isCallable, Object.isCallable, callable]
  have hcall : host.call (.object m) (.object o) [] u = host.invoke f (.object o) [] u :=
    host.callObject_of_callable callable (.object o) []
  rw [tryMethods, bind_of_ok read, heap_bind, hm, if_pos rfl]
  simp only [bind, EStateM.bind, hcall]

/-- What a reading gives either can be called or not. -/
theorem callable_cases (h : Heap) (f : Value) :
    h.isCallable f = false ∨ ∃ m c, f = .object m ∧ (h.object m).callable? = some c := by
  cases f with
  | object m =>
    cases hc : (h.object m).callable? with
    | none => exact .inl (by simp [Heap.isCallable, Object.isCallable, hc])
    | some c => exact .inr ⟨m, c, rfl, hc⟩
  | _ => exact .inl rfl

/-- By induction on the methods: only a result that is not an object ends the trial. -/
theorem isObject_of_tryMethods {keys : List String} {v : Value}
    (h : host.tryMethods o keys w = .ok v u) : v.isObject = false := by
  induction keys generalizing w with
  | nil => cases h
  | cons key rest ih =>
    cases read : host.get o key w with
    | error e m =>
      rw [tryMethods_of_error read] at h
      cases h
    | ok f m =>
      rcases callable_cases m.heap f with hf | ⟨q, c, rfl, hc⟩
      · rw [tryMethods_of_uncallable read hf] at h
        exact ih h
      · rw [tryMethods_of_callable read hc] at h
        obtain ⟨a, n, _, h⟩ := bind_eq_ok_iff.mp h
        cases ha : a.isObject with
        | true =>
          rw [ha] at h
          exact ih h
        | false =>
          rw [ha] at h
          cases h
          exact ha

end Methods

/-- By induction on the methods, each with one of the outcomes that a trial has. -/
theorem exists_converts (host : Host σ) (o : ObjectId) (keys : List String)
    (w : World (Recorded σ)) :
    ∃ trials, host.Converts o keys w trials (host.recording.tryMethods o keys w) := by
  induction keys generalizing w with
  | nil => exact ⟨[], .exhausted w⟩
  | cons key rest ih =>
    obtain ⟨getter, reads⟩ := host.get_reads o key w
    cases read : host.recording.get o key w with
    | error e u =>
      rw [read] at reads
      rw [tryMethods_of_error read]
      exact ⟨_, .unread reads⟩
    | ok f u =>
      rw [read] at reads
      rcases callable_cases u.heap f with hf | ⟨m, c, rfl, hc⟩
      · rw [tryMethods_of_uncallable read hf]
        obtain ⟨trials, more⟩ := ih u
        exact ⟨_, .passedOver reads hf more⟩
      · rw [tryMethods_of_callable read hc]
        cases call : host.recording.invoke c (.object o) [] u with
        | error e v =>
          simp only [bind, EStateM.bind, call]
          exact ⟨_, .failed reads hc call⟩
        | ok a v =>
          rw [bind_of_ok call]
          cases ha : a.isObject with
          | false => exact ⟨_, .answered reads hc call ha⟩
          | true =>
            obtain ⟨q, rfl⟩ := Value.isObject_iff.mp ha
            obtain ⟨trials, more⟩ := ih v
            exact ⟨_, .unanswered reads hc call more⟩

/-- How a hint turns an object into a primitive. -/
structure YieldsPrimitive (host : Host σ) (o : ObjectId) (hint : Hint) (w : World (Recorded σ))
    (trials : List Trial) : Prop where
  course : host.Converts o
    (if hint = .string then ["toString", "valueOf"] else ["valueOf", "toString"]) w trials
    (host.recording.defaultValue o hint w)
  calls : ((host.recording.defaultValue o hint).after w).host.calls =
    w.host.calls ++ trials.flatMap Trial.calls
  /-- Each method is tried, and so called, at most once. -/
  once : (trials.map Trial.key).Nodup
  primitive : ∀ v u, host.recording.defaultValue o hint w = .ok v u → v.isObject = false
  /-- The record changes nothing. -/
  same : forget (host.recording.defaultValue o hint w) = host.defaultValue o hint w.forget

/-- A conversion that takes objects to their primitive values: a primitive has its result at once,
an object that of its primitive value, and to convert this value again does not convert an object
again. -/
structure GoesThrough {α : Type} (host : Host σ) (hint : Hint) (convert : Value → Act σ α)
    (result : Value → α) : Prop where
  primitive : ∀ v, v.isObject = false → convert v = pure (result v)
  object : ∀ o, convert (.object o) = result <$> host.defaultValue o hint
  again : ∀ o, convert (.object o) = host.defaultValue o hint >>= convert

theorem yieldsPrimitive (host : Host σ) (o : ObjectId) (hint : Hint) (w : World (Recorded σ)) :
    ∃ trials, host.YieldsPrimitive o hint w trials := by
  have hmethods : hint.methods =
      if hint = .string then ["toString", "valueOf"] else ["valueOf", "toString"] := by
    cases hint <;> rfl
  have hdistinct : hint.methods.Nodup := by cases hint <;> decide
  obtain ⟨trials, converts⟩ := host.exists_converts o hint.methods w
  refine ⟨trials, hmethods ▸ converts, ?_, converts.prefix_keys.sublist.nodup hdistinct,
    fun v u => isObject_of_tryMethods, (host.defaultValue_records o hint).forgets w⟩
  rw [after_eq_left]
  exact converts.calls

theorem toPrimitive_of_primitive (host : Host σ) {v : Value} (hv : v.isObject = false)
    (hint : Hint) : host.toPrimitive v hint = pure v := by
  cases v with
  | object o => cases hv
  | _ => rfl

/-- What comes after a conversion of an object has to do with primitives alone. -/
theorem defaultValue_bind_congr {α : Type} {host : Host σ} {o : ObjectId} {hint : Hint}
    {f g : Value → Act σ α} (h : ∀ p, p.isObject = false → f p = g p) :
    host.defaultValue o hint >>= f = host.defaultValue o hint >>= g := by
  funext w
  cases hw : host.defaultValue o hint w with
  | error e u => simp only [bind, EStateM.bind, hw]
  | ok p u => rw [bind_of_ok hw, bind_of_ok hw, h p (isObject_of_tryMethods hw)]

/-- What is done with the primitive value of a value is a conversion of this kind. -/
theorem goesThrough_of_eq {α : Type} {host : Host σ} {hint : Hint} {convert : Value → Act σ α}
    {result : Value → α} (h : ∀ v, convert v = result <$> host.toPrimitive v hint) :
    host.GoesThrough hint convert result := by
  have hprimitive : ∀ v, v.isObject = false → convert v = pure (result v) := by
    intro v hv
    rw [h, host.toPrimitive_of_primitive hv, map_pure]
  have hobject : ∀ o, convert (.object o) = result <$> host.defaultValue o hint := fun o => h _
  refine ⟨hprimitive, hobject, fun o => ?_⟩
  rw [hobject, ← bind_pure_comp]
  exact defaultValue_bind_congr fun p hp => (hprimitive p hp).symm

theorem toNumber_eq_map (host : Host σ) (v : Value) :
    host.toNumber v = Value.toNumber <$> host.toPrimitive v .number :=
  bind_pure_comp _ _

/-- A conversion of the number of a value goes through the primitive value too. -/
theorem goesThrough_number {α : Type} {host : Host σ} {convert : Value → Act σ α}
    {f : Binary64 → α} (h : ∀ v, convert v = host.toNumber v >>= fun x => pure (f x)) :
    host.GoesThrough .number convert (fun v => f v.toNumber) := by
  apply goesThrough_of_eq
  intro v
  rw [h, bind_pure_comp, toNumber_eq_map, Functor.map_map]

end Host

/-- An object is turned into a primitive by its methods in the order of the hint, whatever callables
do, and the conversions of any value to a number, an integer or a text go through at most one
primitive value. -/
theorem object_converts_by_methods {σ : Type} (host : Host σ) :
    (∀ o hint w, ∃ trials, host.YieldsPrimitive o hint w trials) ∧
    (∀ hint, host.GoesThrough hint (host.toPrimitive · hint) id) ∧
    host.GoesThrough .number host.toNumber Value.toNumber ∧
    host.GoesThrough .number host.toIntegral (·.toNumber.toIntegral) ∧
    host.GoesThrough .number host.toInt32 (·.toNumber.toInt32) ∧
    host.GoesThrough .number host.toUInt32 (·.toNumber.toUInt32) ∧
    host.GoesThrough .number host.toUInt16 (·.toNumber.toUInt16) ∧
    ∀ format, host.GoesThrough .string (host.toText · format) (·.toText format) := by
  refine ⟨host.yieldsPrimitive, ?_, Host.goesThrough_of_eq host.toNumber_eq_map,
    Host.goesThrough_number fun _ => rfl, Host.goesThrough_number fun _ => rfl,
    Host.goesThrough_number fun _ => rfl, Host.goesThrough_number fun _ => rfl,
    fun format => Host.goesThrough_of_eq fun v => bind_pure_comp _ _⟩
  intro hint
  apply Host.goesThrough_of_eq
  intro v
  rw [id_map]

end EcmaCore
