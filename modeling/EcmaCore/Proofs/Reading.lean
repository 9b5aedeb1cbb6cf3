import EcmaCore.Proofs.OnePlace

/-!
# How a property is read

Reading looks a key up from an object on. A value that it finds is the answer, a getter is called
with the receiver, and nothing else is ever called. The receiver need not be the object at which the
lookup begins.
-/
namespace EcmaCore

namespace Act
variable {σ α : Type}

/-- The world in which a run ended. -/
def left : EStateM.Result Fault (World σ) α → World σ
  | .ok _ u => u
  | .error _ u => u

theorem after_eq_left (x : Act σ α) (w : World σ) : x.after w = left (x w) := by
  unfold after left
  cases x w <;> rfl

end Act

namespace Host
open Act
variable {σ : Type} (host : Host σ)

/-- The entry that a call makes in the record. -/
def entry (c : Callable) (this : Value) (args : List Value) (w : World (Recorded σ)) : Call :=
  ⟨c, this, args, (host.recording.invoke c this args).outcome w,
    ((host.recording.invoke c this args).after w).heap⟩

variable {host}

theorem calls_of_invoke {c : Callable} {this : Value} {args : List Value}
    {w : World (Recorded σ)} {r : EStateM.Result Fault (World (Recorded σ)) Value}
    (call : host.recording.invoke c this args w = r) :
    (left r).host.calls = w.host.calls ++ [host.entry c this args w] := by
  subst call
  simp only [entry, outcome, after, left, recording]
  cases host.invoke c this args w.forget <;> rfl

/-- What a property that was found answers to a receiver, and what was called for it. -/
inductive Answers (host : Host σ) (receiver : Value) (w : World (Recorded σ)) :
    Option Property → Option Call → EStateM.Result Fault (World (Recorded σ)) Value → Prop where
  | absent : Answers host receiver w none none (.ok .undefined w)
  | value {v : Value} {b e c : Bool} :
    Answers host receiver w (some ⟨.data v b, e, c⟩) none (.ok v w)
  | noGetter {setter : Option ObjectId} {e c : Bool} :
    Answers host receiver w (some ⟨.accessor none setter, e, c⟩) none (.ok .undefined w)
  | uncallable {getter : ObjectId} {setter : Option ObjectId} {e c : Bool}
      (refused : (w.heap.object getter).callable? = none) :
    Answers host receiver w (some ⟨.accessor (some getter) setter, e, c⟩) none
      (.error (.typeError (.notCallable (.object getter))) w)
  | called {getter : ObjectId} {setter : Option ObjectId} {e c : Bool} {f : Callable}
      (callable : (w.heap.object getter).callable? = some f) :
    Answers host receiver w (some ⟨.accessor (some getter) setter, e, c⟩)
      (some (host.entry f receiver [] w)) (host.recording.invoke f receiver [] w)

/-- By the property. -/
theorem exists_answers (host : Host σ) (p : Option Property) (receiver : Value)
    (w : World (Recorded σ)) :
    ∃ call, host.Answers receiver w p call (host.recording.read p receiver w) := by
  rcases p with _ | ⟨⟨v, b⟩ | ⟨_ | getter, setter⟩, e, c⟩
  · exact ⟨none, .absent⟩
  · exact ⟨none, .value⟩
  · exact ⟨none, .noGetter⟩
  · have hread : host.recording.read (some ⟨.accessor (some getter) setter, e, c⟩) receiver =
        host.recording.callObject getter receiver [] := rfl
    rw [hread]
    cases hf : (w.heap.object getter).callable? with
    | none =>
      rw [host.recording.callObject_of_uncallable hf]
      exact ⟨none, .uncallable hf⟩
    | some f =>
      rw [host.recording.callObject_of_callable hf]
      exact ⟨_, .called hf⟩

/-- The one call of an answer, if there was one, is all that it adds to the record. -/
theorem Answers.calls {receiver : Value} {w : World (Recorded σ)} {p : Option Property}
    {call : Option Call} {r : EStateM.Result Fault (World (Recorded σ)) Value}
    (h : host.Answers receiver w p call r) :
    (left r).host.calls = w.host.calls ++ call.toList := by
  cases h with
  | called callable => exact calls_of_invoke rfl
  | _ => exact (List.append_nil _).symm

/-- A getter is called with the receiver, and with no arguments. -/
theorem Answers.receiver {receiver : Value} {w : World (Recorded σ)} {p : Option Property}
    {call : Option Call} {r : EStateM.Result Fault (World (Recorded σ)) Value}
    (h : host.Answers receiver w p call r) : ∀ c ∈ call, c.receiver = receiver ∧ c.args = [] := by
  cases h with
  | called callable =>
    intro c hc
    obtain rfl := Option.mem_some_iff.mp hc
    exact ⟨rfl, rfl⟩
  | _ => exact fun c hc => absurd hc (Option.not_mem_none c)

/-- How a key is read from an object on for a receiver: what was called, and what came of it. -/
inductive Reads (host : Host σ) (o : ObjectId) (key : String) (receiver : Value)
    (w : World (Recorded σ)) :
    Option Call → EStateM.Result Fault (World (Recorded σ)) Value → Prop where
  | unanswered {e : ChainFault} (walk : w.heap.lookup host.limit o key = .error e) :
    Reads host o key receiver w none (.error (.typeError (e.cause key)) w)
  | absent (walk : w.heap.lookup host.limit o key = .ok none) :
    Reads host o key receiver w none (.ok .undefined w)
  | value {v : Value} {b e c : Bool}
      (walk : w.heap.lookup host.limit o key = .ok (some ⟨.data v b, e, c⟩)) :
    Reads host o key receiver w none (.ok v w)
  | noGetter {setter : Option ObjectId} {e c : Bool}
      (walk : w.heap.lookup host.limit o key = .ok (some ⟨.accessor none setter, e, c⟩)) :
    Reads host o key receiver w none (.ok .undefined w)
  | uncallable {getter : ObjectId} {setter : Option ObjectId} {e c : Bool}
      (walk : w.heap.lookup host.limit o key = .ok (some ⟨.accessor (some getter) setter, e, c⟩))
      (refused : (w.heap.object getter).callable? = none) :
    Reads host o key receiver w none (.error (.typeError (.notCallable (.object getter))) w)
  | called {getter : ObjectId} {setter : Option ObjectId} {e c : Bool} {f : Callable}
      (walk : w.heap.lookup host.limit o key = .ok (some ⟨.accessor (some getter) setter, e, c⟩))
      (callable : (w.heap.object getter).callable? = some f) :
    Reads host o key receiver w (some (host.entry f receiver [] w))
      (host.recording.invoke f receiver [] w)

/-- What a lookup finds answers to the receiver. -/
theorem reads_of_answers {o : ObjectId} {key : String} {receiver : Value} {w : World (Recorded σ)}
    {found : Option Property} {call : Option Call}
    {r : EStateM.Result Fault (World (Recorded σ)) Value}
    (walk : w.heap.lookup host.limit o key = .ok found)
    (h : host.Answers receiver w found call r) : host.Reads o key receiver w call r := by
  cases h with
  | absent => exact .absent walk
  | value => exact .value walk
  | noGetter => exact .noGetter walk
  | uncallable refused => exact .uncallable walk refused
  | called callable => exact .called walk callable

/-- The one call of a reading, if there was one, is all that it adds to the record. -/
theorem Reads.calls {o : ObjectId} {key : String} {receiver : Value} {w : World (Recorded σ)}
    {call : Option Call} {r : EStateM.Result Fault (World (Recorded σ)) Value}
    (h : host.Reads o key receiver w call r) :
    (left r).host.calls = w.host.calls ++ call.toList := by
  cases h with
  | called walk callable => exact calls_of_invoke rfl
  | _ => exact (List.append_nil _).symm

theorem getProperty_bind_error {α : Type} {o : ObjectId} {key : String} {e : ChainFault}
    {w : World σ} (walk : w.heap.lookup host.limit o key = .error e)
    (f : Option Property → Act σ α) :
    (host.getProperty o key >>= f) w = .error (.typeError (e.cause key)) w := by
  rw [getProperty, bind_assoc, heap_bind, walk, ofChain_bind_error]

/-- By what the lookup finds. -/
theorem exists_reads (host : Host σ) (o : ObjectId) (key : String) (receiver : Value)
    (w : World (Recorded σ)) :
    ∃ call, host.Reads o key receiver w call
      ((host.recording.getProperty o key >>= fun p => host.recording.read p receiver) w) := by
  cases walk : w.heap.lookup host.limit o key with
  | error e =>
    rw [getProperty_bind_error walk]
    exact ⟨none, .unanswered walk⟩
  | ok found =>
    rw [getProperty_bind walk]
    obtain ⟨call, answers⟩ := host.exists_answers found receiver w
    exact ⟨call, reads_of_answers walk answers⟩

theorem get_reads (host : Host σ) (o : ObjectId) (key : String) (w : World (Recorded σ)) :
    ∃ call, host.Reads o key (.object o) w call (host.recording.get o key w) :=
  host.exists_reads o key (.object o) w

end Host
end EcmaCore
