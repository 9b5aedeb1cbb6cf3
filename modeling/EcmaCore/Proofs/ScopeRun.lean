import EcmaCore.Scope

/-!
# Runs of a scope

The operations on a scope as requests, each with its answer, and the history of a run of them. A
request concerns the binding of one name: its answer and what becomes of that binding depend on
nothing else (`Request.answer`, `Request.next`), and no other binding changes. So each name goes
through its own requests as if there were no others.
-/
namespace EcmaCore

inductive Request where
  | create (name : String) (kind : BindingKind)
  | initialise (name : String) (v : Value)
  | set (name : String) (v : Value) (strict : Bool)
  | delete (name : String)
  | has (name : String)
  | get (name : String) (strict : Bool)
  deriving DecidableEq, Repr

inductive Answer where
  | done
  | flag (b : Bool)
  | value (v : Value)
  | fault (e : Fault)
  deriving DecidableEq, Repr

/-- A request and how it was answered. -/
structure Event where
  request : Request
  answer : Answer
  deriving DecidableEq, Repr

def Answer.ofExcept (present : α → Answer) : Except Fault α → Answer
  | .ok a => present a
  | .error e => fault e

namespace Request

/-- The name of the binding that a request concerns. -/
def name : Request → String
  | create name _ | initialise name _ | set name _ _ | delete name | has name | get name _ => name

/-- What a request makes of the binding of its name. -/
def next : Request → Option Binding → Option Binding
  | create _ kind, none => some ⟨kind, none⟩
  | initialise _ v, some ⟨kind, none⟩ => some ⟨kind, some v⟩
  | set _ v _, some ⟨kind, old⟩ => some ⟨kind, if kind = .constant then old else some v⟩
  | delete _, some ⟨.deletable, _⟩ => none
  | _, b => b

/-- The answer to a request, from the binding of its name. -/
def answer : Request → Option Binding → Answer
  | create .., _ => .done
  | initialise .., b => .flag (b.any (·.value.isNone))
  | set name .., none => .fault (.referenceError (.undefined name))
  | set name _ strict, some ⟨kind, _⟩ =>
    if kind = .constant && strict then .fault (.typeError (.constant name)) else .done
  | delete _, b => .flag (b.all (·.kind = .deletable))
  | has _, b => .flag b.isSome
  | get name _, none => .fault (.referenceError (.undefined name))
  | get _ _, some ⟨_, some v⟩ => .value v
  | get name strict, some ⟨_, none⟩ =>
    if strict then .fault (.referenceError (.uninitialised name)) else .value .undefined

end Request

namespace Event

def name (e : Event) : String := e.request.name

/-- The value that an event gave to a binding that is not constant. -/
def written? : Event → Option Value
  | ⟨.initialise _ v, .flag true⟩ => some v
  | ⟨.set _ v _, .done⟩ => some v
  | _ => none

/-- The value of a name from the last event that gave it one. -/
def latest? (name : String) : List Event → Option Value
  | [] => none
  | e :: rest => (latest? name rest).or (if e.name = name then e.written? else none)

end Event

namespace Scope

/-- Answers a request. One that fails leaves the scope as it is. -/
def perform (s : Scope) : Request → Answer × Scope
  | .create name kind => (.done, s.create name kind)
  | .initialise name v => (.flag (s.initialise? name v).isSome, (s.initialise? name v).getD s)
  | .set name v strict =>
    (.ofExcept (fun _ => .done) (s.set name v strict), (s.set name v strict).toOption.getD s)
  | .delete name => (.flag (s.delete? name).isSome, (s.delete? name).getD s)
  | .has name => (.flag (s.has name), s)
  | .get name strict => (.ofExcept .value (s.get name strict), s)

/-- The scope after some requests. -/
def after (s : Scope) : List Request → Scope
  | [] => s
  | r :: rest => (s.perform r).2.after rest

/-- Some requests, each with the answer that it gets at its turn. -/
def history (s : Scope) : List Request → List Event
  | [] => []
  | r :: rest => ⟨r, (s.perform r).1⟩ :: (s.perform r).2.history rest

variable {s t : Scope} {name : String} {requests : List Request}

theorem perform_answer (s : Scope) (r : Request) :
    (s.perform r).1 = r.answer (s.binding? r.name) := by
  cases r with
  | create => rfl
  | initialise name v =>
    simp only [perform, initialise?, Request.name, Request.answer]
    rcases s.binding? name with _ | ⟨kind, _ | old⟩ <;> rfl
  | set name v strict =>
    simp only [perform, set, Request.name]
    rcases s.binding? name with _ | ⟨_ | _ | _, old⟩
    · rfl
    · rfl
    · rfl
    · cases strict <;> rfl
  | delete name =>
    simp only [perform, delete?, Request.name, Request.answer]
    rcases s.binding? name with _ | ⟨_ | _ | _, old⟩ <;> rfl
  | has => rfl
  | get name strict =>
    simp only [perform, get, Request.name]
    rcases s.binding? name with _ | ⟨kind, _ | v⟩
    · rfl
    · cases strict <;> rfl
    · rfl

theorem binding?_insert (s : Scope) (k : String) (b : Binding) :
    (⟨s.bindings.insert k b⟩ : Scope).binding? name =
      if k = name then some b else s.binding? name := by
  split
  next h =>
    subst h
    exact Table.find?_insert_same ..
  next h => exact Table.find?_insert_other _ _ (Ne.symm h)

theorem binding?_erase (s : Scope) (k : String) :
    (⟨s.bindings.erase k⟩ : Scope).binding? name =
      if k = name then none else s.binding? name := by
  split
  next h =>
    subst h
    exact Table.find?_erase_same ..
  next h => exact Table.find?_erase_other _ (Ne.symm h)

theorem binding?_perform_same (s : Scope) (r : Request) :
    (s.perform r).2.binding? r.name = r.next (s.binding? r.name) := by
  cases r with
  | create k kind =>
    simp only [perform, create, Request.name]
    split
    next h =>
      obtain ⟨b, hb⟩ := Option.isSome_iff_exists.mp h
      rw [hb]
      rfl
    next h =>
      rw [Option.not_isSome_iff_eq_none.mp h]
      exact (binding?_insert ..).trans (if_pos rfl)
  | initialise k v =>
    simp only [perform, initialise?, Request.name]
    split
    next kind h =>
      rw [h]
      exact (binding?_insert ..).trans (if_pos rfl)
    next h =>
      rcases hb : s.binding? k with _ | ⟨kind, _ | old⟩
      · exact hb
      · exact absurd hb (h kind)
      · exact hb
  | set k v strict =>
    simp only [perform, set, Request.name]
    split
    next h =>
      rw [h]
      exact h
    next old h =>
      rw [h]
      cases strict <;> exact h
    next kind old hmutable h =>
      rw [h]
      refine (binding?_insert ..).trans ((if_pos rfl).trans ?_)
      cases kind with
      | constant => exact absurd rfl hmutable
      | deletable => rfl
      | permanent => rfl
  | delete k =>
    simp only [perform, delete?, Request.name]
    split
    next h =>
      rw [h]
      exact h
    next old h =>
      rw [h]
      exact (binding?_erase ..).trans (if_pos rfl)
    next b hb h =>
      obtain ⟨kind, old⟩ := b
      rw [h]
      cases kind with
      | deletable => exact absurd rfl (hb old)
      | permanent => exact h
      | constant => exact h
  | has => rfl
  | get => rfl

theorem binding?_perform_other (s : Scope) {r : Request} (hr : r.name ≠ name) :
    (s.perform r).2.binding? name = s.binding? name := by
  cases r with
  | create k kind =>
    simp only [perform, create]
    split
    · rfl
    · exact (binding?_insert ..).trans (if_neg hr)
  | initialise k v =>
    simp only [perform, initialise?]
    split
    · exact (binding?_insert ..).trans (if_neg hr)
    · rfl
  | set k v strict =>
    simp only [perform, set]
    split
    · rfl
    · cases strict <;> rfl
    · exact (binding?_insert ..).trans (if_neg hr)
  | delete k =>
    simp only [perform, delete?]
    split
    · rfl
    · exact (binding?_erase ..).trans (if_neg hr)
    · rfl
  | has => rfl
  | get => rfl

theorem after_append (more : List Request) :
    s.after (requests ++ more) = (s.after requests).after more := by
  induction requests generalizing s with
  | nil => rfl
  | cons r rest ih => exact ih

/-- An event in a history is a request with the answer that it got at its turn. -/
theorem eq_of_history {before after : List Event} {e : Event}
    (h : s.history requests = before ++ e :: after) :
    ∃ earlier later, requests = earlier ++ e.request :: later ∧ s.history earlier = before ∧
      e.answer = ((s.after earlier).perform e.request).1 ∧
      ((s.after earlier).perform e.request).2.history later = after := by
  induction requests generalizing s before with
  | nil => simp [history] at h
  | cons r rest ih =>
    cases before with
    | nil =>
      obtain ⟨rfl, rfl⟩ := List.cons.inj h
      exact ⟨[], rest, rfl, rfl, rfl, rfl⟩
    | cons b before =>
      obtain ⟨rfl, htail⟩ := List.cons.inj h
      obtain ⟨earlier, later, rfl, rfl, ha, hl⟩ := ih htail
      exact ⟨r :: earlier, later, rfl, rfl, ha, hl⟩

/-- What every request of a run that concerns a binding keeps of it, the run keeps. -/
theorem after_preserves {P : Option Binding → Prop} {Q : Event → Prop}
    (step : ∀ r b, r.name = name → Q ⟨r, r.answer b⟩ → P b → P (r.next b))
    (hQ : ∀ e ∈ s.history requests, e.name = name → Q e) (hP : P (s.binding? name)) :
    P ((s.after requests).binding? name) := by
  induction requests generalizing s with
  | nil => exact hP
  | cons r rest ih =>
    apply ih fun e he => hQ e (List.mem_cons_of_mem _ he)
    by_cases hr : r.name = name
    · subst hr
      rw [binding?_perform_same]
      have hq := hQ _ List.mem_cons_self rfl
      rw [perform_answer] at hq
      exact step r _ rfl hq hP
    · rw [binding?_perform_other s hr]
      exact hP

/-- The events of a name in a run are those of its own requests alone. By induction on the run,
from two scopes that agree on the name. -/
theorem history_own (h : s.binding? name = t.binding? name) :
    (s.history requests).filter (·.name = name) = t.history (requests.filter (·.name = name)) ∧
      (s.after requests).binding? name =
        (t.after (requests.filter (·.name = name))).binding? name := by
  induction requests generalizing s t with
  | nil => exact ⟨rfl, h⟩
  | cons r rest ih =>
    by_cases hr : r.name = name
    · subst hr
      have hanswer : (s.perform r).1 = (t.perform r).1 := by
        rw [perform_answer, perform_answer, h]
      have hnext : (s.perform r).2.binding? r.name = (t.perform r).2.binding? r.name := by
        rw [binding?_perform_same, binding?_perform_same, h]
      obtain ⟨ih, hb⟩ := ih hnext
      simp only [history, after, List.filter_cons, Event.name, decide_true, if_true, hanswer]
      exact ⟨congrArg _ ih, hb⟩
    · have hnext : (s.perform r).2.binding? name = t.binding? name := by
        rw [binding?_perform_other s hr, h]
      obtain ⟨ih, hb⟩ := ih hnext
      simp only [history, after, List.filter_cons, Event.name, hr, decide_false]
      exact ⟨ih, hb⟩

end Scope
end EcmaCore
