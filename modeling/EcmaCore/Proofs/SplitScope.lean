import EcmaCore.Proofs.ScopeRun

/-!
# Scopes in two maps

A scope kept as two maps, one from names to values and one from names to marks that restrict their
bindings. A name without marks has a binding that can be assigned to and deleted. Every request is
answered as by the scope in one table, whatever was asked before.
-/
namespace EcmaCore

inductive BindingMark where
  | noDelete
  | immutable
  deriving DecidableEq, Repr

def BindingKind.marks : BindingKind → List BindingMark
  | deletable => []
  | permanent => [.noDelete]
  | constant => [.immutable]

structure SplitScope where
  values : Table (Option Value)
  marks : Table (List BindingMark)
  deriving DecidableEq, Repr

namespace SplitScope

def empty : SplitScope := ⟨.empty, .empty⟩

def has (p : SplitScope) (name : String) : Bool := (p.values.find? name).isSome

def hasMark (p : SplitScope) (name : String) (m : BindingMark) : Bool :=
  (p.marks.find? name).any (·.contains m)

def create (p : SplitScope) (name : String) (kind : BindingKind) : SplitScope :=
  if p.has name then p else ⟨p.values.insert name none, p.marks.insert name kind.marks⟩

def initialise? (p : SplitScope) (name : String) (v : Value) : Option SplitScope :=
  match p.values.find? name with
  | some none => some { p with values := p.values.insert name (some v) }
  | _ => none

def delete? (p : SplitScope) (name : String) : Option SplitScope :=
  if !p.has name then some p
  else if p.hasMark name .noDelete || p.hasMark name .immutable then none
  else some ⟨p.values.erase name, p.marks.erase name⟩

def get (p : SplitScope) (name : String) (strict : Bool) : Except Fault Value :=
  match p.values.find? name with
  | some (some v) => .ok v
  | some none => if strict then .error (.referenceError (.uninitialised name)) else .ok .undefined
  | none => .error (.referenceError (.undefined name))

def set (p : SplitScope) (name : String) (v : Value) (strict : Bool) : Except Fault SplitScope :=
  if !p.has name then .error (.referenceError (.undefined name))
  else if p.hasMark name .immutable then
    if strict then .error (.typeError (.constant name)) else .ok p
  else .ok { p with values := p.values.insert name (some v) }

/-- Answers a request. One that fails leaves the maps as they are. -/
def perform (p : SplitScope) : Request → Answer × SplitScope
  | .create name kind => (.done, p.create name kind)
  | .initialise name v => (.flag (p.initialise? name v).isSome, (p.initialise? name v).getD p)
  | .set name v strict =>
    (.ofExcept (fun _ => .done) (p.set name v strict), (p.set name v strict).toOption.getD p)
  | .delete name => (.flag (p.delete? name).isSome, (p.delete? name).getD p)
  | .has name => (.flag (p.has name), p)
  | .get name strict => (.ofExcept .value (p.get name strict), p)

/-- Some requests, each with the answer that it gets at its turn. -/
def history (p : SplitScope) : List Request → List Event
  | [] => []
  | r :: rest => ⟨r, (p.perform r).1⟩ :: (p.perform r).2.history rest

/-- The two maps have the names of a scope, each with the value and the marks of its binding. -/
def Represents (p : SplitScope) (s : Scope) : Prop :=
  ∀ name, p.values.find? name = (s.binding? name).map (·.value) ∧
    p.marks.find? name = (s.binding? name).map (·.kind.marks)

variable {p : SplitScope} {s : Scope}

theorem represents_empty : empty.Represents .empty := fun _ => ⟨rfl, rfl⟩

/-- A request that leaves its binding as it is may leave the maps as they are. -/
theorem Represents.unchanged (h : p.Represents s) {r : Request}
    (hn : r.next (s.binding? r.name) = s.binding? r.name) : p.Represents (s.perform r).2 := by
  intro name
  by_cases hr : r.name = name
  · subst hr
    rw [Scope.binding?_perform_same, hn]
    exact h r.name
  · rw [Scope.binding?_perform_other s hr]
    exact h name

/-- A request that makes a binding has to put its value and its marks in the maps. -/
theorem Represents.insert (h : p.Represents s) {r : Request} {b : Binding}
    (hn : r.next (s.binding? r.name) = some b) {marks : Table (List BindingMark)}
    (hsame : marks.find? r.name = some b.kind.marks)
    (hother : ∀ name, name ≠ r.name → marks.find? name = p.marks.find? name) :
    (⟨p.values.insert r.name b.value, marks⟩ : SplitScope).Represents (s.perform r).2 := by
  intro name
  by_cases hr : r.name = name
  · subst hr
    rw [Scope.binding?_perform_same, hn]
    exact ⟨Table.find?_insert_same .., hsame⟩
  · rw [Scope.binding?_perform_other s hr, hother name (Ne.symm hr),
      Table.find?_insert_other _ _ (Ne.symm hr)]
    exact h name

theorem Represents.erase (h : p.Represents s) {r : Request}
    (hn : r.next (s.binding? r.name) = none) :
    (⟨p.values.erase r.name, p.marks.erase r.name⟩ : SplitScope).Represents (s.perform r).2 := by
  intro name
  by_cases hr : r.name = name
  · subst hr
    rw [Scope.binding?_perform_same, hn]
    exact ⟨Table.find?_erase_same .., Table.find?_erase_same ..⟩
  · rw [Scope.binding?_perform_other s hr, Table.find?_erase_other _ (Ne.symm hr),
      Table.find?_erase_other _ (Ne.symm hr)]
    exact h name

theorem Represents.lookup (h : p.Represents s) {name : String} {b : Option Binding}
    (hb : s.binding? name = b) :
    p.values.find? name = b.map (·.value) ∧ p.marks.find? name = b.map (·.kind.marks) := by
  rw [← hb]
  exact h name

section Requests
variable (h : p.Represents s) (k : String)
include h

theorem create_represents (kind : BindingKind) :
    (p.create k kind).Represents (s.perform (.create k kind)).2 := by
  cases hb : s.binding? k with
  | none =>
    obtain ⟨hv, -⟩ := h.lookup hb
    simp only [create, has, hv]
    exact h.insert (r := .create k kind) (b := ⟨kind, none⟩) (by rw [Request.name, hb]; rfl)
      (Table.find?_insert_same ..) fun _ => Table.find?_insert_other _ _
  | some b =>
    obtain ⟨hv, -⟩ := h.lookup hb
    simp only [create, has, hv]
    exact h.unchanged (by rw [Request.name, hb]; rfl)

theorem initialise_represents (v : Value) :
    .flag (p.initialise? k v).isSome = Request.answer (.initialise k v) (s.binding? k) ∧
      ((p.initialise? k v).getD p).Represents (s.perform (.initialise k v)).2 := by
  rcases hb : s.binding? k with _ | ⟨kind, _ | old⟩
  case none =>
    obtain ⟨hv, -⟩ := h.lookup hb
    simp only [initialise?, hv]
    exact ⟨rfl, h.unchanged (by rw [Request.name, hb]; rfl)⟩
  case some.none =>
    obtain ⟨hv, hm⟩ := h.lookup hb
    simp only [initialise?, hv]
    exact ⟨rfl, h.insert (r := .initialise k v) (b := ⟨kind, some v⟩)
      (by rw [Request.name, hb]; rfl) hm fun _ _ => rfl⟩
  case some.some =>
    obtain ⟨hv, -⟩ := h.lookup hb
    simp only [initialise?, hv]
    exact ⟨rfl, h.unchanged (by rw [Request.name, hb]; rfl)⟩

theorem set_represents (v : Value) (strict : Bool) :
    Answer.ofExcept (fun _ => .done) (p.set k v strict) =
        Request.answer (.set k v strict) (s.binding? k) ∧
      ((p.set k v strict).toOption.getD p).Represents (s.perform (.set k v strict)).2 := by
  rcases hb : s.binding? k with _ | ⟨kind, old⟩
  case none =>
    obtain ⟨hv, -⟩ := h.lookup hb
    simp only [set, has, hv]
    exact ⟨rfl, h.unchanged (by rw [Request.name, hb]; rfl)⟩
  case some =>
    obtain ⟨hv, hm⟩ := h.lookup hb
    cases kind with
    | constant =>
      have hset : p.set k v strict =
          if strict then .error (.typeError (.constant k)) else .ok p := by
        simp [set, has, hasMark, hv, hm, BindingKind.marks]
      rw [hset]
      cases strict <;> exact ⟨rfl, h.unchanged (by rw [Request.name, hb]; rfl)⟩
    | deletable | permanent =>
      have hset : p.set k v strict = .ok { p with values := p.values.insert k (some v) } := by
        simp [set, has, hasMark, hv, hm, BindingKind.marks]
      rw [hset]
      exact ⟨rfl, h.insert (r := .set k v strict) (b := ⟨_, some v⟩)
        (by rw [Request.name, hb]; rfl) hm fun _ _ => rfl⟩

theorem delete_represents :
    .flag (p.delete? k).isSome = Request.answer (.delete k) (s.binding? k) ∧
      ((p.delete? k).getD p).Represents (s.perform (.delete k)).2 := by
  rcases hb : s.binding? k with _ | ⟨kind, old⟩
  case none =>
    obtain ⟨hv, -⟩ := h.lookup hb
    simp only [delete?, has, hv]
    exact ⟨rfl, h.unchanged (by rw [Request.name, hb]; rfl)⟩
  case some =>
    obtain ⟨hv, hm⟩ := h.lookup hb
    cases kind with
    | deletable =>
      have hdelete : p.delete? k = some ⟨p.values.erase k, p.marks.erase k⟩ := by
        simp [delete?, has, hasMark, hv, hm, BindingKind.marks]
      rw [hdelete]
      exact ⟨rfl, h.erase (r := .delete k) (by rw [Request.name, hb]; rfl)⟩
    | permanent | constant =>
      have hdelete : p.delete? k = none := by
        simp [delete?, has, hasMark, hv, hm, BindingKind.marks]
      rw [hdelete]
      exact ⟨rfl, h.unchanged (by rw [Request.name, hb]; rfl)⟩

theorem get_represents (strict : Bool) : p.get k strict = s.get k strict := by
  rcases hb : s.binding? k with _ | ⟨kind, _ | v⟩ <;>
    simp only [get, Scope.get, (h.lookup hb).1, hb, Option.map]

end Requests

/-- Both forms answer a request alike, and stay forms of the same bindings. -/
theorem Represents.perform (h : p.Represents s) (r : Request) :
    (p.perform r).1 = (s.perform r).1 ∧ (p.perform r).2.Represents (s.perform r).2 := by
  cases r with
  | create k kind => exact ⟨rfl, create_represents h k kind⟩
  | initialise k v =>
    obtain ⟨ha, hs⟩ := initialise_represents h k v
    exact ⟨ha.trans (Scope.perform_answer s _).symm, hs⟩
  | set k v strict =>
    obtain ⟨ha, hs⟩ := set_represents h k v strict
    exact ⟨ha.trans (Scope.perform_answer s _).symm, hs⟩
  | delete k =>
    obtain ⟨ha, hs⟩ := delete_represents h k
    exact ⟨ha.trans (Scope.perform_answer s _).symm, hs⟩
  | has k =>
    have hhas : p.has k = s.has k := by rw [has, (h k).1, Option.isSome_map, Scope.has]
    exact ⟨congrArg Answer.flag hhas, h⟩
  | get k strict => exact ⟨congrArg (Answer.ofExcept .value) (get_represents h k strict), h⟩

theorem history_eq (h : p.Represents s) (requests : List Request) :
    p.history requests = s.history requests := by
  induction requests generalizing p s with
  | nil => rfl
  | cons r rest ih =>
    obtain ⟨ha, hnext⟩ := h.perform r
    rw [history, Scope.history, ha, ih hnext]

end SplitScope
end EcmaCore
