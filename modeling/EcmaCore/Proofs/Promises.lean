import EcmaCore.Proofs.SplitScope

/-!
# What scopes promise

The promises of a scope are about whole histories of requests, in any order and with names bound,
deleted and bound again. Each comes from what one request keeps of the binding of its name.
-/
namespace EcmaCore

/-- What a scope promises of its bindings, whatever it is asked. -/
structure Scope.Promises (s : Scope) : Prop where
  /-- A binding that is not deletable stays for ever, of the kind with which it was created; it
  cannot be deleted, and to create it again changes nothing. -/
  permanent : ∀ name kind requests, s.has name = false → kind ≠ .deletable →
    let t := (s.create name kind).after requests
    (∃ v, t.binding? name = some ⟨kind, v⟩) ∧ t.delete? name = none ∧
      ∀ kind', t.create name kind' = t
  /-- A constant has no value until it is initialised. -/
  pending : ∀ name requests, s.has name = false →
    (∀ v, ⟨.initialise name v, .flag true⟩ ∉ (s.create name .constant).history requests) →
    ((s.create name .constant).after requests).binding? name = some ⟨.constant, none⟩
  /-- From then on every read gives the value with which it was initialised. -/
  settled : ∀ name v requests, s.has name = false →
    ⟨.initialise name v, .flag true⟩ ∈ (s.create name .constant).history requests →
    ∀ strict, ((s.create name .constant).after requests).get name strict = .ok v
  /-- Between two initialisations of a name that succeed the name is deleted. -/
  once : ∀ name u v requests before mid rest,
    s.history requests = before ++ ⟨.initialise name u, .flag true⟩ ::
      (mid ++ ⟨.initialise name v, .flag true⟩ :: rest) →
    ⟨.delete name, .flag true⟩ ∈ mid
  /-- A binding with a value has one until it is deleted. -/
  initialised : ∀ name kind v requests, s.binding? name = some ⟨kind, some v⟩ →
    ⟨.delete name, .flag true⟩ ∉ s.history requests →
    ∃ u, (s.after requests).binding? name = some ⟨kind, some u⟩
  /-- A binding that is not constant has, until it is deleted, the value that it was given last. -/
  latest : ∀ name kind requests, s.has name = false → kind ≠ .constant →
    let events := (s.create name kind).history requests
    let t := (s.create name kind).after requests
    ⟨.delete name, .flag true⟩ ∉ events →
    t.binding? name = some ⟨kind, Event.latest? name events⟩ ∧
      ∀ v strict, Event.latest? name events = some v → t.get name strict = .ok v
  /-- The requests for one name are answered as if there were no others, and have the same effect. -/
  independent : ∀ name requests,
    (s.history requests).filter (·.name = name) = s.history (requests.filter (·.name = name)) ∧
      (s.after requests).binding? name =
        (s.after (requests.filter (·.name = name))).binding? name

namespace Request
variable {r : Request} {kind : BindingKind} {value : Option Value} {v : Value}

/-- Only a deletable binding goes away, and no request changes the kind of a binding. -/
theorem next_undeletable (r : Request) (hkind : kind ≠ .deletable) (value : Option Value) :
    ∃ u, r.next (some ⟨kind, value⟩) = some ⟨kind, u⟩ := by
  cases r with
  | initialise name v => cases value <;> exact ⟨_, rfl⟩
  | delete name =>
    cases kind with
    | deletable => exact absurd rfl hkind
    | permanent => exact ⟨value, rfl⟩
    | constant => exact ⟨value, rfl⟩
  | _ => exact ⟨_, rfl⟩

theorem next_pending
    (h : ∀ v, (⟨r, r.answer (some ⟨.constant, none⟩)⟩ : Event) ≠
      ⟨.initialise r.name v, .flag true⟩) :
    r.next (some ⟨.constant, none⟩) = some ⟨.constant, none⟩ := by
  cases r with
  | initialise name v => exact absurd rfl (h v)
  | _ => rfl

theorem next_settled (r : Request) (v : Value) :
    r.next (some ⟨.constant, some v⟩) = some ⟨.constant, some v⟩ := by
  cases r <;> rfl

/-- What becomes of a binding that is not deleted: a constant takes a value only when it is
initialised, any other binding every value that is written. -/
theorem next_kept (h : (⟨r, r.answer (some ⟨kind, value⟩)⟩ : Event) ≠ ⟨.delete r.name, .flag true⟩)
    (hkind : kind ≠ .constant) : r.next (some ⟨kind, value⟩) =
      some ⟨kind, (Event.written? ⟨r, r.answer (some ⟨kind, value⟩)⟩).or value⟩ := by
  cases r with
  | initialise name v => cases value <;> rfl
  | set name v strict => simp [next, answer, Event.written?, hkind]
  | delete name =>
    cases kind with
    | deletable => exact absurd rfl h
    | permanent => rfl
    | constant => rfl
  | _ => rfl

theorem next_initialised
    (h : (⟨r, r.answer (some ⟨kind, some v⟩)⟩ : Event) ≠ ⟨.delete r.name, .flag true⟩) :
    ∃ u, r.next (some ⟨kind, some v⟩) = some ⟨kind, some u⟩ := by
  by_cases hkind : kind = .constant
  · subst hkind
    exact ⟨v, next_settled r v⟩
  · rw [next_kept h hkind]
    cases Event.written? _ <;> exact ⟨_, rfl⟩

end Request

namespace Scope
variable {s : Scope} {name : String} {kind : BindingKind} {value : Option Value} {v : Value}
  {requests : List Request}

theorem binding?_create (h : s.has name = false) (kind : BindingKind) :
    (s.create name kind).binding? name = some ⟨kind, none⟩ := by
  simp only [create, h]
  exact (binding?_insert ..).trans (if_pos rfl)

theorem create_of_binding? {b : Binding} (h : s.binding? name = some b) (kind : BindingKind) :
    s.create name kind = s := by
  simp [create, has, h]

theorem after_undeletable (hkind : kind ≠ .deletable) (h : s.binding? name = some ⟨kind, value⟩) :
    ∃ u, (s.after requests).binding? name = some ⟨kind, u⟩ := by
  refine after_preserves (P := fun b => ∃ u, b = some ⟨kind, u⟩) (Q := fun _ => True) ?_
    (fun _ _ _ => trivial) ⟨value, h⟩
  rintro r _ - - ⟨u, rfl⟩
  exact r.next_undeletable hkind u

theorem after_pending (h : s.binding? name = some ⟨.constant, none⟩)
    (hrun : ∀ v, ⟨.initialise name v, .flag true⟩ ∉ s.history requests) :
    (s.after requests).binding? name = some ⟨.constant, none⟩ := by
  refine after_preserves (P := (· = some ⟨.constant, none⟩))
    (Q := fun e => ∀ v, e ≠ ⟨.initialise name v, .flag true⟩) ?_ ?_ h
  · rintro r _ rfl hr rfl
    exact r.next_pending hr
  · rintro e he - v rfl
    exact hrun v he

theorem after_settled (h : s.binding? name = some ⟨.constant, some v⟩) :
    (s.after requests).binding? name = some ⟨.constant, some v⟩ := by
  refine after_preserves (P := (· = some ⟨.constant, some v⟩)) (Q := fun _ => True) ?_
    (fun _ _ _ => trivial) h
  rintro r _ - - rfl
  exact r.next_settled v

theorem after_initialised (h : s.binding? name = some ⟨kind, some v⟩)
    (hrun : ⟨.delete name, .flag true⟩ ∉ s.history requests) :
    ∃ u, (s.after requests).binding? name = some ⟨kind, some u⟩ := by
  refine after_preserves (P := fun b => ∃ u, b = some ⟨kind, some u⟩)
    (Q := (· ≠ ⟨.delete name, .flag true⟩)) ?_ ?_ ⟨v, h⟩
  · rintro r _ rfl hr ⟨u, rfl⟩
    exact r.next_initialised hr
  · rintro e he - rfl
    exact hrun he

/-- An initialisation succeeds on a binding without a value, and gives it one. -/
theorem binding?_of_initialised (h : ((s.perform (.initialise name v)).1) = .flag true) :
    ∃ kind, s.binding? name = some ⟨kind, none⟩ ∧
      (s.perform (.initialise name v)).2.binding? name = some ⟨kind, some v⟩ := by
  rw [perform_answer] at h
  have hnext := binding?_perform_same s (.initialise name v)
  simp only [Request.name] at h hnext
  rcases hb : s.binding? name with _ | ⟨kind, _ | old⟩
  case some.none =>
    rw [hb] at hnext
    exact ⟨kind, rfl, hnext⟩
  all_goals
    rw [hb] at h
    cases h

theorem after_latest (hkind : kind ≠ .constant) (h : s.binding? name = some ⟨kind, value⟩)
    (hrun : ⟨.delete name, .flag true⟩ ∉ s.history requests) :
    (s.after requests).binding? name =
      some ⟨kind, (Event.latest? name (s.history requests)).or value⟩ := by
  induction requests generalizing s value with
  | nil => exact h
  | cons r rest ih =>
    have hrest : ⟨.delete name, .flag true⟩ ∉ (s.perform r).2.history rest :=
      fun he => hrun (List.mem_cons_of_mem _ he)
    rw [after, history, Event.latest?, Option.or_assoc]
    by_cases hr : r.name = name
    · subst hr
      have hnext := binding?_perform_same s r
      have hevent : (⟨r, (s.perform r).1⟩ : Event) ≠ ⟨.delete r.name, .flag true⟩ := by
        intro he
        exact hrun (he ▸ List.mem_cons_self)
      rw [perform_answer, h] at hevent
      rw [h, r.next_kept hevent hkind] at hnext
      rw [ih hnext hrest, perform_answer, h]
      simp [Event.name]
    · have hnext := (binding?_perform_other s hr).trans h
      rw [ih hnext hrest]
      simp [Event.name, hr]

theorem get_of_initialised (h : s.binding? name = some ⟨kind, some v⟩) (strict : Bool) :
    s.get name strict = .ok v := by
  simp only [get, h]

/-- Where a constant was initialised it was without a value before, and has that value after. -/
theorem settled_of_mem (h : s.binding? name = some ⟨.constant, none⟩)
    (he : ⟨.initialise name v, .flag true⟩ ∈ s.history requests) :
    (s.after requests).binding? name = some ⟨.constant, some v⟩ := by
  obtain ⟨before, rest, hsplit⟩ := List.append_of_mem he
  obtain ⟨earlier, later, rfl, -, hanswer, -⟩ := eq_of_history hsplit
  obtain ⟨kind, hbefore, hafter⟩ := binding?_of_initialised hanswer.symm
  have hconstant : ∃ u, (s.after earlier).binding? name = some ⟨.constant, u⟩ :=
    after_undeletable nofun h
  obtain ⟨u, hu⟩ := hconstant
  obtain rfl : kind = .constant := by
    rw [hbefore] at hu
    cases hu
    rfl
  have hrest : (((s.after earlier).perform (.initialise name v)).2.after later).binding? name =
      some ⟨.constant, some v⟩ := after_settled hafter
  rw [after_append]
  exact hrest

/-- After an initialisation the next one can only succeed when the name was deleted between. -/
theorem deleted_between {u : Value} {before mid rest : List Event}
    (h : s.history requests = before ++ ⟨.initialise name u, .flag true⟩ ::
      (mid ++ ⟨.initialise name v, .flag true⟩ :: rest)) :
    ⟨.delete name, .flag true⟩ ∈ mid := by
  obtain ⟨earlier, later, -, -, hfirst, hlater⟩ := eq_of_history h
  obtain ⟨kind, -, hvalue⟩ := binding?_of_initialised hfirst.symm
  obtain ⟨between, _, -, hmid, hsecond, -⟩ := eq_of_history hlater
  obtain ⟨kind', hnone, -⟩ := binding?_of_initialised hsecond.symm
  apply Classical.byContradiction
  intro hdel
  rw [← hmid] at hdel
  obtain ⟨w, hw⟩ := after_initialised hvalue hdel
  rw [hw] at hnone
  cases hnone

end Scope

/-- Every scope keeps its promises, over every run of requests; and a scope in two maps answers
every run as the scope in one table does. -/
theorem bindings_keep_promises (s : Scope) :
    s.Promises ∧
    ∀ requests, SplitScope.empty.history requests = Scope.empty.history requests := by
  refine ⟨⟨?permanent, ?pending, ?settled, ?once, ?initialised, ?latest, ?independent⟩,
    SplitScope.history_eq SplitScope.represents_empty⟩
  case permanent =>
    intro name kind requests habsent hkind t
    have hstays : ∃ v, t.binding? name = some ⟨kind, v⟩ :=
      Scope.after_undeletable hkind (Scope.binding?_create habsent kind)
    obtain ⟨v, hv⟩ := hstays
    refine ⟨⟨v, hv⟩, ?_, Scope.create_of_binding? hv⟩
    cases kind with
    | deletable => exact absurd rfl hkind
    | permanent | constant => simp only [Scope.delete?, t, hv]
  case pending =>
    intro name requests habsent hrun
    exact Scope.after_pending (Scope.binding?_create habsent .constant) hrun
  case settled =>
    intro name v requests habsent he
    exact Scope.get_of_initialised
      (Scope.settled_of_mem (Scope.binding?_create habsent .constant) he)
  case once => exact fun _ _ _ _ _ _ _ h => Scope.deleted_between h
  case initialised => exact fun _ _ _ _ h hrun => Scope.after_initialised h hrun
  case latest =>
    intro name kind requests habsent hkind events t hrun
    have hlatest := Scope.after_latest hkind (Scope.binding?_create habsent kind) hrun
    rw [Option.or_none] at hlatest
    refine ⟨hlatest, fun v strict hv => ?_⟩
    rw [hv] at hlatest
    exact Scope.get_of_initialised hlatest strict
  case independent => exact fun _ _ => Scope.history_own rfl

end EcmaCore
