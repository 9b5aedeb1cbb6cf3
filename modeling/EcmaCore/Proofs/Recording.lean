import EcmaCore.Access

/-!
# Records of calls

An engine that keeps a record of the calls that operations make. It runs every callable as the
engine it is made from does. Actions with the record do what they do without it; and in the record
a call that failed is the last one of its action, which ends in the heap that the call left. Both
are kept when one action follows another.
-/
namespace EcmaCore

/-- A call that an operation made, how it went, and the heap it left. -/
structure Call where
  callable : Callable
  receiver : Value
  args : List Value
  result : Except Fault Value
  left : Heap

def Call.Succeeds (c : Call) : Prop := ∃ v, c.result = .ok v

/-- The state of an engine, and the calls so far. -/
structure Recorded (σ : Type) where
  engine : σ
  calls : List Call

namespace World
variable {σ : Type}

/-- The world without the record. -/
def forget (w : World (Recorded σ)) : World σ := { w with host := w.host.engine }

def withCalls (w : World σ) (calls : List Call) : World (Recorded σ) :=
  { w with host := ⟨w.host, calls⟩ }

end World

namespace Host
variable {σ : Type}

def recording (host : Host σ) : Host (Recorded σ) where
  limit := host.limit
  invoke c this args w :=
    match host.invoke c this args w.forget with
    | .ok v u => .ok v (u.withCalls (w.host.calls ++ [⟨c, this, args, .ok v, u.heap⟩]))
    | .error e u => .error e (u.withCalls (w.host.calls ++ [⟨c, this, args, .error e, u.heap⟩]))

end Host

namespace Act
variable {σ α β : Type}

/-- What comes of a run, without the record. -/
def forget : EStateM.Result Fault (World (Recorded σ)) α → EStateM.Result Fault (World σ) α
  | .ok a w => .ok a w.forget
  | .error e w => .error e w.forget

/-- Two actions that differ only in the record that one of them makes. -/
def Forgets (x : Act (Recorded σ) α) (y : Act σ α) : Prop := ∀ w, forget (x w) = y w.forget

theorem forgets_bind {x : Act (Recorded σ) α} {y : Act σ α} {f : α → Act (Recorded σ) β}
    {g : α → Act σ β} (hx : Forgets x y) (hf : ∀ a, Forgets (f a) (g a)) :
    Forgets (x >>= f) (y >>= g) := by
  intro w
  have hw := hx w
  simp only [bind, EStateM.bind]
  cases h : x w with
  | ok a u =>
    rw [h] at hw
    rw [← hw]
    exact hf a u
  | error e u =>
    rw [h] at hw
    rw [← hw]
    rfl

/-- How an action ends, by the calls that it made: without one that failed, or by the fault of the
last one and in the heap which that one left. -/
inductive Ending (w : World (Recorded σ)) : EStateM.Result Fault (World (Recorded σ)) α → Prop where
  | ok {a : α} {u : World (Recorded σ)} (made : List Call)
      (calls : u.host.calls = w.host.calls ++ made) (succeed : ∀ c ∈ made, c.Succeeds) :
      Ending w (.ok a u)
  | own {e : Fault} {u : World (Recorded σ)} (made : List Call)
      (calls : u.host.calls = w.host.calls ++ made) (succeed : ∀ c ∈ made, c.Succeeds) :
      Ending w (.error e u)
  | passed {e : Fault} {u : World (Recorded σ)} (made : List Call) (last : Call)
      (calls : u.host.calls = w.host.calls ++ (made ++ [last]))
      (succeed : ∀ c ∈ made, c.Succeeds) (result : last.result = .error e)
      (left : u.heap = last.left) : Ending w (.error e u)

/-- Calls that came before, none of which failed, change nothing of how an action ends. -/
theorem Ending.after_calls {u w : World (Recorded σ)}
    {r : EStateM.Result Fault (World (Recorded σ)) α} {made : List Call} (hr : Ending u r)
    (calls : u.host.calls = w.host.calls ++ made) (succeed : ∀ c ∈ made, c.Succeeds) :
    Ending w r := by
  have hboth : ∀ {more : List Call}, (∀ c ∈ more, c.Succeeds) →
      ∀ c ∈ made ++ more, c.Succeeds := by
    intro more hmore c hc
    exact (List.mem_append.mp hc).elim (succeed c) (hmore c)
  cases hr with
  | ok more hcalls hmore =>
    exact .ok (made ++ more) (by rw [hcalls, calls, List.append_assoc]) (hboth hmore)
  | own more hcalls hmore =>
    exact .own (made ++ more) (by rw [hcalls, calls, List.append_assoc]) (hboth hmore)
  | passed more last hcalls hmore result left =>
    exact .passed (made ++ more) last (by rw [hcalls, calls, List.append_assoc, List.append_assoc])
      (hboth hmore) result left

/-- What comes after a call that failed is not run. -/
theorem ending_bind {x : Act (Recorded σ) α} {f : α → Act (Recorded σ) β}
    {w : World (Recorded σ)} (hx : Ending w (x w)) (hf : ∀ a u, Ending u (f a u)) :
    Ending w ((x >>= f) w) := by
  simp only [bind, EStateM.bind]
  cases h : x w with
  | ok a u =>
    rw [h] at hx
    cases hx with
    | ok made calls succeed => exact (hf a u).after_calls calls succeed
  | error e u =>
    rw [h] at hx
    cases hx with
    | own made calls succeed => exact .own made calls succeed
    | passed made last calls succeed result left => exact .passed made last calls succeed result left

/-- An action that keeps the record, and the action without it. They do the same, and by the record
the fault of a callable ends the action. -/
structure Records (x : Act (Recorded σ) α) (y : Act σ α) : Prop where
  forgets : Forgets x y
  ending : ∀ w, Ending w (x w)

/-- An action that calls nothing leaves the record as it is. -/
theorem records_of_quiet {x : Act (Recorded σ) α} {y : Act σ α} (hx : Forgets x y)
    (hquiet : ∀ w, (x.after w).host.calls = w.host.calls) : Records x y := by
  refine ⟨hx, fun w => ?_⟩
  have hcalls := hquiet w
  unfold after at hcalls
  cases h : x w with
  | ok a u =>
    rw [h] at hcalls
    exact .ok [] (by simpa using hcalls) (by simp)
  | error e u =>
    rw [h] at hcalls
    exact .own [] (by simpa using hcalls) (by simp)

theorem records_bind {x : Act (Recorded σ) α} {y : Act σ α} {f : α → Act (Recorded σ) β}
    {g : α → Act σ β} (hx : Records x y) (hf : ∀ a, Records (f a) (g a)) :
    Records (x >>= f) (y >>= g) where
  forgets := forgets_bind hx.forgets fun a => (hf a).forgets
  ending w := ending_bind (hx.ending w) fun a => (hf a).ending

theorem records_pure (a : α) : Records (σ := σ) (pure a) (pure a) :=
  records_of_quiet (fun _ => rfl) fun _ => rfl

theorem records_throw (e : Fault) : Records (σ := σ) (throw e : Act _ α) (throw e) :=
  records_of_quiet (fun _ => rfl) fun _ => rfl

theorem records_discard {x : Act (Recorded σ) α} {y : Act σ α} (hx : Records x y) :
    Records (discard x) (discard y) :=
  records_bind hx fun _ => records_pure ()

/-- What a run with the record tells of the run without it. Both do the same; and of the calls that
are made, one that failed is the last, its fault is the fault of the action, and the heap which it
left is the heap that the action leaves. -/
structure Passes (x : Act (Recorded σ) α) (y : Act σ α) (w : World (Recorded σ))
    (made : List Call) : Prop where
  same : forget (x w) = y w.forget
  calls : (x.after w).host.calls = w.host.calls ++ made
  abort : ∀ before call rest e, made = before ++ call :: rest → call.result = .error e →
    rest = [] ∧ ∃ u, y w.forget = .error e u ∧ u.heap = call.left

theorem not_mem_of_failed {made : List Call} {call : Call} {e : Fault}
    (succeed : ∀ c ∈ made, c.Succeeds) (failed : call.result = .error e) : call ∉ made := by
  intro hmem
  obtain ⟨v, hv⟩ := succeed call hmem
  rw [hv] at failed
  cases failed

/-- Where only the last of the calls may have failed, one that did is the last. -/
theorem last_of_failed {before made rest : List Call} {call last : Call} {e : Fault}
    (succeed : ∀ c ∈ made, c.Succeeds) (split : made ++ [last] = before ++ call :: rest)
    (failed : call.result = .error e) : rest = [] ∧ call = last := by
  obtain rfl | ⟨more, final, rfl⟩ := List.eq_nil_or_concat rest
  · obtain ⟨-, heq⟩ := List.append_inj' split rfl
    exact ⟨rfl, (List.cons.inj heq).1.symm⟩
  · have hsplit : made ++ [last] = (before ++ call :: more) ++ [final] := by simpa using split
    obtain ⟨hmade, -⟩ := List.append_inj' hsplit rfl
    have hmem : call ∈ made := by
      rw [hmade]
      exact List.mem_append_right before List.mem_cons_self
    exact absurd hmem (not_mem_of_failed succeed failed)

/-- By the ways in which the action may end: in the first two no call has failed. -/
theorem Records.passes {x : Act (Recorded σ) α} {y : Act σ α} (h : Records x y)
    (w : World (Recorded σ)) : ∃ made, Passes x y w made := by
  have hsame := h.forgets w
  have hending := h.ending w
  cases hx : x w with
  | ok a u =>
    rw [hx] at hending
    cases hending with
    | ok made calls succeed =>
      refine ⟨made, hsame, by simp only [after, hx, calls], ?_⟩
      rintro before call rest e rfl failed
      exact absurd (by simp) (not_mem_of_failed succeed failed)
  | error e u =>
    rw [hx] at hending
    cases hending with
    | own made calls succeed =>
      refine ⟨made, hsame, by simp only [after, hx, calls], ?_⟩
      rintro before call rest e rfl failed
      exact absurd (by simp) (not_mem_of_failed succeed failed)
    | passed made last calls succeed result left =>
      refine ⟨made ++ [last], hsame, by simp only [after, hx, calls], ?_⟩
      intro before call rest e' split failed
      obtain ⟨rfl, rfl⟩ := last_of_failed succeed split failed
      obtain rfl := Except.error.inj (result.symm.trans failed)
      rw [hx] at hsame
      exact ⟨rfl, u.forget, hsame.symm, left⟩

end Act

/-- The one way in which operations call. -/
theorem Host.invoke_records {σ : Type} (host : Host σ) (c : Callable) (this : Value)
    (args : List Value) :
    Act.Records (host.recording.invoke c this args) (host.invoke c this args) where
  forgets w := by
    simp only [recording]
    cases host.invoke c this args w.forget <;> rfl
  ending w := by
    simp only [recording]
    cases host.invoke c this args w.forget with
    | ok v u => exact .ok [_] rfl (by simp [Call.Succeeds])
    | error e u => exact .passed [] _ rfl (by simp) rfl rfl

/-- A call that succeeds is the one call in its record. -/
theorem Host.callObject_recorded {σ : Type} {host : Host σ} {f : ObjectId} {this : Value}
    {args : List Value} {v : Value} {u w : World (Recorded σ)}
    (done : host.recording.callObject f this args w = .ok v u) :
    ∃ c, (w.heap.object f).callable? = some c ∧
      u.host.calls = w.host.calls ++ [⟨c, this, args, .ok v, u.heap⟩] := by
  cases hf : (w.heap.object f).callable? with
  | none =>
    rw [host.recording.callObject_of_uncallable hf] at done
    cases done
  | some c =>
    rw [host.recording.callObject_of_callable hf] at done
    simp only [recording] at done
    cases hi : host.invoke c this args w.forget with
    | ok a m =>
      rw [hi] at done
      cases done
      exact ⟨c, rfl, rfl⟩
    | error e m =>
      rw [hi] at done
      cases done

/-- An engine in which callables do nothing. -/
def Host.idle : Host Unit := ⟨.default, fun _ _ _ => return .undefined⟩

end EcmaCore
