import EcmaCore.Proofs.Walk
import EcmaCore.Reference

/-!
# Assignments

The test before an assignment and the lookup after it walk the same chain, so what the test allows
the rest can do: an own value is replaced, a setter is called, or a new property is made on an
object that can grow.
-/
namespace EcmaCore

namespace Property

/-- A value that is writable can be replaced, whatever the flags. -/
theorem refusal?_value {u : Value} (e c : Bool) (v : Value) :
    Property.refusal? ⟨.data u true, e, c⟩ { value := some v } = none := by
  cases c <;> rfl

end Property

namespace Object
variable {x : Object} {key : String} {u v : Value} {e c : Bool}

/-- Defining nothing but the value of a property that can be written puts the value in. -/
theorem define_value (hp : x.ownProperty? key = some ⟨.data u true, e, c⟩) :
    x.define key { value := some v } = .ok (x.store key ⟨.data v true, e, c⟩) := by
  have hsame : (Descriptor.ofProperty ⟨.data u true, e, c⟩).same { value := some v } = false := by
    simp [Descriptor.same, Descriptor.ofProperty, Descriptor.data]
  simp only [define, hp, hsame, Property.refusal?_value e c v]
  rfl

theorem define_new (ha : x.ownProperty? key = none) (he : x.extensible = true) :
    x.define key (.data v true true true) = .ok (x.store key (.data v true true true)) := by
  simp only [define, ha, he]
  rfl

end Object

namespace Heap
variable {h : Heap} {limit : DepthLimit} {o : ObjectId} {key : String}

theorem lookup_of_own {p : Property} (hp : (h.object o).ownProperty? key = some p) :
    h.lookup limit o key = .ok (some p) :=
  lookupFrom_own (ObjectSet.has_empty o) hp

theorem lookup_of_root (ha : (h.object o).ownProperty? key = none)
    (hq : (h.object o).prototype = none) : h.lookup limit o key = .ok none :=
  lookupFrom_root (ObjectSet.has_empty o) ha hq

/-- What is not found on an object is what a lookup from its prototype finds. -/
theorem lookup_of_inherited {next : ObjectId} {r r' : Option Property}
    (ha : (h.object o).ownProperty? key = none) (hq : (h.object o).prototype = some next)
    (hr : h.lookup limit o key = .ok r) (hr' : h.lookup limit next key = .ok r') : r = r' :=
  (finds_of_lookup hr).unique (.inherited ha hq (finds_of_lookup hr'))

/-- What an assignment that is allowed finds. -/
inductive Assignable (x : Object) (key : String) (found : Option Property) : Prop where
  | own (u : Value) (e c : Bool) (own : x.ownProperty? key = some ⟨.data u true, e, c⟩)
  | setter (getter : Option ObjectId) (setter : ObjectId) (e c : Bool)
      (own : ∀ u b e c, x.ownProperty? key ≠ some ⟨.data u b, e, c⟩)
      (found : found = some ⟨.accessor getter (some setter), e, c⟩)
  | new (own : x.ownProperty? key = none) (extensible : x.extensible = true)
      (found : ∀ p, found = some p → p.isData = true)

theorem assignable_of_canPut {r : Option Property} (hc : h.canPut limit o key = .ok true)
    (hr : h.lookup limit o key = .ok r) : Assignable (h.object o) key r := by
  simp only [canPut] at hc
  split at hc
  next p hp =>
    rw [lookup_of_own hp] at hr
    cases hr
    obtain ⟨_ | _, e, c⟩ := p
    case data u b =>
      obtain rfl : b = true := Except.ok.inj hc
      exact .own u e c hp
    case accessor getter setter =>
      cases setter with
      | none => cases hc
      | some s => exact .setter getter s e c (by simp [hp]) rfl
  next ha =>
    split at hc
    next hq =>
      rw [lookup_of_root ha hq] at hr
      cases hr
      exact .new ha (Except.ok.inj hc) (by simp)
    next next hq =>
      cases hn : h.lookup limit next key with
      | error e =>
        rw [hn] at hc
        cases hc
      | ok r' =>
        obtain rfl := lookup_of_inherited ha hq hr hn
        rw [hn] at hc
        cases r with
        | none => exact .new ha (Except.ok.inj hc) (by simp)
        | some p =>
          have hb : (p.slot.takesValue && (p.isAccessor || (h.object o).extensible)) = true :=
            Except.ok.inj hc
          obtain ⟨_ | ⟨getter, _ | s⟩, e, c⟩ := p
          · simp [Property.isAccessor, Slot.isData] at hb
            exact .new ha hb.2 (by rintro _ ⟨⟩; rfl)
          · cases hb
          · exact .setter getter s e c (by simp [ha]) rfl

end Heap

variable {σ : Type} {w : World σ} {o : ObjectId} {key : String}

namespace Act
variable {d : Descriptor}

theorem define_of_ok {h : Heap} (hd : w.heap.define o key d = .ok h) (strict : Bool) :
    define o key d strict w = .ok true { w with heap := h } := by
  rw [define, heap_bind, hd]
  rfl

theorem define_of_mixed (hd : w.heap.define o key d = .error .mixed) (strict : Bool) :
    define o key d strict w = .error (.typeError (.mixedDescriptor key)) w := by
  rw [define, heap_bind, hd]
  rfl

theorem define_of_refused {reason : Refusal}
    (hd : w.heap.define o key d = .error (.refused reason)) :
    define o key d true w = .error (.typeError (.refusedDefinition key reason)) w ∧
      define o key d false w = .ok false w := by
  rw [define, define, heap_bind, heap_bind, hd]
  exact ⟨rfl, rfl⟩

/-- Defining the value of an own property that can be written replaces the value. -/
theorem discard_define_value {u v : Value} {e c : Bool}
    (hp : (w.heap.object o).ownProperty? key = some ⟨.data u true, e, c⟩) (strict : Bool) :
    discard (define o key { value := some v } strict) w = .ok () { w with
      heap := w.heap.replace o ((w.heap.object o).store key ⟨.data v true, e, c⟩) } := by
  have hd : w.heap.define o key { value := some v } =
      .ok (w.heap.replace o ((w.heap.object o).store key ⟨.data v true, e, c⟩)) := by
    rw [Heap.define, Object.define_value hp]
    rfl
  exact discard_of_ok (define_of_ok hd strict)

theorem discard_define_new {v : Value} (ha : (w.heap.object o).ownProperty? key = none)
    (he : (w.heap.object o).extensible = true) (strict : Bool) :
    discard (define o key (.data v true true true) strict) w = .ok () { w with
      heap := w.heap.replace o ((w.heap.object o).store key (.data v true true true)) } := by
  have hd : w.heap.define o key (.data v true true true) =
      .ok (w.heap.replace o ((w.heap.object o).store key (.data v true true true))) := by
    rw [Heap.define, Object.define_new ha he]
    rfl
  exact discard_of_ok (define_of_ok hd strict)

theorem delete_of_some {h : Heap} (hd : w.heap.delete? o key = some h) (strict : Bool) :
    delete o key strict w = .ok true { w with heap := h } := by
  rw [delete, heap_bind, hd]
  rfl

theorem delete_of_none (hd : w.heap.delete? o key = none) :
    delete o key true w = .error (.typeError (.undeletable key)) w ∧
      delete o key false w = .ok false w := by
  rw [delete, delete, heap_bind, heap_bind, hd]
  exact ⟨rfl, rfl⟩

end Act

namespace Host
open Act
variable {host : Host σ} {α : Type} {v : Value} {strict : Bool}

theorem canPut_bind {b : Bool} (hc : w.heap.canPut host.limit o key = .ok b)
    (f : Bool → Act σ α) : (host.canPut o key >>= f) w = f b w := by
  rw [canPut, bind_assoc, heap_bind, hc, ofChain_bind_ok]

theorem getProperty_bind {r : Option Property} (hr : w.heap.lookup host.limit o key = .ok r)
    (f : Option Property → Act σ α) : (host.getProperty o key >>= f) w = f r w := by
  rw [getProperty, bind_assoc, heap_bind, hr, ofChain_bind_ok]

/-- Reading an own value calls nothing. -/
theorem get_of_own {u : Value} {b e c : Bool}
    (hp : (w.heap.object o).ownProperty? key = some ⟨.data u b, e, c⟩) :
    host.get o key w = .ok u w := by
  rw [get, getProperty_bind (Heap.lookup_of_own hp)]
  rfl

/-- The course that assignments share. What is done with an own value, to make a new property, and
on refusal is left open. -/
def assign (host : Host σ) (o : ObjectId) (key : String) (receiver v : Value)
    (own new refuse : Act σ Unit) : Act σ Unit := do
  if ← host.canPut o key then
    match (← object o).ownProperty? key with
    | some ⟨.data .., _, _⟩ => own
    | _ =>
      match ← host.getProperty o key with
      | some ⟨.accessor _ setter, _, _⟩ => host.write setter receiver v
      | _ => new
  else refuse

theorem put_eq_assign (host : Host σ) (o : ObjectId) (key : String) (v : Value) (strict : Bool) :
    host.put o key v strict = host.assign o key (.object o) v
      (discard (define o key { value := v } strict))
      (discard (define o key (.data v true true true) strict))
      (if strict then throw (.typeError (.readOnly key)) else return ()) := rfl

/-- On a primitive everything but the call of a setter is refused. -/
theorem putOnPrimitive_eq_assign (host : Host σ) (base : Value) (key : String) (v : Value)
    (strict : Bool) :
    host.putOnPrimitive base key v strict = (toObject base >>= fun o =>
      host.assign o key base v (refusePrimitivePut key strict) (refusePrimitivePut key strict)
        (refusePrimitivePut key strict)) := rfl

section Course
variable {receiver : Value} {own new refuse : Act σ Unit}

/-- When the test has no answer the assignment ends in a type error of the walk. -/
theorem assign_of_fault {e : ChainFault} (hc : w.heap.canPut host.limit o key = .error e) :
    host.assign o key receiver v own new refuse w = .error (.typeError (e.cause key)) w := by
  rw [assign, canPut, bind_assoc, heap_bind, hc, ofChain_bind_error]

theorem assign_of_refused (hc : w.heap.canPut host.limit o key = .ok false) :
    host.assign o key receiver v own new refuse w = refuse w := by
  rw [assign, canPut_bind hc]
  rfl

theorem assign_of_own {u : Value} {b e c : Bool} (hc : w.heap.canPut host.limit o key = .ok true)
    (hp : (w.heap.object o).ownProperty? key = some ⟨.data u b, e, c⟩) :
    host.assign o key receiver v own new refuse w = own w := by
  rw [assign, canPut_bind hc, if_pos rfl, object_bind, hp]

/-- Without an own value the assignment goes by what the lookup finds. -/
theorem assign_of_walk (hc : w.heap.canPut host.limit o key = .ok true)
    (ho : ∀ u b e c, (w.heap.object o).ownProperty? key ≠ some ⟨.data u b, e, c⟩) :
    host.assign o key receiver v own new refuse w = (host.getProperty o key >>= fun
      | some ⟨.accessor _ setter, _, _⟩ => host.write setter receiver v
      | _ => new) w := by
  rw [assign, canPut_bind hc, if_pos rfl, object_bind]
  rcases hp : (w.heap.object o).ownProperty? key with _ | ⟨_ | _, e, c⟩
  · rfl
  · exact absurd hp (ho _ _ _ _)
  · rfl

/-- When the lookup has no answer, though the test had one, the assignment ends likewise. -/
theorem assign_of_unfound {e : ChainFault} (hc : w.heap.canPut host.limit o key = .ok true)
    (hr : w.heap.lookup host.limit o key = .error e) :
    host.assign o key receiver v own new refuse w = .error (.typeError (e.cause key)) w := by
  have ho : ∀ u b e c, (w.heap.object o).ownProperty? key ≠ some ⟨.data u b, e, c⟩ := by
    intro u b e c hp
    rw [Heap.lookup_of_own hp] at hr
    cases hr
  rw [assign_of_walk hc ho, getProperty, bind_assoc, heap_bind, hr, ofChain_bind_error]

theorem assign_of_setter {getter : Option ObjectId} {setter : ObjectId} {e c : Bool}
    (hc : w.heap.canPut host.limit o key = .ok true)
    (ho : ∀ u b e c, (w.heap.object o).ownProperty? key ≠ some ⟨.data u b, e, c⟩)
    (hr : w.heap.lookup host.limit o key = .ok (some ⟨.accessor getter (some setter), e, c⟩)) :
    host.assign o key receiver v own new refuse w =
      discard (host.callObject setter receiver [v]) w := by
  rw [assign_of_walk hc ho, getProperty_bind hr]
  rfl

theorem assign_of_new {r : Option Property} (hc : w.heap.canPut host.limit o key = .ok true)
    (ha : (w.heap.object o).ownProperty? key = none)
    (hr : w.heap.lookup host.limit o key = .ok r) (hd : ∀ p, r = some p → p.isData = true) :
    host.assign o key receiver v own new refuse w = new w := by
  rw [assign_of_walk hc (by simp [ha]), getProperty_bind hr]
  rcases r with _ | ⟨_ | _, e, c⟩
  · rfl
  · rfl
  · cases hd _ rfl

end Course

/-- The course of an assignment is settled by the chain, whatever is done in the end. -/
inductive Course (host : Host σ) (o : ObjectId) (key : String) (w : World σ) : Prop where
  | fault (e : ChainFault)
      (walk : w.heap.canPut host.limit o key = .error e ∨
        w.heap.lookup host.limit o key = .error e)
      (result : ∀ receiver v own new refuse, host.assign o key receiver v own new refuse w =
        .error (.typeError (e.cause key)) w)
  | refused
      (result : ∀ receiver v own new refuse,
        host.assign o key receiver v own new refuse w = refuse w)
  | own (u : Value) (e c : Bool)
      (own : (w.heap.object o).ownProperty? key = some ⟨.data u true, e, c⟩)
      (result : ∀ receiver v own new refuse,
        host.assign o key receiver v own new refuse w = own w)
  | called (getter : Option ObjectId) (setter : ObjectId) (e c : Bool)
      (found : w.heap.lookup host.limit o key =
        .ok (some ⟨.accessor getter (some setter), e, c⟩))
      (result : ∀ receiver v own new refuse, host.assign o key receiver v own new refuse w =
        discard (host.callObject setter receiver [v]) w)
  | new (absent : (w.heap.object o).ownProperty? key = none)
      (extensible : (w.heap.object o).extensible = true)
      (result : ∀ receiver v own new refuse,
        host.assign o key receiver v own new refuse w = new w)

/-- The cases are those of the test and of the lookup after it. -/
theorem course (host : Host σ) (o : ObjectId) (key : String) (w : World σ) :
    host.Course o key w := by
  cases hc : w.heap.canPut host.limit o key with
  | error e => exact .fault e (.inl hc) fun _ _ _ _ _ => assign_of_fault hc
  | ok allowed =>
    cases allowed with
    | false => exact .refused fun _ _ _ _ _ => assign_of_refused hc
    | true =>
      cases hr : w.heap.lookup host.limit o key with
      | error e => exact .fault e (.inr hr) fun _ _ _ _ _ => assign_of_unfound hc hr
      | ok r =>
        cases Heap.assignable_of_canPut hc hr with
        | own u e c hp => exact .own u e c hp fun _ _ _ _ _ => assign_of_own hc hp
        | setter getter setter e c ho hfound =>
          subst hfound
          exact .called getter setter e c hr fun _ _ _ _ _ => assign_of_setter hc ho hr
        | new ha he hdata => exact .new ha he fun _ _ _ _ _ => assign_of_new hc ha hr hdata

/-- How an assignment goes: only a refusal depends on `strict`, and only a setter is called. -/
inductive Assigns (host : Host σ) (o : ObjectId) (key : String) (v : Value) (w : World σ) :
    Prop where
  | fault (e : ChainFault)
      (walk : w.heap.canPut host.limit o key = .error e ∨
        w.heap.lookup host.limit o key = .error e)
      (result : ∀ strict, host.put o key v strict w = .error (.typeError (e.cause key)) w)
  | refused (loud : host.put o key v true w = .error (.typeError (.readOnly key)) w)
      (silent : host.put o key v false w = .ok () w)
  | stored (h : Heap) (result : ∀ strict, host.put o key v strict w = .ok () { w with heap := h })
  | called (setter : ObjectId)
      (result : ∀ strict, host.put o key v strict w =
        discard (host.callObject setter (.object o) [v]) w)

theorem put_assigns (host : Host σ) (o : ObjectId) (key : String) (v : Value) (w : World σ) :
    host.Assigns o key v w := by
  cases host.course o key w with
  | fault e walk result =>
    exact .fault e walk fun strict => by rw [put_eq_assign, result]
  | refused result =>
    exact .refused (by rw [put_eq_assign, result]; rfl) (by rw [put_eq_assign, result]; rfl)
  | own u e c hp result =>
    exact .stored _ fun strict => by rw [put_eq_assign, result, discard_define_value hp]
  | called getter setter e c found result =>
    exact .called setter fun strict => by rw [put_eq_assign, result]
  | new ha he result =>
    exact .stored _ fun strict => by rw [put_eq_assign, result, discard_define_new ha he]

section Allowed
variable (hc : w.heap.canPut host.limit o key = .ok true)
include hc

theorem put_own {u : Value} {e c : Bool}
    (hp : (w.heap.object o).ownProperty? key = some ⟨.data u true, e, c⟩) :
    host.put o key v strict w = .ok () { w with
      heap := w.heap.replace o ((w.heap.object o).store key ⟨.data v true, e, c⟩) } := by
  rw [put_eq_assign, assign_of_own hc hp, discard_define_value hp]

theorem put_setter {getter : Option ObjectId} {setter : ObjectId} {e c : Bool}
    (ho : ∀ u b e c, (w.heap.object o).ownProperty? key ≠ some ⟨.data u b, e, c⟩)
    (hr : w.heap.lookup host.limit o key = .ok (some ⟨.accessor getter (some setter), e, c⟩)) :
    host.put o key v strict w = discard (host.callObject setter (.object o) [v]) w := by
  rw [put_eq_assign, assign_of_setter hc ho hr]

theorem put_new {r : Option Property} (ha : (w.heap.object o).ownProperty? key = none)
    (he : (w.heap.object o).extensible = true) (hr : w.heap.lookup host.limit o key = .ok r)
    (hd : ∀ p, r = some p → p.isData = true) :
    host.put o key v strict w = .ok () { w with
      heap := w.heap.replace o ((w.heap.object o).store key (.data v true true true)) } := by
  rw [put_eq_assign, assign_of_new hc ha hr hd, discard_define_new ha he]

end Allowed

end Host

end EcmaCore
