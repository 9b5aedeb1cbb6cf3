import EcmaCore.Heap.Chain
import EcmaCore.Realm
import EcmaCore.Scope

/-!
# The world and the host

Operations act on a world: the heap, the realm, the scopes, and whatever the engine that embeds the
library keeps for itself. When an operation fails, what was done before stays done.

The engine is a `Host`. It sets the depth limit, and it runs callables. A callable may do anything
to the world, so an operation that calls one may find everything changed afterwards.
-/
namespace EcmaCore

/-- The cause to report of a walk for a key that gives no answer. -/
def ChainFault.cause (key : String) : ChainFault → TypeErrorCause
  | cyclic => .cyclicChain key
  | tooDeep => .deepChain key

/-- The identity of a scope. -/
structure ScopeId where
  index : Nat
  deriving DecidableEq, Repr

structure World (σ : Type) where
  heap : Heap
  realm : Realm
  scopes : Array Scope
  /-- What the engine keeps for itself. -/
  host : σ

/-- An operation on a world of an engine, with a result or a fault. -/
abbrev Act (σ : Type) := EStateM Fault (World σ)

/-- The engine: its depth limit, and what a callable does with a receiver and arguments. -/
structure Host (σ : Type) where
  limit : DepthLimit
  invoke : Callable → Value → List Value → Act σ Value

namespace World
variable {σ : Type}

/-- A world without objects, in which the engine begins. -/
def start (host : σ) : World σ := ⟨.empty, .empty, #[], host⟩

def scope (w : World σ) (s : ScopeId) : Scope := w.scopes.getD s.index default

end World

namespace Act
variable {σ : Type}

def heap : Act σ Heap := return (← get).heap

def setHeap (h : Heap) : Act σ Unit := modify fun w => { w with heap := h }

def object (o : ObjectId) : Act σ Object := return (← heap).object o

/-- Adds an object to the heap. -/
def create (x : Object) : Act σ ObjectId :=
  modifyGet fun w => (w.heap.fresh, { w with heap := w.heap.push x })

def intrinsic? (i : Intrinsic) : Act σ (Option ObjectId) := return (← get).realm.get? i

/-- Puts an intrinsic in its place, or takes it away, and gives the one before. -/
def setIntrinsic (i : Intrinsic) (o : Option ObjectId) : Act σ (Option ObjectId) :=
  modifyGet fun w => (w.realm.get? i, { w with realm := w.realm.set i o })

/-- Adds a scope. -/
def createScope (s : Scope) : Act σ ScopeId :=
  modifyGet fun w => (⟨w.scopes.size⟩, { w with scopes := w.scopes.push s })

def scope (s : ScopeId) : Act σ Scope := return (← get).scope s

def setScope (s : ScopeId) (content : Scope) : Act σ Unit :=
  modify fun w => { w with scopes := w.scopes.setIfInBounds s.index content }

/-- The result of a walk for a key. -/
def ofChain (key : String) (r : Except ChainFault α) : Act σ α :=
  match r with
  | .ok a => pure a
  | .error e => throw (.typeError (e.cause key))

/-- The world that an action leaves, whatever its result. -/
def after (x : Act σ α) (w : World σ) : World σ :=
  match x w with
  | .ok _ v => v
  | .error _ v => v

@[simp] theorem heap_bind (f : Heap → Act σ α) (w : World σ) : (heap >>= f) w = f w.heap w := rfl

@[simp] theorem object_bind (o : ObjectId) (f : Object → Act σ α) (w : World σ) :
    (object o >>= f) w = f (w.heap.object o) w := rfl

/-- A walk that has an answer goes on with it. -/
theorem ofChain_bind_ok (key : String) (a : α) (f : α → Act σ β) (w : World σ) :
    (ofChain key (.ok a) >>= f) w = f a w := rfl

/-- A walk without an answer ends the action, whatever was to come. -/
theorem ofChain_bind_error (key : String) (e : ChainFault) (f : α → Act σ β) (w : World σ) :
    (ofChain key (.error e) >>= f) w = .error (.typeError (e.cause key)) w := rfl

theorem bind_of_ok {x : Act σ α} {a : α} {m w : World σ} (h : x w = .ok a m) (f : α → Act σ β) :
    (x >>= f) w = f a m := by
  simp only [bind, EStateM.bind, h]

theorem bind_of_error {x : Act σ α} {e : Fault} {u w : World σ} (h : x w = .error e u)
    (f : α → Act σ β) : (x >>= f) w = .error e u := by
  simp only [bind, EStateM.bind, h]

/-- Actions in sequence have a result when the first has one and the second, after it, has too. -/
theorem bind_eq_ok_iff {x : Act σ α} {f : α → Act σ β} {b : β} {u w : World σ} :
    (x >>= f) w = .ok b u ↔ ∃ a m, x w = .ok a m ∧ f a m = .ok b u := by
  simp only [bind, EStateM.bind]
  cases x w with
  | ok a m =>
    refine ⟨fun h => ⟨a, m, rfl, h⟩, ?_⟩
    rintro ⟨_, _, ⟨⟩, h⟩
    exact h
  | error e m => simp

theorem discard_eq_ok_iff {x : Act σ α} {u w : World σ} :
    discard x w = .ok () u ↔ ∃ a, x w = .ok a u := by
  have hbind : discard x w = (x >>= fun _ => pure ()) w := rfl
  rw [hbind, bind_eq_ok_iff]
  constructor
  · rintro ⟨a, m, ha, ⟨⟩⟩
    exact ⟨a, ha⟩
  · rintro ⟨a, ha⟩
    exact ⟨a, u, ha, rfl⟩

theorem discard_of_ok {x : Act σ α} {a : α} {u w : World σ} (h : x w = .ok a u) :
    discard x w = .ok () u :=
  discard_eq_ok_iff.mpr ⟨a, h⟩

theorem discard_eq_error_iff {x : Act σ α} {e : Fault} {u w : World σ} :
    discard x w = .error e u ↔ x w = .error e u := by
  have hbind : discard x w = (x >>= fun _ => pure ()) w := rfl
  simp only [hbind, bind, EStateM.bind]
  cases x w with
  | ok a m => exact ⟨nofun, nofun⟩
  | error f m =>
    constructor
    · rintro ⟨⟩
      rfl
    · rintro ⟨⟩
      rfl

end Act
end EcmaCore
