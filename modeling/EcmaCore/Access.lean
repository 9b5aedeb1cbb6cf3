import EcmaCore.World

/-!
# Access to objects

Defining, deleting, reading, writing and calling. Operations that never call are actions on their
own; the others are operations of a host. With `strict` set a refusal is a fault, else it is only
reported.
-/
namespace EcmaCore

namespace Act
variable {σ : Type}

/-- Defines a property. A descriptor that no property fits is a fault in any case. -/
def define (o : ObjectId) (key : String) (d : Descriptor) (strict : Bool) : Act σ Bool := do
  match (← heap).define o key d with
  | .ok h =>
    setHeap h
    return true
  | .error .mixed => throw (.typeError (.mixedDescriptor key))
  | .error (.refused reason) =>
    if strict then throw (.typeError (.refusedDefinition key reason)) else return false

/-- Deletes a property. One that is absent counts as deleted. -/
def delete (o : ObjectId) (key : String) (strict : Bool) : Act σ Bool := do
  match (← heap).delete? o key with
  | some h =>
    setHeap h
    return true
  | none => if strict then throw (.typeError (.undeletable key)) else return false

def preventExtensions (o : ObjectId) : Act σ Unit :=
  modify fun w => { w with heap := w.heap.preventExtensions o }

/-- The wrapper of a primitive value, linked to the prototype of its kind; an object is its own. -/
def toObject (v : Value) : Act σ ObjectId := do
  match v with
  | .undefined | .null => throw (.typeError (.noWrapper v))
  | .boolean b => create (.ofBoolean b (← intrinsic? .booleanPrototype))
  | .number x => create (.ofNumber x (← intrinsic? .numberPrototype))
  | .string t => create (.ofText t (← intrinsic? .stringPrototype))
  | .object o => return o

end Act

namespace Host
open Act
variable {σ : Type} (host : Host σ)

/-- Links an object to a prototype, or to none, and tells whether the link is made. -/
def setPrototype (o : ObjectId) (prototype : Option ObjectId) : Act σ Bool := do
  match (← heap).setPrototype? host.limit o prototype with
  | some h =>
    setHeap h
    return true
  | none => return false

def getProperty (o : ObjectId) (key : String) : Act σ (Option Property) := do
  ofChain key ((← heap).lookup host.limit o key)

def hasProperty (o : ObjectId) (key : String) : Act σ Bool :=
  return (← host.getProperty o key).isSome

def callObject (f : ObjectId) (this : Value) (args : List Value) : Act σ Value := do
  match (← object f).callable? with
  | some c => host.invoke c this args
  | none => throw (.typeError (.notCallable (.object f)))

theorem callObject_of_callable {f : ObjectId} {c : Callable} {w : World σ}
    (hc : (w.heap.object f).callable? = some c) (this : Value) (args : List Value) :
    host.callObject f this args w = host.invoke c this args w := by
  rw [callObject, object_bind, hc]

theorem callObject_of_uncallable {f : ObjectId} {w : World σ}
    (hc : (w.heap.object f).callable? = none) (this : Value) (args : List Value) :
    host.callObject f this args w = .error (.typeError (.notCallable (.object f))) w := by
  rw [callObject, object_bind, hc]
  rfl

def call (f this : Value) (args : List Value) : Act σ Value :=
  match f with
  | .object o => host.callObject o this args
  | _ => throw (.typeError (.notCallable f))

/-- Reads a property that was found. A getter is called with the receiver. -/
def read (p : Option Property) (receiver : Value) : Act σ Value :=
  match p with
  | none => return .undefined
  | some p =>
    match p.slot with
    | .data value _ => return value
    | .accessor none _ => return .undefined
    | .accessor (some getter) _ => host.callObject getter receiver []

def get (o : ObjectId) (key : String) : Act σ Value := do
  host.read (← host.getProperty o key) (.object o)

/-- Reads a property of any value. The lookup goes through a wrapper, but a getter receives the
value itself. -/
def getV (v : Value) (key : String) : Act σ Value := do
  let o ← toObject v
  host.read (← host.getProperty o key) v

/-- Reads a method: something callable, or `undefined` if there is none. -/
def getMethod (v : Value) (key : String) : Act σ Value := do
  let f ← host.getV v key
  if f.isUndefined || f.isNull then return .undefined
  else if (← heap).isCallable f then return f
  else throw (.typeError (.notMethod key))

def canPut (o : ObjectId) (key : String) : Act σ Bool := do
  ofChain key ((← heap).canPut host.limit o key)

/-- Hands a value to the setter of an accessor, if it has one. -/
def write (setter : Option ObjectId) (receiver v : Value) : Act σ Unit :=
  match setter with
  | some s => discard (host.callObject s receiver [v])
  | none => return ()

/-- Assigns to a property. An own value is replaced; a setter, own or inherited, is called; anything
else makes a new own property. -/
def put (o : ObjectId) (key : String) (v : Value) (strict : Bool) : Act σ Unit := do
  if ← host.canPut o key then
    match (← object o).ownProperty? key with
    | some ⟨.data .., _, _⟩ => discard (define o key { value := v } strict)
    | _ =>
      match ← host.getProperty o key with
      | some ⟨.accessor _ setter, _, _⟩ => host.write setter (.object o) v
      | _ => discard (define o key (.data v true true true) strict)
  else if strict then throw (.typeError (.readOnly key))
  else return ()

end Host
end EcmaCore
