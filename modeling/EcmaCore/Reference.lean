import EcmaCore.Access

/-!
# References

A reference is a name that was resolved but not yet read or written: a base to look in, the name,
and whether the code is strict. Reading and writing follow the base.
-/
namespace EcmaCore

/-- Where a name is looked for. -/
inductive Base where
  | object (o : ObjectId)
  | primitive (v : Value)
  | scope (s : ScopeId)
  | unresolvable
  deriving DecidableEq, Repr

structure Reference where
  base : Base
  name : String
  strict : Bool
  deriving DecidableEq, Repr

/-- What resolving a name or a member gives: a reference, or just a value. -/
inductive Resolution where
  | reference (r : Reference)
  | value (v : Value)
  deriving DecidableEq, Repr

/-- The base of a member access. Values that cannot be wrapped make it unresolvable. -/
def Base.ofValue : Value → Base
  | .object o => object o
  | .undefined | .null => unresolvable
  | v => primitive v

namespace Reference

def ofMember (base : Value) (name : String) (strict : Bool) : Reference :=
  ⟨.ofValue base, name, strict⟩

def hasPrimitiveBase (r : Reference) : Bool :=
  match r.base with
  | .primitive _ => true
  | _ => false

def isProperty (r : Reference) : Bool :=
  match r.base with
  | .object _ | .primitive _ => true
  | _ => false

def isUnresolvable (r : Reference) : Bool := r.base == .unresolvable

end Reference

namespace Host
open Act
variable {σ : Type} (host : Host σ)

/-- Reads through a reference. -/
def getValue (r : Resolution) : Act σ Value := do
  match r with
  | .value v => return v
  | .reference r =>
    match r.base with
    | .unresolvable => throw (.referenceError (.undefined r.name))
    | .primitive v => host.getV v r.name
    | .object o => host.get o r.name
    | .scope s => ofExcept ((← scope s).get r.name r.strict)

/-- An assignment to a primitive has nowhere to go. -/
def refusePrimitivePut (key : String) (strict : Bool) : Act σ Unit :=
  if strict then throw (.typeError (.primitiveProperty key)) else return ()

/-- Assigns to a property of a primitive. The wrapper is dropped afterwards, so only a setter on its
chain has an effect; it receives the primitive itself. -/
def putOnPrimitive (base : Value) (key : String) (v : Value) (strict : Bool) : Act σ Unit := do
  let o ← toObject base
  if ← host.canPut o key then
    match (← object o).ownProperty? key with
    | some ⟨.data .., _, _⟩ => refusePrimitivePut key strict
    | _ =>
      match ← host.getProperty o key with
      | some ⟨.accessor _ setter, _, _⟩ => host.write setter base v
      | _ => refusePrimitivePut key strict
  else refusePrimitivePut key strict

/-- Writes through a reference. A name that cannot be resolved is written to the global object by
code that is not strict, where there is one. -/
def putValue (r : Resolution) (v : Value) (global : Option ObjectId) : Act σ Unit := do
  match r with
  | .value target => throw (.referenceError (.notAssignable target))
  | .reference r =>
    match r.base with
    | .unresolvable =>
      match global, r.strict with
      | some g, false => host.put g r.name v false
      | _, _ => throw (.referenceError (.undefined r.name))
    | .primitive base => host.putOnPrimitive base r.name v r.strict
    | .object o => host.put o r.name v r.strict
    | .scope s => setScope s (← ofExcept ((← scope s).set r.name v r.strict))

end Host
end EcmaCore
