import EcmaCore.Property.Revision

/-!
# Faults

How an operation fails: by a type error or a reference error of its own, each with its cause, or by
a value that a callable throws. The wording is in `EcmaCore.Display`.
-/
namespace EcmaCore

inductive TypeErrorCause where
  | mixedDescriptor (key : String)
  | refusedDefinition (key : String) (reason : Refusal)
  | cyclicChain (key : String)
  | deepChain (key : String)
  | notCallable (v : Value)
  | notMethod (key : String)
  | readOnly (key : String)
  | undeletable (key : String)
  | noPrimitive
  | noDescription (v : Value)
  | getterNotCallable (v : Value)
  | setterNotCallable (v : Value)
  | mixedDescription
  | noWrapper (v : Value)
  | notCoercible (v : Value)
  | constant (name : String)
  | primitiveProperty (key : String)
  /-- Raised by the engine in its own words. -/
  | raised (message : String)
  deriving DecidableEq, Repr

inductive ReferenceErrorCause where
  | undefined (name : String)
  | uninitialised (name : String)
  | notAssignable (v : Value)
  /-- Raised by the engine in its own words. -/
  | raised (message : String)
  deriving DecidableEq, Repr

inductive Fault where
  | typeError (cause : TypeErrorCause)
  | referenceError (cause : ReferenceErrorCause)
  | thrown (v : Value)
  deriving DecidableEq, Repr

namespace Fault

instance : Inhabited Fault := ⟨thrown .undefined⟩

def isTypeError : Fault → Bool
  | typeError _ => true
  | _ => false

def isReferenceError : Fault → Bool
  | referenceError _ => true
  | _ => false

end Fault
end EcmaCore
