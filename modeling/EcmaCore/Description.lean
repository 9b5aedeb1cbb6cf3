import EcmaCore.Conversion

/-!
# Properties described by objects

A property shown as an ordinary object with a field for each of its parts, and a descriptor read
from such an object. Only own fields count, and each is judged in the heap that the reads before it
left behind.
-/
namespace EcmaCore

/-- The fields that describe a property, in order. -/
def Property.fields (p : Property) : List (String × Value) :=
  (match p.slot with
    | .data value writable => [("value", value), ("writable", .boolean writable)]
    | .accessor getter setter => [("get", .ofSlot getter), ("set", .ofSlot setter)]) ++
  [("enumerable", .boolean p.enumerable), ("configurable", .boolean p.configurable)]

theorem Property.nodup_fields (p : Property) : (p.fields.map (·.1)).Nodup := by
  obtain ⟨slot, e, c⟩ := p
  cases slot <;> simp [fields]

/-- An ordinary object with the fields of a property, each free to be changed. -/
def Property.toObject (p : Property) (prototype : Option ObjectId) : Object :=
  p.fields.foldl (fun o field => o.store field.1 (.data field.2 true true true))
    (.ordinary prototype)

namespace Act
variable {σ : Type}

/-- Describes a property by a new object; an absent one is undefined. -/
def describe (p : Option Property) : Act σ Value := do
  match p with
  | none => return .undefined
  | some p => return .object (← create (p.toObject (← intrinsic? .objectPrototype)))

end Act

namespace Host
open Act
variable {σ : Type} (host : Host σ)

/-- Reads a field, if it is an own property now. -/
def readField (o : ObjectId) (key : String) : Act σ (Option Value) := do
  if (← object o).hasOwn key then return some (← host.get o key) else return none

/-- Reads a field as a flag. -/
def readFlag (o : ObjectId) (key : String) : Act σ (Option Bool) :=
  return (← host.readField o key).map Value.toBoolean

/-- Reads a field for a function, which may also be undefined. -/
def readFunction (o : ObjectId) (key : String) (cause : Value → TypeErrorCause) :
    Act σ (Option Value) := do
  match ← host.readField o key with
  | none => return none
  | some f =>
    if f.isUndefined || (← heap).isCallable f then return some f else throw (.typeError (cause f))

/-- Reads a descriptor from an object that describes a property. -/
def toDescriptor (v : Value) : Act σ Descriptor := do
  match v with
  | .object o =>
    let enumerable ← host.readFlag o "enumerable"
    let configurable ← host.readFlag o "configurable"
    let value ← host.readField o "value"
    let writable ← host.readFlag o "writable"
    let getter ← host.readFunction o "get" .getterNotCallable
    let setter ← host.readFunction o "set" .setterNotCallable
    let d : Descriptor := ⟨value, writable, getter, setter, enumerable, configurable⟩
    if d.isMixed then throw (.typeError .mixedDescription) else return d
  | _ => throw (.typeError (.noDescription v))

end Host
end EcmaCore
