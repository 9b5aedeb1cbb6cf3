import EcmaCore.Access
import EcmaCore.Number.Arithmetic
import EcmaCore.Number.Layout
import EcmaCore.Number.Numeral

/-!
# Conversions

From values to booleans, numbers and texts. For the primitive kinds these are functions of the
value. An object is first turned into a primitive by its methods `valueOf` and `toString`, in an
order that a hint decides, and that never yields an object.
-/
namespace EcmaCore

/-- What a conversion of an object is for. -/
inductive Hint where
  | default
  | string
  | number
  deriving DecidableEq, Repr

/-- The methods that turn an object into a primitive, in the order of trial. -/
def Hint.methods : Hint → List String
  | string => ["toString", "valueOf"]
  | default | number => ["valueOf", "toString"]

namespace Value

def toBoolean : Value → Bool
  | undefined | null => false
  | boolean b => b
  | number x => !x.isNaN && !x.isZero
  | string t => !t.isEmpty
  | object _ => true

/-- What counts as false: undefined, null, `false`, what is not a number, both zeros, and the text
without units. -/
theorem toBoolean_eq_false_iff {v : Value} : v.toBoolean = false ↔
    v = undefined ∨ v = null ∨ v = boolean false ∨ v = number .nan ∨
      (∃ s, v = number (.finite s .zero)) ∨ v = string .empty := by
  cases v with
  | number x =>
    have hnan : x.isNaN = true ↔ x = .nan := by cases x <;> simp [Binary64.isNaN]
    simp only [toBoolean, Bool.and_eq_false_iff, Bool.not_eq_false', hnan, Binary64.isZero_iff,
      reduceCtorEq, number.injEq, false_or, or_false]
  | string t =>
    obtain ⟨us⟩ := t
    cases us <;> simp [toBoolean, Text.isEmpty, Text.empty]
  | _ => simp [toBoolean]

/-- The number of a primitive value. An object has none of its own. -/
def toNumber : Value → Binary64
  | undefined => .nan
  | null => .zero
  | boolean b => .ofBool b
  | number x => x
  | string t => t.toNumber
  | object _ => .nan

/-- The text of a primitive value. An object has none of its own. -/
def toText (v : Value) (format : Formatter := .shortest) : Text :=
  match v with
  | undefined => .ofString "undefined"
  | null => .ofString "null"
  | boolean b => .ofString (if b then "true" else "false")
  | number x => .ofString (x.toText format)
  | string t => t
  | object _ => .empty

/-- Whether a value can be the base of a property access. -/
def isCoercible : Value → Bool
  | undefined | null => false
  | _ => true

theorem coercible_of_boxable {v : Value} (h : v.isBoxable = true) :
    v.isObject = false ∧ v.isCoercible = true := by
  cases v with
  | undefined | null | object o => cases h
  | _ => exact ⟨rfl, rfl⟩

end Value

namespace Heap

/-- The kind of a value in words. -/
def typeName (h : Heap) : Value → String
  | .undefined => "undefined"
  | .null => "null"
  | .boolean _ => "boolean"
  | .string _ => "string"
  | .number _ => "number"
  | .object o => if (h.object o).isCallable then "function" else "object"

/-- The result of the operator `typeof`, which takes null for an object. -/
def typeOf (h : Heap) (v : Value) : String := if v.isNull then "object" else h.typeName v

end Heap

def Act.checkCoercible {σ : Type} (v : Value) : Act σ Unit :=
  if v.isCoercible then return () else throw (.typeError (.notCoercible v))

namespace Host
open Act
variable {σ : Type} (host : Host σ)

/-- Calls one method after the other until one gives a primitive. What is not callable is passed
over. -/
def tryMethods (o : ObjectId) : List String → Act σ Value
  | [] => throw (.typeError .noPrimitive)
  | key :: rest => do
    let f ← host.get o key
    if (← heap).isCallable f then
      let result ← host.call f (.object o) []
      if result.isObject then tryMethods o rest else return result
    else tryMethods o rest

def defaultValue (o : ObjectId) (hint : Hint) : Act σ Value := host.tryMethods o hint.methods

def toPrimitive (v : Value) (hint : Hint) : Act σ Value :=
  match v with
  | .object o => host.defaultValue o hint
  | v => return v

def toNumber (v : Value) : Act σ Binary64 := return (← host.toPrimitive v .number).toNumber

def toIntegral (v : Value) : Act σ Binary64 := return (← host.toNumber v).toIntegral

def toInt32 (v : Value) : Act σ Int32 := return (← host.toNumber v).toInt32

def toUInt32 (v : Value) : Act σ UInt32 := return (← host.toNumber v).toUInt32

def toUInt16 (v : Value) : Act σ UInt16 := return (← host.toNumber v).toUInt16

def toText (v : Value) (format : Formatter := .shortest) : Act σ Text :=
  return (← host.toPrimitive v .string).toText format

end Host
end EcmaCore
