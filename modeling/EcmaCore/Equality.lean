import EcmaCore.Conversion

/-!
# The operator `==`

Booleans count as their numbers, a number and a text compare as numbers, undefined and null are
alike, and otherwise the rule is that of `===`. An object meets a boolean, a number or a text through
its primitive value.
-/
namespace EcmaCore

namespace Value

/-- The number of a boolean; other values as they are. -/
def numberOfBoolean : Value → Value
  | boolean b => number (.ofBool b)
  | v => v

/-- The operator `==` on values that are not booleans, without converting objects. -/
def looseEqualsPlain : Value → Value → Bool
  | undefined, null => true
  | null, undefined => true
  | number x, string t => x.equals t.toNumber
  | string t, number y => t.toNumber.equals y
  | x, y => x.strictEquals y

/-- The operator `==` without converting objects. -/
def looseEquals (x y : Value) : Bool := looseEqualsPlain x.numberOfBoolean y.numberOfBoolean

end Value

/-- The operator `==`. -/
def Host.looseEquals {σ : Type} (host : Host σ) (x y : Value) : Act σ Bool :=
  match x, y with
  | .object o, .object p => return o == p
  | .object o, y =>
    if y.isBoxable then do return (← host.defaultValue o .default).looseEquals y else return false
  | x, .object p =>
    if x.isBoxable then do return x.looseEquals (← host.defaultValue p .default) else return false
  | x, y => return x.looseEquals y

section
variable {σ : Type} (host : Host σ) {x y : Value} (o : ObjectId)

theorem Host.looseEquals_object_left (hy : y.isObject = false) :
    host.looseEquals (.object o) y =
      if y.isBoxable then do return (← host.defaultValue o .default).looseEquals y
      else return false := by
  cases y with
  | object p => cases hy
  | _ => rfl

theorem Host.looseEquals_object_right (hx : x.isObject = false) :
    host.looseEquals x (.object o) =
      if x.isBoxable then do return x.looseEquals (← host.defaultValue o .default)
      else return false := by
  cases x with
  | object p => cases hx
  | _ => rfl

/-- Without an object nothing is converted by the host. -/
theorem Host.looseEquals_plain (hx : x.isObject = false) (hy : y.isObject = false) :
    host.looseEquals x y = return x.looseEquals y := by
  cases x with
  | object p => cases hx
  | _ =>
    cases y with
    | object p => cases hy
    | _ => rfl

end

end EcmaCore
