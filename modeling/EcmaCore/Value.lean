import EcmaCore.Number.Binary64
import EcmaCore.Text

/-!
# Values

The six kinds of values of the language. An object is a value only by its identity; what it holds
is in the heap.
-/
namespace EcmaCore

/-- The identity of an object: its place in the heap. -/
structure ObjectId where
  index : Nat
  deriving DecidableEq, Repr, Hashable

inductive Value where
  | undefined
  | null
  | boolean (b : Bool)
  | number (x : Binary64)
  | string (t : Text)
  | object (o : ObjectId)
  deriving DecidableEq, Repr

namespace Value

instance : Inhabited Value := ⟨undefined⟩

def ofString (s : String) : Value := string (.ofString s)

def isUndefined : Value → Bool
  | undefined => true
  | _ => false

def isNull : Value → Bool
  | null => true
  | _ => false

def isObject : Value → Bool
  | object _ => true
  | _ => false

theorem isObject_iff {v : Value} : v.isObject = true ↔ ∃ o, v = object o := by
  cases v <;> simp [isObject]

/-- The kinds that have a wrapper object. -/
def isBoxable : Value → Bool
  | boolean _ | number _ | string _ => true
  | _ => false

def asObject? : Value → Option ObjectId
  | object o => some o
  | _ => none

/-- The object in a slot for a function, with `undefined` for an empty slot. -/
def ofSlot : Option ObjectId → Value
  | some o => object o
  | none => undefined

@[simp] theorem asObject?_ofSlot (slot : Option ObjectId) : (ofSlot slot).asObject? = slot := by
  cases slot <;> rfl

/-- Agreement of kind and content, numbers by a relation of their own. -/
def agree (numbers : Binary64 → Binary64 → Bool) : Value → Value → Bool
  | undefined, undefined => true
  | null, null => true
  | boolean a, boolean b => a == b
  | number x, number y => numbers x y
  | string s, string t => s == t
  | object o, object p => o == p
  | _, _ => false

/-- Identity of values: `nan` is itself, and the two zeros differ. -/
def sameValue : Value → Value → Bool := agree Binary64.same

/-- The operator `===`: `nan` differs from itself, and the two zeros are equal. -/
def strictEquals : Value → Value → Bool := agree Binary64.equals

/-- Equality as the engine sees it: the standard's for numbers, identity for all else. -/
def hostEquals : Value → Value → Bool
  | number x, number y => x.equals y
  | x, y => x == y

/-- Identity is equality of values, since each number has one form. -/
@[simp] theorem sameValue_iff (x y : Value) : sameValue x y = true ↔ x = y := by
  cases x <;> cases y <;> simp [sameValue, agree]

end Value
end EcmaCore
