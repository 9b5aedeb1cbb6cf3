import EcmaCore.Value

/-!
# Realms

The intrinsic objects that new objects are linked to. Until one is installed the objects of its kind
have no prototype.
-/
namespace EcmaCore

inductive Intrinsic where
  | objectPrototype
  | booleanPrototype
  | numberPrototype
  | stringPrototype
  deriving DecidableEq, Repr

structure Realm where
  objectPrototype : Option ObjectId := none
  booleanPrototype : Option ObjectId := none
  numberPrototype : Option ObjectId := none
  stringPrototype : Option ObjectId := none
  deriving DecidableEq, Repr

namespace Realm

def empty : Realm := {}

instance : Inhabited Realm := ⟨empty⟩

def get? (r : Realm) : Intrinsic → Option ObjectId
  | .objectPrototype => r.objectPrototype
  | .booleanPrototype => r.booleanPrototype
  | .numberPrototype => r.numberPrototype
  | .stringPrototype => r.stringPrototype

def set (r : Realm) (i : Intrinsic) (o : Option ObjectId) : Realm :=
  match i with
  | .objectPrototype => { r with objectPrototype := o }
  | .booleanPrototype => { r with booleanPrototype := o }
  | .numberPrototype => { r with numberPrototype := o }
  | .stringPrototype => { r with stringPrototype := o }

@[simp] theorem get?_set_same (r : Realm) (i : Intrinsic) (o : Option ObjectId) :
    (r.set i o).get? i = o := by
  cases i <;> rfl

theorem get?_set_other (r : Realm) {i j : Intrinsic} (o : Option ObjectId) (h : j ≠ i) :
    (r.set i o).get? j = r.get? j := by
  cases i <;> cases j <;> simp_all [set, get?]

end Realm
end EcmaCore
