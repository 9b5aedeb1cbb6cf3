import EcmaCore.Number.Binary64
import EcmaCore.Property.Revision
import EcmaCore.Table
import EcmaCore.Text.Index

/-!
# Objects

An object is a table of properties, a link to its prototype, a flag that lets it grow, and for some
kinds a wrapped value or a function. The operations here see one object and never its prototypes.

A wrapper of a text shows each code unit as a property under the decimal text of its place. Those
properties are computed; a definition that is accepted on one of them stores a copy in the table,
which from then on stands in front of the computed one.
-/
namespace EcmaCore

/-- A function of the engine: a name for people, and what the engine knows it by. -/
structure Callable where
  name : String
  code : Nat
  deriving DecidableEq, Repr

inductive ObjectKind where
  | ordinary
  | boolean (b : Bool)
  | number (x : Binary64)
  | string (t : Text)
  | function (f : Callable)
  deriving DecidableEq, Repr

structure Object where
  kind : ObjectKind
  properties : Table Property
  prototype : Option ObjectId
  extensible : Bool
  deriving DecidableEq

/-- Why a definition changes nothing. -/
inductive DefinitionFault where
  /-- The descriptor speaks of a value and of functions at once. -/
  | mixed
  | refused (reason : Refusal)
  deriving DecidableEq, Repr

namespace Object

def ordinary (prototype : Option ObjectId) : Object := ⟨.ordinary, .empty, prototype, true⟩

instance : Inhabited Object := ⟨ordinary none⟩

def ofBoolean (b : Bool) (prototype : Option ObjectId) : Object :=
  ⟨.boolean b, .empty, prototype, true⟩

def ofNumber (x : Binary64) (prototype : Option ObjectId) : Object :=
  ⟨.number x, .empty, prototype, true⟩

/-- A code unit of a text, which can be listed but not changed. -/
def unitProperty (u : UInt16) : Property := .data (.string (.ofUnit u)) false true false

/-- The number of code units of a text, fixed for good. -/
def lengthProperty (t : Text) : Property := .data (.number (.ofNat t.length)) false false false

def ofText (t : Text) (prototype : Option ObjectId) : Object :=
  ⟨.string t, Table.empty.insert "length" (lengthProperty t), prototype, true⟩

def ofCallable (f : Callable) (prototype : Option ObjectId) : Object :=
  ⟨.function f, .empty, prototype, true⟩

def className (o : Object) : String :=
  match o.kind with
  | .function _ => "Function"
  | _ => "Object"

/-- The wrapped value. -/
def primitive? (o : Object) : Option Value :=
  match o.kind with
  | .boolean b => some (.boolean b)
  | .number x => some (.number x)
  | .string t => some (.string t)
  | .ordinary | .function _ => none

def callable? (o : Object) : Option Callable :=
  match o.kind with
  | .function f => some f
  | _ => none

def isCallable (o : Object) : Bool := o.callable?.isSome

/-- One code unit of a wrapped text, under the decimal text of its place. -/
def unitProperty? (o : Object) (key : String) : Option Property :=
  match o.kind with
  | .string t => (indexOfKey? key).bind fun i =>
    (t.unitAt? i).map unitProperty
  | _ => none

def ownProperty? (o : Object) (key : String) : Option Property :=
  match o.properties.find? key with
  | some p => some p
  | none => o.unitProperty? key

def hasOwn (o : Object) (key : String) : Bool := (o.ownProperty? key).isSome

/-- The places of a wrapped text. -/
def unitKeys (o : Object) : List String :=
  match o.kind with
  | .string t => (List.range t.length).map Nat.repr
  | _ => []

/-- The keys of the own properties: the places of a wrapped text, then the table's other keys in
order of creation. -/
def ownKeys (o : Object) : List String :=
  o.unitKeys ++ o.properties.keys.filter fun key => (o.unitProperty? key).isNone

def store (o : Object) (key : String) (p : Property) : Object :=
  { o with properties := o.properties.insert key p }

def erase (o : Object) (key : String) : Object := { o with properties := o.properties.erase key }

def preventExtensions (o : Object) : Object := { o with extensible := false }

@[simp] theorem kind_store (o : Object) (key : String) (p : Property) :
    (o.store key p).kind = o.kind := rfl
@[simp] theorem prototype_store (o : Object) (key : String) (p : Property) :
    (o.store key p).prototype = o.prototype := rfl
@[simp] theorem extensible_store (o : Object) (key : String) (p : Property) :
    (o.store key p).extensible = o.extensible := rfl
@[simp] theorem kind_erase (o : Object) (key : String) : (o.erase key).kind = o.kind := rfl
@[simp] theorem prototype_erase (o : Object) (key : String) :
    (o.erase key).prototype = o.prototype := rfl
@[simp] theorem extensible_erase (o : Object) (key : String) :
    (o.erase key).extensible = o.extensible := rfl

/-- The computed properties come from the kind alone. -/
theorem unitProperty?_congr {o x : Object} (h : x.kind = o.kind) (key : String) :
    x.unitProperty? key = o.unitProperty? key := by
  simp only [unitProperty?, h]

/-- A text that fits into memory has no places past those that a word can hold. -/
theorem unitProperty?_eq_word {o : Object} {t : Text} (h : o.kind = .string t)
    (ht : t.length ≤ UInt64.size) (key : String) :
    o.unitProperty? key = (wordOfKey? key).bind fun i => (t.unitAt? i.toNat).map unitProperty := by
  simp only [unitProperty?, h, wordOfKey?, Option.bind_assoc]
  apply Option.bind_congr
  intro n _
  by_cases hn : n < UInt64.size
  · rw [if_pos hn, Option.bind_some, UInt64.toNat_ofNat_of_lt' hn]
  · have hunit : t.unitAt? n = none :=
      List.getElem?_eq_none (Nat.le_trans ht (Nat.not_lt.mp hn))
    rw [if_neg hn, hunit]
    rfl

@[simp] theorem ownProperty?_store_same (o : Object) (key : String) (p : Property) :
    (o.store key p).ownProperty? key = some p := by
  simp [ownProperty?, store]

@[simp] theorem store_store (o : Object) (key : String) (p q : Property) :
    (o.store key p).store key q = o.store key q := by
  simp [store]

theorem ownProperty?_store_other (o : Object) {key k : String} (p : Property) (h : k ≠ key) :
    (o.store key p).ownProperty? k = o.ownProperty? k := by
  simp only [ownProperty?, store, Table.find?_insert_other o.properties p h]
  rfl

theorem ownProperty?_erase_other (o : Object) {key k : String} (h : k ≠ key) :
    (o.erase key).ownProperty? k = o.ownProperty? k := by
  simp only [ownProperty?, erase, Table.find?_erase_other o.properties h]
  rfl

/-- Defines a property. A descriptor that asks for nothing new is accepted and changes nothing. -/
def define (o : Object) (key : String) (d : Descriptor) : Except DefinitionFault Object :=
  if d.isMixed then .error .mixed
  else match o.ownProperty? key with
    | none => if o.extensible then .ok (o.store key d.toProperty) else .error (.refused .notExtensible)
    | some p =>
      if d.isEmpty || (Descriptor.ofProperty p).same d then .ok o
      else match p.refusal? d with
        | some reason => .error (.refused reason)
        | none => .ok (o.store key (p.revise d))

/-- Deletes a property, if it is absent or configurable. -/
def delete? (o : Object) (key : String) : Option Object :=
  match o.ownProperty? key with
  | none => some o
  | some p => if p.configurable then some (o.erase key) else none

end Object
end EcmaCore
