import EcmaCore.Value

/-!
# Properties and descriptors

A property is what an object stores under a key: a value, or a pair of functions, and two flags. A
descriptor is a request about a property and may leave any field open; an open field is not the
same as one that is `false` or `undefined`.
-/
namespace EcmaCore

/-- The part of a property that is a value or a pair of functions. -/
inductive Slot where
  | data (value : Value) (writable : Bool)
  | accessor (getter setter : Option ObjectId)
  deriving DecidableEq, Repr

structure Property where
  slot : Slot
  enumerable : Bool
  configurable : Bool
  deriving DecidableEq, Repr

structure Descriptor where
  value : Option Value := none
  writable : Option Bool := none
  getter : Option Value := none
  setter : Option Value := none
  enumerable : Option Bool := none
  configurable : Option Bool := none
  deriving DecidableEq, Repr

def Slot.isData : Slot → Bool
  | data .. => true
  | accessor .. => false

namespace Property

def data (value : Value) (writable enumerable configurable : Bool) : Property :=
  ⟨.data value writable, enumerable, configurable⟩

def accessor (getter setter : Option ObjectId) (enumerable configurable : Bool) : Property :=
  ⟨.accessor getter setter, enumerable, configurable⟩

def isData (p : Property) : Bool := p.slot.isData

def isAccessor (p : Property) : Bool := !p.slot.isData

end Property

namespace Descriptor

/-- Says nothing. -/
def empty : Descriptor := {}

instance : Inhabited Descriptor := ⟨empty⟩

def data (value : Value) (writable enumerable configurable : Bool) : Descriptor where
  value := value
  writable := writable
  enumerable := enumerable
  configurable := configurable

def accessor (getter setter : Option ObjectId) (enumerable configurable : Bool) : Descriptor where
  getter := Value.ofSlot getter
  setter := Value.ofSlot setter
  enumerable := enumerable
  configurable := configurable

/-- All fields of a property. -/
def ofProperty (p : Property) : Descriptor :=
  match p.slot with
  | .data value writable => data value writable p.enumerable p.configurable
  | .accessor getter setter => accessor getter setter p.enumerable p.configurable

def isData (d : Descriptor) : Bool := d.value.isSome || d.writable.isSome

def isAccessor (d : Descriptor) : Bool := d.getter.isSome || d.setter.isSome

/-- Speaks of the flags at most. -/
def isGeneric (d : Descriptor) : Bool := !d.isData && !d.isAccessor

/-- Speaks of a value and of functions at once, which no property can have. -/
def isMixed (d : Descriptor) : Bool := d.isData && d.isAccessor

def isEmpty (d : Descriptor) : Bool := d.isGeneric && d.enumerable.isNone && d.configurable.isNone

/-- Identity of optional values: both absent, or both present and the same. -/
def sameField : Option Value → Option Value → Bool
  | none, none => true
  | some x, some y => x.sameValue y
  | _, _ => false

/-- The same fields are present, and with the same contents. -/
def same (d e : Descriptor) : Bool :=
  sameField d.value e.value && d.writable == e.writable && sameField d.getter e.getter &&
    sameField d.setter e.setter && d.enumerable == e.enumerable && d.configurable == e.configurable

@[simp] theorem sameField_iff (a b : Option Value) : sameField a b = true ↔ a = b := by
  cases a <;> cases b <;> simp [sameField]

@[simp] theorem same_iff (d e : Descriptor) : d.same e = true ↔ d = e := by
  cases d; cases e
  simp [same, and_assoc]

/-- The function in an accessor field. Whatever is not an object means that there is none. -/
def function? (field : Option Value) : Option ObjectId := field.bind Value.asObject?

/-- The property that a descriptor creates: what it leaves open is `undefined`, absent or `false`,
and one that speaks of no function makes a data property. -/
def toProperty (d : Descriptor) : Property where
  slot :=
    if d.isAccessor then .accessor (function? d.getter) (function? d.setter)
    else .data (d.value.getD .undefined) (d.writable.getD false)
  enumerable := d.enumerable.getD false
  configurable := d.configurable.getD false

/-- A complete description creates the property it was taken from. -/
@[simp] theorem toProperty_ofProperty (p : Property) : (ofProperty p).toProperty = p := by
  obtain ⟨slot, _, _⟩ := p
  cases slot <;> simp [ofProperty, toProperty, data, accessor, isAccessor, function?]

end Descriptor
end EcmaCore
