import EcmaCore.Fault
import EcmaCore.Heap
import EcmaCore.Number.Layout
import EcmaCore.Reference
import EcmaCore.Text.Printable

/-!
# Texts for people

The texts of values, objects, references and faults. The display form is for messages, the debug
form shows what is inside. An object is shown by its kind, which never changes, so a fault reads the
same whenever it is shown. Numbers in messages are written by the formatter that conversions use.
-/
namespace EcmaCore

/-- The reason of a refusal in words. -/
def Refusal.reason : Refusal → String
  | notExtensible => "object is not extensible"
  | configurable => "property is not configurable"
  | enumerable => "cannot change enumerability of a non-configurable property"
  | kind => "cannot change a non-configurable property between data and accessor"
  | writable => "property is not writable"
  | value => "cannot change value of a read-only property"
  | setter => "cannot change setter of a non-configurable property"
  | getter => "cannot change getter of a non-configurable property"

namespace Object

def display (o : Object) : String :=
  match o.kind with
  | .function f => s!"function {f.name}()"
  | _ => s!"[object {o.className}]"

/-- Shows the class, the keys of the table and whether the object can grow. -/
def debug (o : Object) : String :=
  "ObjectType \x7b class: " ++ quote o.className ++
    ", keys: [" ++ ", ".intercalate (o.properties.keys.map quote) ++
    "], extensible: " ++ toString o.extensible ++ " \x7d"

end Object

/-- Shows a value by its kind; of an object nothing else. -/
def Value.debug : Value → String
  | undefined => "JsValue::Undefined"
  | null => "JsValue::Null"
  | boolean b => s!"JsValue::Boolean({b})"
  | number x => s!"JsValue::Number({x.debugText})"
  | string t => s!"JsValue::String({quote t.toString})"
  | object _ => "JsValue::Object(...)"

namespace Heap

def display (h : Heap) (v : Value) (format : Formatter := .shortest) : String :=
  match v with
  | .undefined => "undefined"
  | .null => "null"
  | .boolean b => s!"bool({b})"
  | .number x => x.toText format
  | .string t => "\"" ++ t.toString ++ "\""
  | .object o => (h.object o).display

def debugBase (h : Heap) : Base → String
  | .object o => s!"Object({h.display (.object o)})"
  | .primitive v => s!"Primitive({v.debug})"
  | .scope _ => "Environment"
  | .unresolvable => "Unresolvable"

def debugResolution (h : Heap) : Resolution → String
  | .value v => s!"Value({v.debug})"
  | .reference r =>
    "Reference(Reference \x7b base: " ++ h.debugBase r.base ++ ", referenced_name: " ++
      quote r.name ++ ", strict: " ++ toString r.strict ++ " \x7d)"

def typeErrorText (h : Heap) (cause : TypeErrorCause) (format : Formatter := .shortest) : String :=
  match cause with
  | .mixedDescriptor key => s!"Invalid descriptor for '{key}': cannot both specify accessors and a value or writable attribute"
  | .refusedDefinition key reason => s!"Cannot define property '{key}': {reason.reason}"
  | .cyclicChain key => s!"Cyclic prototype chain while looking up '{key}'"
  | .deepChain key => s!"Prototype chain too deep while looking up '{key}'"
  | .notCallable v => s!"{h.display v format} is not a function"
  | .notMethod key => s!"'{key}' is not a function"
  | .readOnly key => s!"Cannot assign to read only property '{key}'"
  | .undeletable key => s!"Cannot delete property '{key}'"
  | .noPrimitive => "Cannot convert object to primitive value"
  | .noDescription v => s!"Property description must be an object: {h.display v format}"
  | .getterNotCallable v => s!"Getter must be a function: {h.display v format}"
  | .setterNotCallable v => s!"Setter must be a function: {h.display v format}"
  | .mixedDescription => "Invalid property descriptor. Cannot both specify accessors and a value or writable attribute"
  | .noWrapper v => s!"'{h.display v format}' cannot be converted to object"
  | .notCoercible v => s!"'{h.display v format}' is not object coercible"
  | .constant name => s!"Assignment to constant variable '{name}'"
  | .primitiveProperty key => s!"Cannot create property '{key}' on primitive value"
  | .raised message => message

def referenceErrorText (h : Heap) (cause : ReferenceErrorCause)
    (format : Formatter := .shortest) : String :=
  match cause with
  | .undefined name => s!"'{name}' is not defined"
  | .uninitialised name => s!"'{name}' is not initialized"
  | .notAssignable v => s!"Invalid assignment target '{h.display v format}'"
  | .raised message => message

/-- The whole text of a fault. -/
def faultText (h : Heap) (e : Fault) (format : Formatter := .shortest) : String :=
  match e with
  | .typeError cause => s!"Uncaught type error: {h.typeErrorText cause format}."
  | .referenceError cause => s!"Uncaught reference error: {h.referenceErrorText cause format}."
  | .thrown v => s!"Uncaught exception: {h.display v format}."

/-- Equality of faults as the engine sees it: the same kind and text, or thrown values that it takes
for equal. -/
def sameFault (h : Heap) (e f : Fault) (format : Formatter := .shortest) : Bool :=
  match e, f with
  | .typeError c, .typeError d => h.typeErrorText c format == h.typeErrorText d format
  | .referenceError c, .referenceError d =>
    h.referenceErrorText c format == h.referenceErrorText d format
  | .thrown x, .thrown y => x.hostEquals y
  | _, _ => false

end Heap
end EcmaCore
