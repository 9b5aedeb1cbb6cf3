import EcmaCore.Fault
import EcmaCore.Table

/-!
# Scopes

A scope binds names to values. A binding is created without a value and then initialised; strict
code may not read it before. A constant takes no value but its first, and only a binding created as
deletable can go away.
-/
namespace EcmaCore

/-- What may become of a binding. -/
inductive BindingKind where
  | deletable
  | permanent
  | constant
  deriving DecidableEq, Repr

structure Binding where
  kind : BindingKind
  value : Option Value
  deriving DecidableEq, Repr

structure Scope where
  bindings : Table Binding
  deriving DecidableEq, Repr

namespace Scope

def empty : Scope := ⟨.empty⟩

instance : Inhabited Scope := ⟨empty⟩

def binding? (s : Scope) (name : String) : Option Binding := s.bindings.find? name

def has (s : Scope) (name : String) : Bool := (s.binding? name).isSome

/-- Creates a binding without a value, unless the name is bound. -/
def create (s : Scope) (name : String) (kind : BindingKind) : Scope :=
  if s.has name then s else ⟨s.bindings.insert name ⟨kind, none⟩⟩

/-- Gives a binding its first value, if it has none. -/
def initialise? (s : Scope) (name : String) (v : Value) : Option Scope :=
  match s.binding? name with
  | some ⟨kind, none⟩ => some ⟨s.bindings.insert name ⟨kind, some v⟩⟩
  | _ => none

/-- Deletes a binding, if it is absent or deletable. -/
def delete? (s : Scope) (name : String) : Option Scope :=
  match s.binding? name with
  | none => some s
  | some ⟨.deletable, _⟩ => some ⟨s.bindings.erase name⟩
  | some _ => none

/-- The value of a name. One without a value yet is undefined to code that is not strict. -/
def get (s : Scope) (name : String) (strict : Bool) : Except Fault Value :=
  match s.binding? name with
  | some ⟨_, some v⟩ => .ok v
  | some ⟨_, none⟩ =>
    if strict then .error (.referenceError (.uninitialised name)) else .ok .undefined
  | none => .error (.referenceError (.undefined name))

/-- Assigns to a name. Assigning to a constant fails in strict code and does nothing otherwise. -/
def set (s : Scope) (name : String) (v : Value) (strict : Bool) : Except Fault Scope :=
  match s.binding? name with
  | none => .error (.referenceError (.undefined name))
  | some ⟨.constant, _⟩ => if strict then .error (.typeError (.constant name)) else .ok s
  | some ⟨kind, _⟩ => .ok ⟨s.bindings.insert name ⟨kind, some v⟩⟩

/-- A scope of deletable bindings, each with its value; of two with one name the first counts. -/
def ofList (pairs : List (String × Value)) : Scope :=
  pairs.foldl (fun s e =>
    let s := s.create e.1 .deletable
    (s.initialise? e.1 e.2).getD s) empty

end Scope
end EcmaCore
