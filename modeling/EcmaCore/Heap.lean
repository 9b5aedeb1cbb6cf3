import EcmaCore.Object

/-!
# The heap

All objects, each under its identity. Objects are never removed. An identity that was never given
out stands for an empty object without prototype, and writing to it does nothing.
-/
namespace EcmaCore

structure Heap where
  objects : Array Object
  deriving DecidableEq

namespace Heap

def empty : Heap := ⟨#[]⟩

instance : Inhabited Heap := ⟨empty⟩

def size (h : Heap) : Nat := h.objects.size

def object (h : Heap) (o : ObjectId) : Object := h.objects.getD o.index default

/-- The identity of the next new object. -/
def fresh (h : Heap) : ObjectId := ⟨h.size⟩

def push (h : Heap) (x : Object) : Heap := ⟨h.objects.push x⟩

def replace (h : Heap) (o : ObjectId) (x : Object) : Heap := ⟨h.objects.setIfInBounds o.index x⟩

theorem object_push_fresh (h : Heap) (x : Object) : (h.push x).object h.fresh = x := by
  simp [object, push, fresh, size]

theorem object_push_of_lt {h : Heap} {o : ObjectId} (x : Object) (ho : o.index < h.size) :
    (h.push x).object o = h.object o := by
  simp only [size] at ho
  simp [object, push, Array.getD_eq_getD_getElem?, Array.getElem?_push_lt ho, ho]

theorem object_replace_same {h : Heap} {o : ObjectId} (x : Object) (ho : o.index < h.size) :
    (h.replace o x).object o = x := by
  simp only [size] at ho
  simp [object, replace, Array.getD_eq_getD_getElem?, ho]

theorem object_replace_other {h : Heap} {o p : ObjectId} (x : Object) (hp : p ≠ o) :
    (h.replace o x).object p = h.object p := by
  have hi : o.index ≠ p.index := by
    intro he
    exact hp (by cases o; cases p; simp_all)
  simp [object, replace, Array.getD_eq_getD_getElem?, Array.getElem?_setIfInBounds_ne hi]

@[simp] theorem size_push (h : Heap) (x : Object) : (h.push x).size = h.size + 1 := by
  simp [size, push]

@[simp] theorem size_replace (h : Heap) (o : ObjectId) (x : Object) :
    (h.replace o x).size = h.size := by
  simp [size, replace]

/-- Of an object that is not there the heap shows the default. -/
theorem object_of_size_le {h : Heap} {o : ObjectId} (ho : h.size ≤ o.index) :
    h.object o = default := by
  simp only [size] at ho
  simp [object, Array.getD_eq_getD_getElem?, ho]

/-- Where the heap shows anything but the default there is an object. -/
theorem index_lt_of_object_ne {h : Heap} {o : ObjectId} (hne : h.object o ≠ default) :
    o.index < h.size :=
  Nat.lt_of_not_le fun ho => hne (object_of_size_le ho)

theorem replace_of_size_le {h : Heap} {o : ObjectId} {x : Object} (ho : h.size ≤ o.index) :
    h.replace o x = h := by
  simp only [size] at ho
  simp [replace, Array.setIfInBounds, Nat.not_lt.mpr ho]

/-- Writing back what is there changes nothing. -/
@[simp] theorem replace_self (h : Heap) (o : ObjectId) : h.replace o (h.object o) = h := by
  rcases Nat.lt_or_ge o.index h.size with ho | ho
  · simp only [size] at ho
    simp [replace, object, Array.setIfInBounds, ho]
  · exact replace_of_size_le ho

/-- Defines a property of an object. -/
def define (h : Heap) (o : ObjectId) (key : String) (d : Descriptor) : Except DefinitionFault Heap :=
  ((h.object o).define key d).map (h.replace o)

/-- Deletes a property of an object, unless it has to stay. -/
def delete? (h : Heap) (o : ObjectId) (key : String) : Option Heap :=
  ((h.object o).delete? key).map (h.replace o)

def preventExtensions (h : Heap) (o : ObjectId) : Heap :=
  h.replace o (h.object o).preventExtensions

/-- Whether a value is an object that can be called. -/
def isCallable (h : Heap) : Value → Bool
  | .object o => (h.object o).isCallable
  | _ => false

end Heap
end EcmaCore
