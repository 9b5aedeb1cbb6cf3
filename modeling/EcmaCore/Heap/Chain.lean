import EcmaCore.Heap
import EcmaCore.Limit

/-!
# Prototype chains

Walks along prototype links: to look a property up, to learn whether it can be written, and to keep
a new link from closing a cycle. A walk counts the links it follows against the depth limit, and it
remembers the objects it has met, so that it ends on a chain that comes back to one of them.
-/
namespace EcmaCore

/-- A set of objects, as marks under their places in the heap. -/
structure ObjectSet where
  marks : Array Bool

namespace ObjectSet

def empty : ObjectSet := ⟨#[]⟩

def has (s : ObjectSet) (o : ObjectId) : Bool := s.marks.getD o.index false

def add (s : ObjectSet) (o : ObjectId) : ObjectSet :=
  let room := s.marks ++ Array.replicate (o.index + 1 - s.marks.size) false
  ⟨room.setIfInBounds o.index true⟩

@[simp] theorem has_empty (o : ObjectId) : empty.has o = false := rfl

@[simp] theorem has_add (s : ObjectSet) (o p : ObjectId) :
    (s.add o).has p = (decide (p = o) || s.has p) := by
  have hindex : p = o ↔ p.index = o.index := by
    cases p; cases o; simp
  simp only [has, add, hindex, Array.getD_eq_getD_getElem?, Array.getElem?_setIfInBounds,
    Array.getElem?_append, Array.getElem?_replicate, Array.size_append, Array.size_replicate]
  by_cases hp : p.index = o.index
  · have hroom : o.index < s.marks.size + (o.index + 1 - s.marks.size) := by omega
    simp [hp, hroom]
  · have hne : ¬ o.index = p.index := fun h => hp h.symm
    simp only [hne, if_false, hp, decide_false, Bool.false_or]
    split
    · rfl
    next hs =>
      rw [Array.getElem?_eq_none (by omega)]
      split <;> rfl

end ObjectSet

/-- Why a walk gives no answer. -/
inductive ChainFault where
  | cyclic
  | tooDeep
  deriving DecidableEq, Repr

/-- Whether a property takes a new value: a value that is writable, or functions with a setter. -/
def Slot.takesValue : Slot → Bool
  | data _ writable => writable
  | accessor _ setter => setter.isSome

namespace Heap

/-- The number of objects that a walk has not met. -/
def unmet (h : Heap) (met : ObjectSet) : Nat :=
  ((List.range h.size).filter fun i => !met.has ⟨i⟩).length

theorem unmet_add_lt {h : Heap} {met : ObjectSet} {o : ObjectId} (ho : o.index < h.size)
    (hm : met.has o = false) : h.unmet (met.add o) < h.unmet met := by
  have hfilter : (List.range h.size).filter (fun i => !(met.add o).has ⟨i⟩) =
      ((List.range h.size).filter fun i => !met.has ⟨i⟩).filter
        fun i => (⟨i⟩ : ObjectId) ≠ o := by
    rw [List.filter_filter]
    congr 1
    funext i
    simp
  rw [unmet, unmet, hfilter, List.length_filter_lt_length_iff_exists]
  exact ⟨o.index, by simp [ho, hm], by simp⟩

/-- Only an object that is there has a prototype. -/
theorem index_lt_of_prototype {h : Heap} {o next : ObjectId}
    (hq : (h.object o).prototype = some next) : o.index < h.size := by
  apply index_lt_of_object_ne
  intro hd
  rw [hd] at hq
  cases hq

/-- Looks a property up from an object on, at some depth, after some objects. -/
def lookupFrom (h : Heap) (limit : DepthLimit) (key : String) (met : ObjectSet) (depth : Nat)
    (o : ObjectId) : Except ChainFault (Option Property) :=
  if met.has o then .error .cyclic
  else match (h.object o).ownProperty? key with
    | some p => .ok (some p)
    | none =>
      match hq : (h.object o).prototype with
      | none => .ok none
      | some next =>
        if limit.allows (depth + 1) then h.lookupFrom limit key (met.add o) (depth + 1) next
        else .error .tooDeep
termination_by h.unmet met
decreasing_by exact unmet_add_lt (index_lt_of_prototype hq) (Bool.eq_false_iff.mpr ‹_›)

section
variable {h : Heap} {limit : DepthLimit} {key : String} {met : ObjectSet} {depth : Nat}
  {o next : ObjectId}

theorem lookupFrom_met (hm : met.has o = true) :
    h.lookupFrom limit key met depth o = .error .cyclic := by
  rw [lookupFrom, if_pos hm]

theorem lookupFrom_own {p : Property} (hm : met.has o = false)
    (hp : (h.object o).ownProperty? key = some p) :
    h.lookupFrom limit key met depth o = .ok (some p) := by
  rw [lookupFrom, if_neg (Bool.eq_false_iff.mp hm)]
  simp only [hp]

theorem lookupFrom_root (hm : met.has o = false) (ha : (h.object o).ownProperty? key = none)
    (hq : (h.object o).prototype = none) : h.lookupFrom limit key met depth o = .ok none := by
  rw [lookupFrom, if_neg (Bool.eq_false_iff.mp hm)]
  simp only [ha]
  split
  next => rfl
  next _ hn =>
    rw [hq] at hn
    cases hn

theorem lookupFrom_next (hm : met.has o = false) (ha : (h.object o).ownProperty? key = none)
    (hq : (h.object o).prototype = some next) :
    h.lookupFrom limit key met depth o =
      if limit.allows (depth + 1) then h.lookupFrom limit key (met.add o) (depth + 1) next
      else .error .tooDeep := by
  rw [lookupFrom, if_neg (Bool.eq_false_iff.mp hm)]
  simp only [ha]
  split
  next hn =>
    rw [hq] at hn
    cases hn
  next _ hn =>
    obtain rfl := Option.some.inj (hq.symm.trans hn)
    rfl

end

/-- Looks a property up on an object and then along its prototypes. -/
def lookup (h : Heap) (limit : DepthLimit) (o : ObjectId) (key : String) :
    Except ChainFault (Option Property) :=
  h.lookupFrom limit key .empty 0 o

/-- Whether an assignment to a key of an object would be taken. An inherited value that can be
written is not enough: the object must be able to grow. -/
def canPut (h : Heap) (limit : DepthLimit) (o : ObjectId) (key : String) : Except ChainFault Bool :=
  let x := h.object o
  match x.ownProperty? key with
  | some p => .ok p.slot.takesValue
  | none =>
    match x.prototype with
    | none => .ok x.extensible
    | some next => (h.lookup limit next key).map fun
      | none => x.extensible
      | some p => p.slot.takesValue && (p.isAccessor || x.extensible)

/-- How the walk ends that checks a new link of an object. -/
inductive WalkEnd where
  /-- At an object without prototype. -/
  | root
  /-- At the object that is to be linked. -/
  | target
  /-- At an object that was met before. -/
  | revisit
  | tooDeep
  deriving DecidableEq, Repr

/-- Walks towards an object from another on, at some depth, after some objects. -/
def walkFrom (h : Heap) (limit : DepthLimit) (o : ObjectId) (met : ObjectSet) (depth : Nat)
    (next : ObjectId) : WalkEnd :=
  if next = o then .target
  else if met.has next then .revisit
  else if limit.allows (depth + 1) then
    match hq : (h.object next).prototype with
    | none => .root
    | some after => h.walkFrom limit o (met.add next) (depth + 1) after
  else .tooDeep
termination_by h.unmet met
decreasing_by exact unmet_add_lt (index_lt_of_prototype hq) (Bool.eq_false_iff.mpr ‹_›)

section
variable {h : Heap} {limit : DepthLimit} {met : ObjectSet} {depth : Nat} {o next : ObjectId}

theorem walkFrom_root (hn : next ≠ o) (hm : met.has next = false)
    (ha : limit.allows (depth + 1) = true)
    (hq : (h.object next).prototype = none) : h.walkFrom limit o met depth next = .root := by
  rw [walkFrom, if_neg hn, if_neg (Bool.eq_false_iff.mp hm), if_pos ha]
  split
  next => rfl
  next _ hq' =>
    rw [hq] at hq'
    cases hq'

theorem walkFrom_next {after : ObjectId} (hn : next ≠ o) (hm : met.has next = false)
    (ha : limit.allows (depth + 1) = true) (hq : (h.object next).prototype = some after) :
    h.walkFrom limit o met depth next = h.walkFrom limit o (met.add next) (depth + 1) after := by
  rw [walkFrom, if_neg hn, if_neg (Bool.eq_false_iff.mp hm), if_pos ha]
  split
  next hq' =>
    rw [hq] at hq'
    cases hq'
  next _ hq' =>
    obtain rfl := Option.some.inj (hq.symm.trans hq')
    rfl

end

/-- Walks towards an object from the prototype that it is to get. -/
def walk (h : Heap) (limit : DepthLimit) (o : ObjectId) : Option ObjectId → WalkEnd
  | none => .root
  | some next => h.walkFrom limit o .empty 0 next

/-- Links an object to a prototype, or to none. A change is refused to an object that cannot grow,
and when the chain would close or become too long. -/
def setPrototype? (h : Heap) (limit : DepthLimit) (o : ObjectId) (prototype : Option ObjectId) :
    Option Heap :=
  let x := h.object o
  if x.prototype = prototype then some h
  else if x.extensible && h.walk limit o prototype = .root then
    some (h.replace o { x with prototype := prototype })
  else none

end Heap
end EcmaCore
