import EcmaCore.Proofs.Encoding

/-!
# Surrogates that stand alone

Whether a unit belongs to a pair is decided by its neighbours: a high surrogate needs a low one right
after it, and a low one needs a high one right before it. Two pairs never share a unit, so reading
from the left finds them all. A text that is turned into characters and back keeps its length and
every unit, but for the surrogates outside pairs.
-/
namespace EcmaCore

def isSurrogate (u : UInt16) : Bool := isHighSurrogate u || isLowSurrogate u

/-- Whether a pair begins at a place. -/
def pairAt (us : List UInt16) (i : Nat) : Bool :=
  us[i]?.any isHighSurrogate && us[i + 1]?.any isLowSurrogate

/-- Whether the unit at a place is one half of a pair. -/
def inPair (us : List UInt16) : Nat → Bool
  | 0 => pairAt us 0
  | i + 1 => pairAt us i || pairAt us (i + 1)

/-- Whether the unit at a place is a surrogate that belongs to no pair. -/
def strayAt (us : List UInt16) (i : Nat) : Bool := us[i]?.any isSurrogate && !inPair us i

/-- Every surrogate belongs to a pair. -/
def AllPaired (us : List UInt16) : Prop := ∀ i, strayAt us i = false

section Strays
variable {u v : UInt16} {us : List UInt16}

theorem not_high_of_low (hv : isLowSurrogate v = true) : isHighSurrogate v = false := by
  rw [isLowSurrogate_iff] at hv
  rw [Bool.eq_false_iff, Ne, isHighSurrogate_iff]
  omega

@[simp] theorem pairAt_succ (i : Nat) : pairAt (u :: us) (i + 1) = pairAt us i := rfl

/-- Where no pair begins, the first unit is a stray if it is a surrogate. -/
theorem strayAt_zero (h : pairAt (u :: us) 0 = false) : strayAt (u :: us) 0 = isSurrogate u := by
  simp [strayAt, inPair, h]

/-- Where no pair begins, the first unit has no part in what follows. -/
theorem strayAt_succ (h : pairAt (u :: us) 0 = false) (i : Nat) :
    strayAt (u :: us) (i + 1) = strayAt us i := by
  cases i with
  | zero => simp [strayAt, inPair, h]
  | succ i => simp [strayAt, inPair]

/-- A pair is made of no strays, and has no part in what follows. -/
theorem strayAt_pair (hu : isHighSurrogate u = true) (hv : isLowSurrogate v = true)
    (us : List UInt16) : strayAt (u :: v :: us) 0 = false ∧ strayAt (u :: v :: us) 1 = false ∧
      ∀ i, strayAt (u :: v :: us) (i + 2) = strayAt us i := by
  have hpair : pairAt (u :: v :: us) 0 = true := by simp [pairAt, hu, hv]
  have hnext : pairAt (v :: us) 0 = false := by simp [pairAt, not_high_of_low hv]
  refine ⟨by simp [strayAt, inPair, hpair], by simp [strayAt, inPair, hpair], fun i => ?_⟩
  have hdrop : strayAt (u :: v :: us) (i + 2) = strayAt (v :: us) (i + 1) := by
    simp [strayAt, inPair]
  rw [hdrop, strayAt_succ hnext]

theorem allPaired_cons (h : pairAt (u :: us) 0 = false) :
    AllPaired (u :: us) ↔ isSurrogate u = false ∧ AllPaired us := by
  constructor
  · intro hall
    exact ⟨strayAt_zero h ▸ hall 0, fun i => strayAt_succ h i ▸ hall (i + 1)⟩
  · rintro ⟨hu, hrest⟩ (_ | i)
    · rw [strayAt_zero h, hu]
    · rw [strayAt_succ h, hrest i]

theorem allPaired_pair (hu : isHighSurrogate u = true) (hv : isLowSurrogate v = true) :
    AllPaired (u :: v :: us) ↔ AllPaired us := by
  obtain ⟨hfirst, hsecond, hrest⟩ := strayAt_pair hu hv us
  constructor
  · intro hall i
    exact hrest i ▸ hall (i + 2)
  · rintro hall (_ | _ | i)
    · exact hfirst
    · exact hsecond
    · exact (hrest i).trans (hall i)

/-- A unit alone comes back as itself or, if it is a surrogate, as the replacement character. -/
theorem encodeChar_decodeUnit_eq (u : UInt16) :
    encodeChar (decodeUnit u) = [if isSurrogate u then 0xFFFD else u] := by
  cases hu : isSurrogate u with
  | false => exact encodeChar_decodeUnit hu
  | true =>
    rw [decodeUnit, if_pos (show isHighSurrogate u || isLowSurrogate u from hu), if_pos rfl]
    rfl

end Strays

/-- By induction on the units as they are read: alone, or in pairs. -/
theorem getElem?_flatMap_decodeUnits (us : List UInt16) (i : Nat) :
    ((decodeUnits us).flatMap encodeChar)[i]? =
      us[i]?.map fun u => if strayAt us i then 0xFFFD else u := by
  induction us using decodeUnits.induct generalizing i with
  | case1 => rfl
  | case2 u =>
    have hpair : pairAt [u] 0 = false := by simp [pairAt]
    rw [decodeUnits, List.flatMap_singleton, encodeChar_decodeUnit_eq]
    cases i with
    | zero => simp [strayAt_zero hpair]
    | succ i => rfl
  | case3 u v rest hpair ih =>
    rw [decodeUnits, if_pos hpair, List.flatMap_cons]
    rw [Bool.and_eq_true] at hpair
    obtain ⟨hfirst, hsecond, hrest⟩ := strayAt_pair hpair.1 hpair.2 rest
    rw [encodeChar_decodePair hpair.1 hpair.2]
    rcases i with _ | _ | i
    · simp [hfirst]
    · simp [hsecond]
    · simpa [hrest] using ih i
  | case4 u v rest hpair ih =>
    have hnone : pairAt (u :: v :: rest) 0 = false := by simpa [pairAt] using hpair
    rw [decodeUnits, if_neg hpair, List.flatMap_cons, encodeChar_decodeUnit_eq]
    cases i with
    | zero => simp [strayAt_zero hnone]
    | succ i => simpa [strayAt_succ hnone] using ih i

/-- What comes back, as a list of units. -/
theorem flatMap_decodeUnits_eq_mapIdx (us : List UInt16) :
    (decodeUnits us).flatMap encodeChar =
      us.mapIdx fun i u => if strayAt us i then 0xFFFD else u := by
  apply List.ext_getElem?
  intro i
  rw [getElem?_flatMap_decodeUnits, List.getElem?_mapIdx]

/-- The replacement character is no surrogate, so it never comes back in the place of itself. -/
theorem flatMap_decodeUnits_eq_self_iff (us : List UInt16) :
    (decodeUnits us).flatMap encodeChar = us ↔ AllPaired us := by
  constructor
  · intro h i
    have hi := getElem?_flatMap_decodeUnits us i
    rw [h] at hi
    cases hu : us[i]? with
    | none => simp [strayAt, hu]
    | some u =>
      rw [hu] at hi
      cases hstray : strayAt us i with
      | false => rfl
      | true =>
        have hsurrogate : isSurrogate u = true := by
          simp only [strayAt, hu, Option.any_some, Bool.and_eq_true] at hstray
          exact hstray.1
        rw [hstray] at hi
        obtain rfl : u = 0xFFFD := by simpa using hi
        exact absurd hsurrogate (by decide)
  · intro h
    apply List.ext_getElem?
    intro i
    rw [getElem?_flatMap_decodeUnits, h i]
    cases us[i]? <;> rfl

/-- By the same induction: a test that reads from the left finds every pair. -/
theorem isPaired_iff (us : List UInt16) : Text.isPaired us = true ↔ AllPaired us := by
  induction us using decodeUnits.induct with
  | case1 => simp [Text.isPaired, AllPaired, strayAt]
  | case2 u =>
    have hnone : pairAt [u] 0 = false := by simp [pairAt]
    have hempty : AllPaired [] := fun i => rfl
    rw [allPaired_cons hnone]
    simp [Text.isPaired, isSurrogate, hempty]
  | case3 u v rest hpair ih =>
    rw [Text.isPaired, if_pos hpair]
    rw [Bool.and_eq_true] at hpair
    rw [ih, allPaired_pair hpair.1 hpair.2]
  | case4 u v rest hpair ih =>
    have hnone : pairAt (u :: v :: rest) 0 = false := by simpa [pairAt] using hpair
    rw [Text.isPaired, if_neg hpair, allPaired_cons hnone, ← ih]
    simp [isSurrogate]

/-- How a text comes back from its characters. -/
structure Text.ComesBack (t back : Text) : Prop where
  length : back.length = t.length
  /-- A surrogate outside pairs becomes the replacement character, and all else stays. -/
  units : ∀ i, back.unitAt? i =
    (t.unitAt? i).map fun u => if strayAt t.units i then 0xFFFD else u
  same_iff : back = t ↔ AllPaired t.units
  paired_iff : Text.isPaired t.units = true ↔ AllPaired t.units

/-- Texts and characters turn into each other as UTF-16 has it, without loss but for the surrogates
outside pairs. -/
theorem conversion_replaces_strays :
    (∀ s : String, Encodes s.toList (Text.ofString s).units ∧ (Text.ofString s).toString = s) ∧
    ∀ t : Text, t.ComesBack (.ofString t.toString) := by
  constructor
  · intro s
    refine ⟨encodes_flatMap s.toList, ?_⟩
    rw [Text.toString, Text.toChars_ofString, String.ofList_toList]
  · intro t
    have hback : Text.ofString t.toString = ⟨(decodeUnits t.units).flatMap encodeChar⟩ := by
      rw [Text.ofString, Text.toString, String.toList_ofList, Text.toChars]
    rw [hback]
    refine ⟨?_, getElem?_flatMap_decodeUnits t.units, ?_, isPaired_iff t.units⟩
    · simp only [Text.length]
      rw [flatMap_decodeUnits_eq_mapIdx, List.length_mapIdx]
    · rw [← flatMap_decodeUnits_eq_self_iff]
      exact ⟨congrArg Text.units, congrArg Text.mk⟩

example : Text.ofString (Text.toString ⟨[0xD83D, 0xD83D, 0xDE00, 0xDE00]⟩) =
    ⟨[0xFFFD, 0xD83D, 0xDE00, 0xFFFD]⟩ := by decide +kernel

end EcmaCore
