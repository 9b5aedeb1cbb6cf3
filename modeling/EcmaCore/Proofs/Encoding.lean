import EcmaCore.Text

/-!
# Texts and characters

`UnitsOf` and `Encodes` are the standard's form of a text in units: one unit below `0x10000`, a pair
above it. The units of characters have that form, and what has it reads as those characters. A unit
or a pair that is no stray surrogate is the units of the character read from it.
-/
namespace EcmaCore

theorem isHighSurrogate_iff {u : UInt16} :
    isHighSurrogate u = true ↔ 0xD800 ≤ u.toNat ∧ u.toNat < 0xDC00 := by
  simp [isHighSurrogate, UInt16.le_iff_toNat_le, UInt16.lt_iff_toNat_lt]

theorem isLowSurrogate_iff {u : UInt16} :
    isLowSurrogate u = true ↔ 0xDC00 ≤ u.toNat ∧ u.toNat < 0xE000 := by
  simp [isLowSurrogate, UInt16.le_iff_toNat_le, UInt16.lt_iff_toNat_lt]

theorem toNat_unit {n : Nat} (hn : n < 0x10000) : (UInt16.ofNat n).toNat = n := by
  rw [UInt16.toNat_ofNat']
  exact Nat.mod_eq_of_lt hn

/-- No character is a surrogate. -/
theorem char_range (c : Char) : c.toNat < 0xD800 ∨ 0xDFFF < c.toNat ∧ c.toNat < 0x110000 :=
  c.valid

theorem toNat_char {n : Nat} (hn : n.isValidChar) : (Char.ofNat n).toNat = n := by
  rw [Char.ofNat, dif_pos hn]
  rfl

theorem decodeUnits_cons {u : UInt16} (hu : isHighSurrogate u = false) (rest : List UInt16) :
    decodeUnits (u :: rest) = decodeUnit u :: decodeUnits rest := by
  cases rest with
  | nil => rfl
  | cons v rest => simp [decodeUnits, hu]

/-- The units of a character, as UTF-16 has them: its number, or a pair that counts on from the
first 65536. -/
inductive UnitsOf (c : Char) : List UInt16 → Prop where
  | one {u : UInt16} (number : u.toNat = c.toNat) : UnitsOf c [u]
  | pair {u v : UInt16} (high : isHighSurrogate u = true) (low : isLowSurrogate v = true)
    (number : 0x10000 + (u.toNat - 0xD800) * 0x400 + (v.toNat - 0xDC00) = c.toNat) :
    UnitsOf c [u, v]

theorem unitsOf_encodeChar (c : Char) : UnitsOf c (encodeChar c) := by
  have hc := char_range c
  unfold encodeChar
  split
  next hbmp => exact .one (toNat_unit hbmp)
  next hbmp =>
    have hu : (UInt16.ofNat (0xD800 + (c.toNat - 0x10000) / 0x400)).toNat = _ :=
      toNat_unit (by omega)
    have hv : (UInt16.ofNat (0xDC00 + (c.toNat - 0x10000) % 0x400)).toNat = _ :=
      toNat_unit (by omega)
    refine .pair ?_ ?_ ?_
    · rw [isHighSurrogate_iff]
      omega
    · rw [isLowSurrogate_iff]
      omega
    · omega

/-- The unit of a character is no surrogate, since no character is. -/
theorem decodeUnit_of_toNat {u : UInt16} {c : Char} (h : u.toNat = c.toNat) :
    isHighSurrogate u = false ∧ decodeUnit u = c := by
  have hc := char_range c
  have hhigh : isHighSurrogate u = false := by
    rw [Bool.eq_false_iff, Ne, isHighSurrogate_iff]
    omega
  have hlow : isLowSurrogate u = false := by
    rw [Bool.eq_false_iff, Ne, isLowSurrogate_iff]
    omega
  refine ⟨hhigh, ?_⟩
  rw [decodeUnit, hhigh, hlow, Bool.or_self, if_neg Bool.false_ne_true, h, Char.ofNat_toNat]

/-- The units of a character read as the character, whatever follows. -/
theorem decodeUnits_unitsOf {c : Char} {us : List UInt16} (h : UnitsOf c us)
    (rest : List UInt16) : decodeUnits (us ++ rest) = c :: decodeUnits rest := by
  cases h with
  | one number =>
    obtain ⟨hhigh, hunit⟩ := decodeUnit_of_toNat number
    rw [List.singleton_append, decodeUnits_cons hhigh, hunit]
  | pair high low number =>
    simp only [List.cons_append, List.nil_append, decodeUnits, high, low, Bool.and_self, if_true,
      decodePair, number, Char.ofNat_toNat]

/-- The units of characters, one after the other. -/
inductive Encodes : List Char → List UInt16 → Prop where
  | nil : Encodes [] []
  | cons {c : Char} {cs : List Char} {first rest : List UInt16} (head : UnitsOf c first)
    (tail : Encodes cs rest) : Encodes (c :: cs) (first ++ rest)

theorem encodes_flatMap (cs : List Char) : Encodes cs (cs.flatMap encodeChar) := by
  induction cs with
  | nil => exact .nil
  | cons c rest ih =>
    rw [List.flatMap_cons]
    exact .cons (unitsOf_encodeChar c) ih

/-- Nothing is lost of characters. -/
theorem decodeUnits_of_encodes {cs : List Char} {us : List UInt16} (h : Encodes cs us) :
    decodeUnits us = cs := by
  induction h with
  | nil => rfl
  | cons head _ ih => rw [decodeUnits_unitsOf head, ih]

/-- Only surrogates are left out of what a unit can read as. -/
theorem not_surrogate_of_decodeUnit {u : UInt16} (hu : decodeUnit u ≠ '\uFFFD') :
    (isHighSurrogate u || isLowSurrogate u) = false := by
  cases hsurrogate : isHighSurrogate u || isLowSurrogate u with
  | false => rfl
  | true => exact absurd (by rw [decodeUnit, if_pos hsurrogate]) hu

theorem encodeChar_decodeUnit {u : UInt16}
    (hu : (isHighSurrogate u || isLowSurrogate u) = false) : encodeChar (decodeUnit u) = [u] := by
  have hrange := hu
  rw [Bool.or_eq_false_iff, Bool.eq_false_iff, Bool.eq_false_iff, Ne, Ne, isHighSurrogate_iff,
    isLowSurrogate_iff] at hrange
  have hlt := u.toNat_lt
  have hvalid : u.toNat.isValidChar := by
    unfold Nat.isValidChar
    omega
  rw [decodeUnit, if_neg (Bool.eq_false_iff.mp hu), encodeChar, toNat_char hvalid, if_pos hlt,
    UInt16.ofNat_toNat]

theorem encodeChar_decodePair {u v : UInt16} (hu : isHighSurrogate u = true)
    (hv : isLowSurrogate v = true) : encodeChar (decodePair u v) = [u, v] := by
  rw [isHighSurrogate_iff] at hu
  rw [isLowSurrogate_iff] at hv
  have hvalid : (0x10000 + (u.toNat - 0xD800) * 0x400 + (v.toNat - 0xDC00)).isValidChar := by
    unfold Nat.isValidChar
    omega
  have hhigh : 0xD800 + (0x10000 + (u.toNat - 0xD800) * 0x400 + (v.toNat - 0xDC00) - 0x10000) /
      0x400 = u.toNat := by omega
  have hlow : 0xDC00 + (0x10000 + (u.toNat - 0xD800) * 0x400 + (v.toNat - 0xDC00) - 0x10000) %
      0x400 = v.toNat := by omega
  rw [encodeChar, decodePair, toNat_char hvalid, if_neg (by omega), hhigh, hlow,
    UInt16.ofNat_toNat, UInt16.ofNat_toNat]

/-- By induction on the units as they are read: alone, or in pairs. -/
theorem flatMap_decodeUnits {us : List UInt16} (h : ∀ c ∈ decodeUnits us, c ≠ '\uFFFD') :
    (decodeUnits us).flatMap encodeChar = us := by
  induction us using decodeUnits.induct with
  | case1 => rfl
  | case2 u =>
    rw [decodeUnits] at h ⊢
    rw [List.flatMap_singleton]
    exact encodeChar_decodeUnit (not_surrogate_of_decodeUnit (h _ List.mem_cons_self))
  | case3 u v rest hpair ih =>
    rw [decodeUnits, if_pos hpair] at h ⊢
    rw [Bool.and_eq_true] at hpair
    rw [List.flatMap_cons, ih fun c hc => h c (List.mem_cons_of_mem _ hc),
      encodeChar_decodePair hpair.1 hpair.2]
    rfl
  | case4 u v rest hpair ih =>
    rw [decodeUnits, if_neg hpair] at h ⊢
    rw [List.flatMap_cons, ih fun c hc => h c (List.mem_cons_of_mem _ hc),
      encodeChar_decodeUnit (not_surrogate_of_decodeUnit (h _ List.mem_cons_self))]
    rfl

namespace Text

@[simp] theorem toChars_ofString (s : String) : (ofString s).toChars = s.toList :=
  decodeUnits_of_encodes (encodes_flatMap s.toList)

/-- A text without unpaired surrogates, and without the character that stands for them, is the text
of its characters. -/
theorem ofString_toString {t : Text} (h : ∀ c ∈ t.toChars, c ≠ '\uFFFD') :
    ofString t.toString = t := by
  have hunits := flatMap_decodeUnits h
  rw [ofString, toString, String.toList_ofList, toChars, hunits]

end Text
end EcmaCore
