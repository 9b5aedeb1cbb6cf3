/-!
# Keys that are numbers

A key stands for a number if it is the decimal text of that number: digits only, and no zero in
front of others. Reading such keys and printing numbers are inverse to each other. A word of the
machine holds the numbers below `2 ^ 64`, and the key of any other is no place for it.
-/
namespace EcmaCore

/-- The number whose decimal text a key is. -/
def indexOfKey? (key : String) : Option Nat :=
  let cs := key.toList
  if cs.isEmpty || !cs.all Char.isDigit || (1 < cs.length && cs.head? = some '0') then none
  else some (Nat.ofDigitChars 10 cs 0)

/-- The number whose decimal text a key is, if a word can hold it. -/
def wordOfKey? (key : String) : Option UInt64 :=
  (indexOfKey? key).bind fun n => if n < UInt64.size then some (.ofNat n) else none

example : indexOfKey? "10" = some 10 ∧ indexOfKey? "010" = none ∧ indexOfKey? "" = none := by
  decide +kernel

theorem toNat_of_isDigit {c : Char} (hc : c.isDigit = true) :
    '0'.toNat ≤ c.toNat ∧ c.toNat - '0'.toNat < 10 := by
  have hbounds : 48 ≤ c.toNat ∧ c.toNat ≤ 57 := by
    simpa [Char.isDigit, UInt32.le_iff_toNat_le] using hc
  have hzero : '0'.toNat = 48 := rfl
  omega

/-- A digit prints as itself. -/
theorem toDigits_digit {c : Char} (hc : c.isDigit = true) :
    Nat.toDigits 10 (c.toNat - '0'.toNat) = [c] := by
  obtain ⟨hlow, hlt⟩ := toNat_of_isDigit hc
  have hnat : (c.toNat - '0'.toNat).digitChar.toNat = c.toNat := by
    rw [Nat.toNat_digitChar_of_lt_ten hlt]
    have hzero : '0'.toNat = 48 := rfl
    omega
  rw [Nat.toDigits_of_lt_base hlt, Char.toNat_inj.mp hnat]

/-- Digits read after a number that is not zero print after it, by induction on the digits. -/
theorem toDigits_ofDigitChars {cs : List Char} (hcs : cs.all Char.isDigit = true) {n : Nat}
    (hn : 0 < n) : Nat.toDigits 10 (Nat.ofDigitChars 10 cs n) = Nat.toDigits 10 n ++ cs := by
  induction cs generalizing n with
  | nil => simp
  | cons c cs ih =>
    rw [List.all_cons, Bool.and_eq_true] at hcs
    obtain ⟨hc, hrest⟩ := hcs
    rw [Nat.ofDigitChars_cons, ih hrest (by omega),
      ← Nat.toDigits_append_toDigits (by decide) hn (toNat_of_isDigit hc).2, toDigits_digit hc,
      List.append_assoc]
    rfl

/-- Digits without a zero in front print as they were read. -/
theorem toDigits_of_digits {c : Char} {cs : List Char} (hcs : (c :: cs).all Char.isDigit = true)
    (hzero : c = '0' → cs = []) :
    Nat.toDigits 10 (Nat.ofDigitChars 10 (c :: cs) 0) = c :: cs := by
  rw [List.all_cons, Bool.and_eq_true] at hcs
  obtain ⟨hc, hrest⟩ := hcs
  rw [Nat.ofDigitChars_cons, Nat.mul_zero, Nat.zero_add]
  by_cases hz : c = '0'
  · rw [hzero hz, Nat.ofDigitChars_nil, toDigits_digit hc]
  · have hpos : 0 < c.toNat - '0'.toNat := by
      have hlow := (toNat_of_isDigit hc).1
      have hne : c.toNat ≠ '0'.toNat := fun h => hz (Char.toNat_inj.mp h)
      omega
    rw [toDigits_ofDigitChars hrest hpos, toDigits_digit hc]
    rfl

/-- No zero stands in front of a number that is not zero. -/
theorem head?_toDigits {n : Nat} (hn : 0 < n) : (Nat.toDigits 10 n).head? ≠ some '0' := by
  induction n using Nat.strongRecOn with
  | _ n ih =>
    rcases Nat.lt_or_ge n 10 with hlt | hge
    · rw [Nat.toDigits_of_lt_base hlt]
      simp
      omega
    · have hquot : 0 < n / 10 := by omega
      have hsmaller := ih (n / 10) (by omega) hquot
      rw [Nat.toDigits_of_base_le (by decide) hge, List.head?_append]
      cases hd : Nat.toDigits 10 (n / 10) with
      | nil => exact absurd hd Nat.toDigits_ne_nil
      | cons c cs =>
        rw [hd] at hsmaller
        simpa using hsmaller

@[simp] theorem indexOfKey?_repr (n : Nat) : indexOfKey? n.repr = some n := by
  have hdigits : (Nat.toDigits 10 n).all Char.isDigit = true :=
    List.all_eq_true.mpr fun c hc => Nat.isDigit_of_mem_toDigits (by decide) (by decide) hc
  have hzero :
      (1 < (Nat.toDigits 10 n).length && (Nat.toDigits 10 n).head? = some '0') = false := by
    rcases Nat.eq_zero_or_pos n with rfl | hn
    · rfl
    · simp [head?_toDigits hn]
  simp only [indexOfKey?, Nat.toList_repr, hdigits, hzero, Bool.not_true, Bool.or_false,
    List.isEmpty_eq_false_iff.mpr Nat.toDigits_ne_nil, Bool.false_eq_true, if_false,
    Nat.ofDigitChars_ten_toDigits]

/-- A key is read as a number exactly if it is what that number prints as. -/
theorem indexOfKey?_eq_some_iff {key : String} {n : Nat} :
    indexOfKey? key = some n ↔ key = n.repr := by
  constructor
  · intro h
    simp only [indexOfKey?] at h
    split at h
    · cases h
    next hchecks =>
      cases h
      rw [Nat.repr_eq_ofList_toDigits]
      cases hcs : key.toList with
      | nil => simp [hcs] at hchecks
      | cons c cs =>
        simp only [hcs, List.isEmpty_cons, Bool.false_or, Bool.or_eq_true, not_or,
          Bool.not_eq_true, Bool.not_eq_false', List.head?_cons, Option.some.injEq,
          Bool.and_eq_false_iff, decide_eq_false_iff_not, List.length_cons] at hchecks
        obtain ⟨hdigits, hzero⟩ := hchecks
        have hshort : c = '0' → cs = [] := by
          rintro rfl
          cases cs with
          | nil => rfl
          | cons => simp at hzero
        rw [toDigits_of_digits hdigits hshort, ← hcs, String.ofList_toList]
  · rintro rfl
    exact indexOfKey?_repr n

/-- Every word is read from its decimal text, and from no other key. -/
theorem wordOfKey?_eq_some_iff {key : String} {i : UInt64} :
    wordOfKey? key = some i ↔ key = i.toNat.repr := by
  constructor
  · intro h
    obtain ⟨n, hn, hword⟩ := Option.bind_eq_some_iff.mp h
    split at hword
    next hlt =>
      obtain rfl := Option.some.inj hword
      rw [UInt64.toNat_ofNat_of_lt' hlt]
      exact indexOfKey?_eq_some_iff.mp hn
    next => cases hword
  · rintro rfl
    rw [wordOfKey?, indexOfKey?_repr, Option.bind_some, if_pos i.toNat_lt, UInt64.ofNat_toNat]

example : wordOfKey? "18446744073709551615" = some 18446744073709551615 ∧
    wordOfKey? "18446744073709551616" = none := by
  decide +kernel

end EcmaCore
