import EcmaCore.Proofs.Arithmetic
import EcmaCore.Proofs.NumberText

/-!
# Bit patterns

A machine keeps a number in 64 bits: the sign, eleven bits of the exponent and the fraction. Many
patterns are not numbers, and the numbers of this library know only one `nan`. Nothing is lost by
that: each test of the standard on patterns comes to the test on the numbers that they stand for.
-/
namespace EcmaCore

/-- Numbers are equal if they are the same, `nan` apart, or both zeros. -/
theorem Binary64.equals_iff (x y : Binary64) :
    x.equals y = true ↔ x = y ∧ x.isNaN = false ∨ x.isZero = true ∧ y.isZero = true := by
  rcases x with _ | s | ⟨s, m⟩ <;> rcases y with _ | t | ⟨t, n⟩
  case finite.finite =>
    simp only [equals, isZero, isNaN, Bool.and_eq_true, Bool.or_eq_true, beq_iff_eq, finite.injEq,
      and_true]
    constructor
    · rintro ⟨rfl, rfl | hzero⟩
      · exact .inl ⟨rfl, rfl⟩
      · exact .inr ⟨hzero, hzero⟩
    · rintro (⟨rfl, rfl⟩ | ⟨hm, hn⟩)
      · exact ⟨rfl, .inl rfl⟩
      · exact ⟨(Magnitude.eq_zero_of_significand hm).trans (Magnitude.eq_zero_of_significand hn).symm, .inr hm⟩
  all_goals simp [equals, isZero, isNaN]

theorem Binary64.equals_zero (x : Binary64) : x.equals .zero = x.isZero := by
  rw [Bool.eq_iff_iff, equals_iff]
  constructor
  · rintro (⟨rfl, -⟩ | ⟨hzero, -⟩)
    · rfl
    · exact hzero
  · exact fun hzero => .inr ⟨hzero, rfl⟩

/-- The bits of a number. From the highest they are the sign, the exponent and the fraction. -/
structure BitPattern where
  bits : UInt64
  deriving DecidableEq, Repr

namespace BitPattern
variable (a b : BitPattern)

def isNegative : Bool := decide (2 ^ 63 ≤ a.bits.toNat)

def exponent : Nat := a.bits.toNat / 2 ^ 52 % 2 ^ 11

def fraction : Nat := a.bits.toNat % 2 ^ 52

def isNaN : Bool := a.exponent == 2047 && a.fraction != 0

def isInfinite : Bool := a.exponent == 2047 && a.fraction == 0

def isZero : Bool := a.exponent == 0 && a.fraction == 0

/-- The exact value of a finite pattern, counted in units of `2 ^ -1074`. -/
def units : Int :=
  let size :=
    if a.exponent = 0 then a.fraction else (2 ^ 52 + a.fraction) * Nat.pow 2 (a.exponent - 1)
  if a.isNegative then -(size : Int) else size

/-- Equality of the standard. What is not a number differs from everything, an infinity equals
itself, and finite patterns are compared by their values. -/
def equals : Bool :=
  if a.isNaN || b.isNaN then false
  else if a.isInfinite || b.isInfinite then a == b
  else a.units == b.units

/-- The two comparisons of numbers. The one that is not strict takes what is not a number as equal
to its like, and tells the zeros apart by their signs. -/
def compare (strict : Bool) (a b : BitPattern) : Bool :=
  if strict then a.equals b
  else if a.isNaN || b.isNaN then a.isNaN && b.isNaN
  else a.equals b && a.isNegative == b.isNegative

/-- The number that a pattern stands for. -/
def number : Binary64 := .ofBits a.bits

/-- A pattern of a number. -/
def ofNumber (x : Binary64) : BitPattern := ⟨x.toBits⟩

def isTruthy : Bool := !(a.isNaN || a.equals (ofNumber .zero))

/-- The text of a pattern. Only the finite ones need a formatter. -/
def toText (format : Formatter) : String :=
  if a.isNaN then "NaN"
  else if a.equals (ofNumber .zero) then "0"
  else if a.isInfinite then if a.isNegative then "-Infinity" else "Infinity"
  else a.number.toText format

/-- What the number of a pattern can be, by the fields. -/
inductive Reads : Binary64 → Prop where
  | nan (h : a.isNaN = true) : Reads .nan
  | infinity (h : a.isInfinite = true) : Reads (.infinity a.isNegative)
  | finite {m : Magnitude} (h : a.exponent < 2047)
    (index : m.index = a.exponent * 2 ^ 52 + a.fraction) : Reads (.finite a.isNegative m)

variable {a b}

theorem exponent_lt : a.exponent < 2048 := Nat.mod_lt _ (by decide)

theorem fraction_lt : a.fraction < 2 ^ 52 := Nat.mod_lt _ (by decide)

theorem toNat_bits :
    a.bits.toNat = (if a.isNegative then 2 ^ 63 else 0) + a.exponent * 2 ^ 52 + a.fraction := by
  have hlt := a.bits.toNat_lt
  unfold exponent fraction
  cases hs : a.isNegative with
  | false =>
    have hlow := of_decide_eq_false hs
    rw [if_neg Bool.false_ne_true]
    omega
  | true =>
    have hhigh := of_decide_eq_true hs
    rw [if_pos rfl]
    omega

theorem ext_fields (hs : a.isNegative = b.isNegative) (he : a.exponent = b.exponent)
    (hf : a.fraction = b.fraction) : a = b := by
  have hbits : a.bits.toNat = b.bits.toNat := by rw [toNat_bits, toNat_bits, hs, he, hf]
  cases a
  cases b
  exact congrArg mk (UInt64.toNat_inj.mp hbits)

theorem isNaN_iff : a.isNaN = true ↔ a.exponent = 2047 ∧ a.fraction ≠ 0 := by
  simp [isNaN]

theorem isInfinite_iff : a.isInfinite = true ↔ a.exponent = 2047 ∧ a.fraction = 0 := by
  simp [isInfinite]

theorem not_special (h : a.exponent < 2047) : a.isNaN = false ∧ a.isInfinite = false := by
  have hne : a.exponent ≠ 2047 := Nat.ne_of_lt h
  simp [isNaN, isInfinite, hne]

theorem reads_number (a : BitPattern) : a.Reads a.number := by
  have he := a.exponent_lt
  have hf := a.fraction_lt
  have hbody : a.bits.toNat % 2 ^ 63 = a.exponent * 2 ^ 52 + a.fraction := by
    rw [toNat_bits]
    split <;> omega
  unfold number Binary64.ofBits
  simp only [hbody]
  split
  next hcount =>
    refine .finite ?_ (Magnitude.index_ofIndex _ hcount)
    simp only [Magnitude.count] at hcount
    omega
  next hcount =>
    simp only [Magnitude.count] at hcount
    split
    next hequal =>
      refine .infinity (isInfinite_iff.mpr ?_)
      simp only [Magnitude.count] at hequal
      omega
    next hequal =>
      refine .nan (isNaN_iff.mpr ?_)
      simp only [Magnitude.count] at hequal
      omega

theorem not_nan_of_infinite (h : a.isInfinite = true) : a.isNaN = false := by
  simp [isNaN, isInfinite_iff.mp h]

theorem isNaN_number (a : BitPattern) : a.number.isNaN = a.isNaN := by
  have h := a.reads_number
  generalize a.number = x at h
  cases h with
  | nan h => exact h.symm
  | infinity h => exact (not_nan_of_infinite h).symm
  | finite h _ => exact (not_special h).1.symm

/-- The value that is read off the fields is that of the number. -/
theorem signed_of_index {m : Magnitude} (h : m.index = a.exponent * 2 ^ 52 + a.fraction) :
    Binary64.signed a.isNegative m = a.units := by
  have hf := a.fraction_lt
  have hsize : m.units =
      if a.exponent = 0 then a.fraction
      else (2 ^ 52 + a.fraction) * Nat.pow 2 (a.exponent - 1) := by
    rw [Magnitude.units_eq_unitsAt, h, Magnitude.unitsAt]
    have hquot : (a.exponent * 2 ^ 52 + a.fraction) / 2 ^ 52 = a.exponent := by omega
    have hrest : (a.exponent * 2 ^ 52 + a.fraction) % 2 ^ 52 = a.fraction := by omega
    rw [hquot, hrest, Nat.add_comm (2 ^ 52)]
    by_cases hzero : a.exponent = 0
    · rw [if_pos hzero, if_pos (by omega), hzero, Nat.zero_mul, Nat.zero_add]
    · rw [if_neg hzero, if_neg (by omega)]
  rw [Binary64.signed, units, hsize]

theorem infinite_eq_iff (ha : a.isInfinite = true) (hb : b.isInfinite = true) :
    a = b ↔ a.isNegative = b.isNegative := by
  rw [isInfinite_iff] at ha hb
  refine ⟨congrArg isNegative, fun hs => ext_fields hs ?_ ?_⟩
  · rw [ha.1, hb.1]
  · rw [ha.2, hb.2]

/-- Equality of patterns is that of their numbers. -/
theorem equals_number (a b : BitPattern) : a.number.equals b.number = a.equals b := by
  have ha := a.reads_number
  have hb := b.reads_number
  unfold equals
  generalize a.number = x at ha
  generalize b.number = y at hb
  cases ha with
  | nan ha => simp [ha, Binary64.equals]
  | infinity ha =>
    cases hb with
    | nan hb => simp [hb, Binary64.equals]
    | infinity hb =>
      rw [not_nan_of_infinite ha, not_nan_of_infinite hb, ha, Bool.or_self, Bool.true_or,
        if_neg Bool.false_ne_true, if_pos rfl, Bool.eq_iff_iff, beq_iff_eq, infinite_eq_iff ha hb]
      exact beq_iff_eq
    | finite hb hn =>
      have hne : a ≠ b := fun h => Bool.false_ne_true ((not_special hb).2.symm.trans (h ▸ ha))
      simp [ha, not_nan_of_infinite ha, not_special hb, Binary64.equals, hne]
  | finite ha hm =>
    cases hb with
    | nan hb => simp [hb, Binary64.equals]
    | infinity hb =>
      have hne : a ≠ b := fun h => Bool.false_ne_true ((not_special ha).2.symm.trans (h ▸ hb))
      simp [hb, not_nan_of_infinite hb, not_special ha, Binary64.equals, hne]
    | finite hb hn =>
      rw [(not_special ha).1, (not_special ha).2, (not_special hb).1, (not_special hb).2,
        Bool.or_self, if_neg Bool.false_ne_true, if_neg Bool.false_ne_true, Bool.eq_iff_iff,
        Binary64.equals_finite_iff, signed_of_index hm, signed_of_index hn, beq_iff_eq]

/-- The comparison that is not strict is identity of the numbers. -/
theorem same_number (a b : BitPattern) : a.number.same b.number = compare false a b := by
  have ha := a.reads_number
  have hb := b.reads_number
  rw [compare, if_neg Bool.false_ne_true, ← isNaN_number, ← isNaN_number, ← equals_number]
  generalize a.number = x at ha
  generalize b.number = y at hb
  cases ha with
  | nan => cases hb <;> rfl
  | infinity => cases hb <;> simp [Binary64.same, Binary64.equals, Binary64.isNaN]
  | finite =>
    cases hb with
    | nan | infinity => rfl
    | finite =>
      simp only [Binary64.same, Binary64.equals, Binary64.isNaN, Bool.or_self, Bool.false_eq_true,
        if_false]
      cases a.isNegative == b.isNegative <;> simp

theorem isZero_number (a : BitPattern) : a.number.isZero = a.isZero := by
  have h := a.reads_number
  have hf := a.fraction_lt
  generalize a.number = x at h
  cases h with
  | nan h =>
    simp [Binary64.isZero, isZero, isNaN_iff.mp h]
  | infinity h =>
    simp [Binary64.isZero, isZero, isInfinite_iff.mp h]
  | @finite m h hm =>
    have hzero := m.scale_eq_zero
    rw [Magnitude.index] at hm
    rw [Bool.eq_iff_iff]
    simp only [Binary64.isZero, isZero, Bool.and_eq_true, beq_iff_eq]
    omega

theorem number_of_index {m : Magnitude} (h : m.index = a.exponent * 2 ^ 52 + a.fraction) :
    a.number = .finite a.isNegative m := by
  have hreads := a.reads_number
  have hlt := m.index_lt
  rw [Magnitude.count] at hlt
  generalize a.number = x at hreads
  cases hreads with
  | nan hnan =>
    rw [isNaN_iff] at hnan
    omega
  | infinity hinfinite =>
    rw [isInfinite_iff] at hinfinite
    omega
  | finite hfinite hn => rw [Magnitude.index_injective (hn.trans h.symm)]

/-- Every number has a pattern. -/
theorem number_ofNumber (x : Binary64) : (ofNumber x).number = x := by
  cases x with
  | nan => rfl
  | infinity s => cases s <;> rfl
  | finite s m =>
    have hlt := m.index_lt
    rw [Magnitude.count] at hlt
    have hbits : (ofNumber (.finite s m)).bits.toNat = (if s then 2 ^ 63 else 0) + m.index := by
      have hsum : (if s then 2 ^ 63 else 0) + m.index < 2 ^ 64 := by split <;> omega
      exact UInt64.toNat_ofNat_of_lt' hsum
    have hneg : (ofNumber (.finite s m)).isNegative = s := by
      rw [isNegative, hbits]
      cases s with
      | false => exact decide_eq_false (by simp; omega)
      | true => exact decide_eq_true (by simp)
    have hindex : m.index =
        (ofNumber (.finite s m)).exponent * 2 ^ 52 + (ofNumber (.finite s m)).fraction := by
      have hlow := toNat_bits (a := ofNumber (.finite s m))
      rw [hneg, hbits] at hlow
      omega
    rw [number_of_index hindex, hneg]

theorem equals_zero (a : BitPattern) : a.equals (ofNumber .zero) = a.isZero := by
  rw [← equals_number, number_ofNumber, ← isZero_number, Binary64.equals_zero]

/-- Equality of patterns by the other comparison: only the zeros are told apart by it. -/
theorem equals_iff (a b : BitPattern) :
    a.equals b = true ↔
      compare false a b = true ∧ a.isNaN = false ∨ a.isZero = true ∧ b.isZero = true := by
  rw [← equals_number, Binary64.equals_iff, ← same_number, Binary64.same_iff, isNaN_number,
    isZero_number, isZero_number]

/-- Equal patterns are numbers, so the other comparison looks at their signs. -/
theorem compare_of_equals (h : a.equals b = true) :
    compare false a b = (a.isNegative == b.isNegative) := by
  have hnumbers : (a.isNaN || b.isNaN) = false := by
    cases hnan : a.isNaN || b.isNaN with
    | false => rfl
    | true =>
      rw [equals, if_pos hnan] at h
      cases h
  rw [compare, if_neg Bool.false_ne_true, if_neg (Bool.eq_false_iff.mp hnumbers), h, Bool.true_and]

/-- Patterns that are the same without being equal are those that are not numbers. -/
theorem same_only_iff (a b : BitPattern) :
    compare false a b = true ∧ compare true a b = false ↔ a.isNaN = true ∧ b.isNaN = true := by
  constructor
  · rintro ⟨hsame, hdiffers⟩
    have ha : a.isNaN = true := by
      cases ha : a.isNaN with
      | true => rfl
      | false => exact hdiffers.symm.trans ((equals_iff a b).mpr (.inl ⟨hsame, ha⟩))
    refine ⟨ha, ?_⟩
    simpa [compare, ha] using hsame
  · rintro ⟨ha, hb⟩
    simp [compare, equals, ha, hb]

example : compare false ⟨0x7FF8000000000000⟩ ⟨0xFFF0000000000001⟩ = true ∧
    compare true ⟨0x7FF8000000000000⟩ ⟨0x7FF8000000000000⟩ = false := by decide

/-- Patterns that are equal without being the same are zeros of opposite signs. -/
theorem strict_only_iff (a b : BitPattern) :
    compare false a b = false ∧ compare true a b = true ↔
      a.isZero = true ∧ b.isZero = true ∧ a.isNegative ≠ b.isNegative := by
  constructor
  · rintro ⟨hdiffers, hequal⟩
    have hsign := (compare_of_equals hequal).symm.trans hdiffers
    rcases (equals_iff a b).mp hequal with ⟨hsame, -⟩ | ⟨ha, hb⟩
    · exact absurd (hdiffers.symm.trans hsame) Bool.false_ne_true
    · exact ⟨ha, hb, beq_eq_false_iff_ne.mp hsign⟩
  · rintro ⟨ha, hb, hsign⟩
    have hequal := (equals_iff a b).mpr (.inr ⟨ha, hb⟩)
    exact ⟨(compare_of_equals hequal).trans (beq_eq_false_iff_ne.mpr hsign), hequal⟩

theorem isTruthy_number (a : BitPattern) :
    (!a.number.isNaN && !a.number.isZero) = a.isTruthy := by
  rw [isTruthy, equals_zero, isNaN_number, isZero_number, Bool.not_or]

/-- The text of a number is that of any of its patterns. -/
theorem toText_number (a : BitPattern) (format : Formatter) :
    a.number.toText format = a.toText format := by
  have h := a.reads_number
  have hzero := a.isZero_number
  unfold toText
  rw [equals_zero, ← hzero]
  generalize a.number = x at h
  cases h with
  | nan h => rw [if_pos h]; rfl
  | infinity h =>
    rw [not_nan_of_infinite h, h]
    cases a.isNegative <;> rfl
  | @finite m h hm =>
    rw [(not_special h).1, (not_special h).2]
    cases hm : (Binary64.finite a.isNegative m).isZero with
    | true => exact toText_of_isZero hm
    | false => rfl

end BitPattern
end EcmaCore
