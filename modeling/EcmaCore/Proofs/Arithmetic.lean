import EcmaCore.Number.Arithmetic
import EcmaCore.Proofs.Nearest
import Mathlib.Data.Rat.Floor

/-!
# Exact arithmetic

Each operation rounds an exact result. Where that is a whole number below `2 ^ 53` in size there is
nothing to round, so on such numbers the operations are those on integers.
-/
namespace EcmaCore

namespace Magnitude

/-- How many units the number one has. -/
def one : Nat := 2 ^ 1074

theorem one_eq_pow : ∃ e, one = 2 ^ e ∧ e = 1074 := ⟨1074, by rw [one], rfl⟩

theorem one_pos : 0 < one := by
  obtain ⟨e, he, -⟩ := one_eq_pow
  rw [he]
  exact Nat.two_pow_pos e

theorem one_pos_int : (0 : Int) < one := by exact_mod_cast one_pos

theorem cast_one : (one : ℚ) = 2 ^ 1074 := by
  obtain ⟨e, hone, he⟩ := one_eq_pow
  rw [hone, ← he, Nat.cast_pow, Nat.cast_ofNat]

theorem floor_eq (m : Magnitude) : m.floor = m.units / one := by rw [floor, one]

-- The power is not to be computed.
attribute [irreducible] one

/-- A magnitude is what its own units round to. -/
theorem nearest?_units (m : Magnitude) : nearest? m.units 1 = some m := by
  have hround := Binary64.rounds_nearest? false m.units Nat.one_pos
  rw [Nat.cast_one, div_one] at hround
  have heq := hround.unique (Binary64.rounds_value false m)
  cases hm : nearest? m.units 1 with
  | none =>
    rw [hm] at heq
    cases heq
  | some n =>
    rw [hm] at heq
    cases heq
    rfl

/-- Twice the units of a place are those of a place at most one scale further up. -/
theorem unitsAt_double (i : Nat) : ∃ j, unitsAt j = unitsAt i * 2 ∧ j ≤ i + 2 ^ 52 := by
  obtain ⟨k, r, rfl, hk, hr⟩ := exists_place i
  rw [unitsAt_add hk hr.le]
  rcases Nat.lt_or_ge r (2 ^ 52) with hlow | hhigh
  · obtain rfl : k = 0 := by omega
    refine ⟨0 * 2 ^ 52 + 2 * r, ?_, by omega⟩
    rw [unitsAt_add (.inl rfl) (by omega), Nat.pow_eq]
    omega
  · refine ⟨(k + 1) * 2 ^ 52 + r, ?_, by omega⟩
    rw [unitsAt_add (.inr hhigh) hr.le, Nat.pow_eq, Nat.pow_eq, Nat.pow_succ, Nat.mul_assoc]

theorem unitsAt_shift (i k : Nat) : ∃ j, unitsAt j = unitsAt i * 2 ^ k ∧ j ≤ i + k * 2 ^ 52 := by
  induction k with
  | zero => exact ⟨i, by rw [Nat.pow_zero, Nat.mul_one], by omega⟩
  | succ k ih =>
    obtain ⟨j, hj, hle⟩ := ih
    obtain ⟨l, hl, hstep⟩ := unitsAt_double j
    exact ⟨l, by rw [hl, hj, Nat.pow_succ, Nat.mul_assoc], by omega⟩

/-- A power of two times a magnitude is a magnitude, unless it is beyond the greatest. -/
theorem exists_units_shift {i k : Nat} (h : i + k * 2 ^ 52 < count) :
    ∃ m : Magnitude, m.units = unitsAt i * 2 ^ k := by
  obtain ⟨j, hj, hle⟩ := unitsAt_shift i k
  refine ⟨ofIndex j (by omega), ?_⟩
  rw [units_eq_unitsAt, index_ofIndex, hj]

/-- The whole numbers below `2 ^ 53` are magnitudes. -/
theorem exists_units_of_lt {n : Nat} (hn : n < 2 ^ 53) :
    ∃ m : Magnitude, m.units = n * one := by
  obtain ⟨e, hone, he⟩ := one_eq_pow
  have hn0 : unitsAt n = n := by
    have h := unitsAt_add (k := 0) (.inl rfl) hn.le
    rwa [Nat.zero_mul, Nat.zero_add, Nat.pow_eq, Nat.pow_zero, Nat.mul_one] at h
  have hcount : n + e * 2 ^ 52 < count := by
    rw [he, count]
    omega
  obtain ⟨m, hm⟩ := exists_units_shift hcount
  exact ⟨m, by rw [hm, hn0, hone]⟩

theorem floor_le_significand {m : Magnitude} (h : m.scale ≤ 1074) : m.floor ≤ m.significand := by
  obtain ⟨e, hone, he⟩ := one_eq_pow
  rw [floor_eq, hone, units]
  refine Nat.div_le_of_le_mul ?_
  rw [Nat.mul_comm]
  exact Nat.mul_le_mul_right _ (Nat.pow_le_pow_right Nat.two_pos (h.trans_eq he.symm))

/-- So is the part before the point of any magnitude: one beyond `2 ^ 53` is whole. -/
theorem exists_units_floor (m : Magnitude) : ∃ n : Magnitude, n.units = m.floor * one := by
  rcases Nat.lt_or_ge m.floor (2 ^ 53) with hlt | hge
  · exact exists_units_of_lt hlt
  · have hscale : 1074 ≤ m.scale := by
      by_contra hscale
      have hfloor := floor_le_significand (Nat.le_of_not_le hscale)
      exact absurd m.significand_lt (Nat.not_lt.mpr (hge.trans hfloor))
    have hdvd : one ∣ m.units := by
      obtain ⟨e, hone, he⟩ := one_eq_pow
      rw [hone]
      exact Dvd.dvd.mul_left (Nat.pow_dvd_pow 2 (he.trans_le hscale)) m.significand
    exact ⟨m, by rw [floor_eq, Nat.div_mul_cancel hdvd]⟩

theorem significand_ne_zero {m : Magnitude} (h : 0 < m.units) : m.significand ≠ 0 := by
  intro hzero
  rw [units, hzero, Nat.zero_mul] at h
  exact Nat.lt_irrefl 0 h

theorem units_injective {m n : Magnitude} (h : m.units = n.units) : m = n := by
  rw [units_eq_unitsAt, units_eq_unitsAt] at h
  exact index_injective (unitsAt_strictMono.injective h)

end Magnitude

/-- The integer next to a value on the side of zero. -/
def wholePart (q : ℚ) : Int := if 0 ≤ q then ⌊q⌋ else ⌈q⌉

theorem wholePart_div (u : Int) {n : Nat} (hn : 0 < n) : wholePart (u / n) = u.tdiv n := by
  have hpos : (0 : ℚ) < n := by exact_mod_cast hn
  rcases le_or_gt 0 u with hu | hu
  · have hq : (0 : ℚ) ≤ u / n := div_nonneg (by exact_mod_cast hu) hpos.le
    rw [wholePart, if_pos hq, Rat.floor_intCast_div_natCast, Int.tdiv_eq_ediv_of_nonneg hu]
  · have hq : ¬ (0 : ℚ) ≤ u / n := not_le.mpr (div_neg_of_neg_of_pos (by exact_mod_cast hu) hpos)
    have hneg : (u : ℚ) / n = -((-u : Int) / n) := by rw [Int.cast_neg, neg_div, neg_neg]
    rw [wholePart, if_neg hq, hneg, Int.ceil_neg, Rat.floor_intCast_div_natCast,
      ← Int.tdiv_eq_ediv_of_nonneg (by omega), Int.neg_tdiv, neg_neg]

namespace Binary64

/-- The units of a finite number, with its sign. -/
def units? : Binary64 → Option Int
  | finite s m => some (signed s m)
  | _ => none

/-- The exact value of a finite number. -/
def value? : Binary64 → Option ℚ
  | finite s m => some (if s then -m.value else m.value)
  | _ => none

/-- The number is an integer. Both zeros are zero. -/
def IsInt (x : Binary64) (k : Int) : Prop := x.units? = some (k * Magnitude.one)

variable {x y : Binary64} {s : Bool} {u : Int} {a b k : Int}

theorem round_eq (n : Nat) :
    round s n 1 = ofMagnitude? s (Magnitude.nearest? (n * Magnitude.one) 1) := by
  rw [round, Magnitude.one]

/-- A whole number that is a magnitude is not rounded. -/
theorem round_of_units {m : Magnitude} {n : Nat} (h : m.units = n * Magnitude.one) :
    round s n 1 = finite s m := by
  rw [round_eq, ← h, Magnitude.nearest?_units, ofMagnitude?]

theorem value?_eq_map (x : Binary64) :
    x.value? = x.units?.map fun (u : Int) => (u : ℚ) / Magnitude.one := by
  cases x with
  | finite s m =>
    rw [Magnitude.cast_one, value?, units?, Option.map_some, signed, Magnitude.value]
    cases s with
    | true => rw [if_pos rfl, if_pos rfl, Int.cast_neg, Int.cast_natCast, neg_div]
    | false =>
      rw [if_neg Bool.false_ne_true, if_neg Bool.false_ne_true, Int.cast_natCast]
  | _ => rfl

@[simp] theorem natAbs_signed (m : Magnitude) : (signed s m).natAbs = m.units := by
  unfold signed
  split <;> omega

/-- Units that are those of a magnitude are not rounded. -/
theorem units?_ofUnits (h : ∃ m : Magnitude, m.units = u.natAbs) :
    (ofUnits s u).units? = some u := by
  obtain ⟨m, hm⟩ := h
  rw [ofUnits, ← hm, Magnitude.nearest?_units, ofMagnitude?, units?, signed, hm, Option.some_inj]
  rcases lt_trichotomy u 0 with hneg | rfl | hpos
  · rw [if_neg hneg.ne, if_pos (decide_eq_true hneg)]
    omega
  · rw [if_pos rfl]
    split <;> rfl
  · rw [if_neg hpos.ne', if_neg (by simpa using hpos.le)]
    omega

theorem isInt_ofUnits (h : k.natAbs < 2 ^ 53) : (ofUnits s (k * Magnitude.one)).IsInt k := by
  obtain ⟨m, hm⟩ := Magnitude.exists_units_of_lt h
  exact units?_ofUnits ⟨m, by rw [hm, Int.natAbs_mul, Int.natAbs_natCast]⟩

theorem exists_ofNat {n : Nat} (h : n < 2 ^ 53) :
    ∃ m, ofNat n = finite false m ∧ m.units = n * Magnitude.one := by
  obtain ⟨m, hm⟩ := Magnitude.exists_units_of_lt h
  exact ⟨m, round_of_units hm, hm⟩

theorem isInt_ofNat {n : Nat} (h : n < 2 ^ 53) : (ofNat n).IsInt n := by
  obtain ⟨m, hn, hm⟩ := exists_ofNat h
  rw [hn, IsInt, units?, signed, if_neg Bool.false_ne_true, hm, Nat.cast_mul]

theorem IsInt.exists_finite (h : x.IsInt k) :
    ∃ s m, x = finite s m ∧ signed s m = k * Magnitude.one := by
  cases x with
  | finite s m => exact ⟨s, m, rfl, Option.some_inj.mp h⟩
  | _ => cases h

theorem IsInt.unique (ha : x.IsInt a) (hb : x.IsInt b) : a = b :=
  mul_right_cancel₀ Magnitude.one_pos_int.ne' (Option.some_inj.mp (ha.symm.trans hb))

theorem IsInt.negate (h : x.IsInt k) : x.negate.IsInt (-k) := by
  obtain ⟨s, m, rfl, hm⟩ := h.exists_finite
  have hsign : signed (!s) m = -signed s m := by
    cases s <;> simp [signed]
  rw [IsInt, Binary64.negate, units?, hsign, hm, neg_mul]

/-- A sum below `2 ^ 53` in size is not rounded. -/
theorem IsInt.plus (hx : x.IsInt a) (hy : y.IsInt b) (h : (a + b).natAbs < 2 ^ 53) :
    (x.plus y).IsInt (a + b) := by
  obtain ⟨s, m, rfl, hm⟩ := hx.exists_finite
  obtain ⟨t, n, rfl, hn⟩ := hy.exists_finite
  rw [Binary64.plus, hm, hn, ← add_mul]
  exact isInt_ofUnits h

theorem IsInt.minus (hx : x.IsInt a) (hy : y.IsInt b) (h : (a - b).natAbs < 2 ^ 53) :
    (x.minus y).IsInt (a - b) := by
  rw [Int.sub_eq_add_neg] at h ⊢
  exact hx.plus hy.negate h

/-- Nor is a remainder by a number up to `2 ^ 53`. -/
theorem IsInt.remainder (hx : x.IsInt a) (hy : y.IsInt b) (hpos : 0 < b) (h : b ≤ 2 ^ 53) :
    (x.remainder y).IsInt (a.tmod b) := by
  obtain ⟨s, m, rfl, hm⟩ := hx.exists_finite
  obtain ⟨t, n, rfl, hn⟩ := hy.exists_finite
  have hone := Magnitude.one_pos_int
  have hunits : (n.units : Int) = b * Magnitude.one := by
    rw [← natAbs_signed (s := t), hn, Int.natAbs_of_nonneg (mul_pos hpos hone).le]
  have hnonzero : n.significand ≠ 0 := by
    have hprod := mul_pos hpos hone
    exact Magnitude.significand_ne_zero (by omega)
  have hsmall : (a.tmod b).natAbs < 2 ^ 53 := by
    have hlow := Int.lt_tmod_of_pos a hpos
    have hhigh := Int.tmod_lt_of_pos a hpos
    omega
  rw [Binary64.remainder, if_neg hnonzero, hm, hunits, mul_comm a, mul_comm b,
    Int.mul_tmod_mul_of_pos _ _ hone, mul_comm]
  exact isInt_ofUnits hsmall

theorem IsInt.less_iff (hx : x.IsInt a) (hy : y.IsInt b) : x.less y = true ↔ a < b := by
  obtain ⟨s, m, rfl, hm⟩ := hx.exists_finite
  obtain ⟨t, n, rfl, hn⟩ := hy.exists_finite
  have hone := Magnitude.one_pos_int
  rw [less, hm, hn, decide_eq_true_iff, mul_lt_mul_iff_left₀ hone]

/-- Finite numbers are equal when their exact values are. -/
theorem equals_finite_iff {m n : Magnitude} {t : Bool} :
    (finite s m).equals (finite t n) = true ↔ signed s m = signed t n := by
  rw [equals, Bool.and_eq_true, Bool.or_eq_true, beq_iff_eq, beq_iff_eq, beq_iff_eq]
  constructor
  · rintro ⟨rfl, rfl | hzero⟩
    · rfl
    · have hunits : m.units = 0 := by rw [Magnitude.units, hzero, Nat.zero_mul]
      simp only [signed, hunits]
      split <;> split <;> rfl
  · intro heq
    have habs := congrArg Int.natAbs heq
    rw [natAbs_signed, natAbs_signed] at habs
    obtain rfl := Magnitude.units_injective habs
    refine ⟨rfl, ?_⟩
    rcases Nat.eq_zero_or_pos m.significand with hzero | hpos
    · exact .inr hzero
    · have hunits : 0 < m.units := Nat.mul_pos hpos (Nat.pow_pos Nat.two_pos)
      cases s <;> cases t <;> simp [signed] at heq ⊢ <;> omega

theorem IsInt.equals_iff (hx : x.IsInt a) (hy : y.IsInt b) : x.equals y = true ↔ a = b := by
  obtain ⟨s, m, rfl, hm⟩ := hx.exists_finite
  obtain ⟨t, n, rfl, hn⟩ := hy.exists_finite
  rw [equals_finite_iff, hm, hn, mul_left_inj' Magnitude.one_pos_int.ne']

theorem IsInt.atLeast_iff (hx : x.IsInt a) (hy : y.IsInt b) : x.atLeast y = true ↔ b ≤ a := by
  rw [atLeast, Bool.or_eq_true, hy.less_iff hx, hx.equals_iff hy]
  omega

theorem IsInt.value? (h : x.IsInt k) : x.value? = some (k : ℚ) := by
  have hone : (Magnitude.one : ℚ) ≠ 0 := by exact_mod_cast Magnitude.one_pos.ne'
  rw [value?_eq_map, h, Option.map_some, Int.cast_mul, Int.cast_natCast,
    mul_div_cancel_right₀ _ hone]

/-- The part before the point is not rounded. -/
theorem isInt_truncate (h : x.units? = some u) : x.truncate.IsInt (u.tdiv Magnitude.one) := by
  cases x with
  | finite s m =>
    obtain ⟨n, hn⟩ := m.exists_units_floor
    rw [Binary64.truncate, round_of_units hn, IsInt, units?, ← Option.some_inj.mp h, signed, signed,
      hn, Magnitude.floor_eq]
    split
    · rw [Int.neg_tdiv, ← Int.ofNat_tdiv, Nat.cast_mul, neg_mul]
    · rw [← Int.ofNat_tdiv, Nat.cast_mul]
  | _ => cases h

theorem IsInt.truncate (h : x.IsInt k) : x.truncate.IsInt k := by
  have htrunc := isInt_truncate h
  rwa [Int.mul_tdiv_cancel _ Magnitude.one_pos_int.ne'] at htrunc

theorem integerPart_eq (h : x.units? = some u) : x.integerPart = u.tdiv Magnitude.one := by
  cases x with
  | finite s m =>
    rw [← Option.some_inj.mp h, signed]
    cases s with
    | true => rw [if_pos rfl, Int.neg_tdiv, ← Int.ofNat_tdiv, integerPart, Magnitude.floor_eq]
    | false =>
      rw [if_neg Bool.false_ne_true, ← Int.ofNat_tdiv, integerPart, Magnitude.floor_eq]
  | _ => cases h

theorem IsInt.integerPart (h : x.IsInt k) : x.integerPart = k := by
  rw [integerPart_eq h, Int.mul_tdiv_cancel _ Magnitude.one_pos_int.ne']

/-- A cast of an integer in the range keeps it. -/
theorem IsInt.saturate {low high : Int} (h : x.IsInt k) (hlow : low ≤ k) (hhigh : k ≤ high) :
    x.saturate low high = k := by
  have hpart := h.integerPart
  obtain ⟨s, m, rfl, -⟩ := h.exists_finite
  rw [Binary64.saturate, hpart, min_eq_right hhigh, max_eq_right hlow]

end Binary64
end EcmaCore
