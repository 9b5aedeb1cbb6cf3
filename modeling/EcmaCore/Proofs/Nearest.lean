import EcmaCore.Number.Binary64
import Mathlib.Algebra.Order.Field.Power
import Mathlib.Algebra.Order.Field.Rat
import Mathlib.Tactic.FieldSimp
import Mathlib.Tactic.Linarith
import Mathlib.Tactic.Positivity
import Mathlib.Tactic.Ring

/-!
# Nearest numbers

What it means for a number to be nearest to an exact value, and that rounding gives that number. The
magnitudes are strictly ordered by their places, so a value lies between the magnitudes at two
places next to each other, and only these two compete.
-/
namespace EcmaCore

namespace Magnitude

/-- The exact value. -/
def value (m : Magnitude) : ℚ := m.units / 2 ^ 1074

/-- Half a step beyond the greatest magnitude. -/
def overflow : ℚ := 2 ^ 1024 - 2 ^ 970

/-- No magnitude is closer to a value; of two that are equally close it is the even one. -/
structure Nearest (m : Magnitude) (q : ℚ) : Prop where
  closest : ∀ n : Magnitude, |m.value - q| ≤ |n.value - q|
  even : ∀ n : Magnitude, n ≠ m → |n.value - q| = |m.value - q| → m.significand % 2 = 0

/-- The units at a place in the order of magnitudes, as though the order had no end. -/
def unitsAt (i : Nat) : Nat :=
  if i < 2 ^ 52 then i else (i % 2 ^ 52 + 2 ^ 52) * Nat.pow 2 (i / 2 ^ 52 - 1)

theorem unitsAt_add {k j : Nat} (hk : k = 0 ∨ 2 ^ 52 ≤ j) (hj : j ≤ 2 ^ 53) :
    unitsAt (k * 2 ^ 52 + j) = j * Nat.pow 2 k := by
  unfold unitsAt
  split
  next h =>
    obtain rfl : k = 0 := by omega
    simp
  next h =>
    rcases Nat.lt_or_eq_of_le hj with hlt | rfl
    · have hplace : (k * 2 ^ 52 + j) / 2 ^ 52 - 1 = k := by omega
      have hrest : (k * 2 ^ 52 + j) % 2 ^ 52 + 2 ^ 52 = j := by omega
      rw [hplace, hrest]
    · have hplace : (k * 2 ^ 52 + 2 ^ 53) / 2 ^ 52 - 1 = k + 1 := by omega
      have hrest : (k * 2 ^ 52 + 2 ^ 53) % 2 ^ 52 + 2 ^ 52 = 2 ^ 52 := by omega
      rw [hplace, hrest, Nat.pow_eq, Nat.pow_eq, Nat.pow_succ]
      omega

/-- Each place is so many steps into the range of a scale. -/
theorem exists_place (i : Nat) :
    ∃ k j, i = k * 2 ^ 52 + j ∧ (k = 0 ∨ 2 ^ 52 ≤ j) ∧ j < 2 ^ 53 := by
  rcases Nat.lt_or_ge i (2 ^ 52) with hi | hi
  · exact ⟨0, i, by omega, by omega, by omega⟩
  · exact ⟨i / 2 ^ 52 - 1, i % 2 ^ 52 + 2 ^ 52, by omega, by omega, by omega⟩

theorem unitsAt_lt_succ (i : Nat) : unitsAt i < unitsAt (i + 1) := by
  obtain ⟨k, j, rfl, hk, hj⟩ := exists_place i
  rw [unitsAt_add hk (by omega), Nat.add_assoc, unitsAt_add (by omega) (by omega), Nat.add_mul]
  have hpos : 0 < Nat.pow 2 k := Nat.pow_pos (by decide)
  omega

theorem unitsAt_strictMono : StrictMono unitsAt := strictMono_nat_of_lt_succ unitsAt_lt_succ

theorem units_eq_unitsAt (m : Magnitude) : m.units = unitsAt m.index := by
  have hs := m.significand_lt
  have hzero := m.scale_eq_zero
  rw [index, unitsAt_add (by omega) (by omega), units]

theorem index_mod_two (m : Magnitude) : m.index % 2 = m.significand % 2 := by
  rw [index]
  omega

/-- The place that rounding chooses, before it is known whether there is a magnitude. -/
def nearestPlace (num den : Nat) : Nat :=
  let scale := (num / den).log2 - 52
  scale * 2 ^ 52 + roundQuotient num (den * Nat.pow 2 scale)

theorem nearest?_eq (num den : Nat) :
    nearest? num den =
      if h : nearestPlace num den < count then some (ofIndex (nearestPlace num den) h) else none :=
  rfl

/-- A scale that leaves 53 bits of a number leaves all of them, unless it is the lowest. -/
theorem bits_of_scale {n k : Nat} (hk : k = n.log2 - 52) :
    n / 2 ^ k < 2 ^ 53 ∧ (k = 0 ∨ 2 ^ 52 ≤ n / 2 ^ k) := by
  have hpos : 0 < 2 ^ k := Nat.two_pow_pos k
  constructor
  · rw [Nat.div_lt_iff_lt_mul hpos, ← Nat.pow_add]
    exact Nat.lt_of_lt_of_le Nat.lt_log2_self (Nat.pow_le_pow_right (by decide) (by omega))
  · rcases Nat.eq_zero_or_pos k with h | h
    · exact .inl h
    · have hn : n ≠ 0 := by
        rintro rfl
        simp at hk
        omega
      rw [Nat.le_div_iff_mul_le hpos, ← Nat.pow_add, ← Nat.le_log2 hn]
      omega

theorem roundQuotient_eq (num den : Nat) :
    roundQuotient num den =
      if 2 * num < (2 * (num / den) + 1) * den ∨
        (2 * num = (2 * (num / den) + 1) * den ∧ num / den % 2 = 0) then num / den
      else num / den + 1 := by
  have hdiv := Nat.div_add_mod num den
  have hmul : (2 * (num / den) + 1) * den = 2 * (den * (num / den)) + den := by ring
  rw [roundQuotient, hmul]
  congr 1
  apply propext
  omega

/-- Rounding finds the two places between which a value lies, and chooses the nearer of them or, if
both are equally near, the even one. -/
theorem exists_bracket (num : Nat) {den : Nat} (hden : 0 < den) :
    ∃ i, unitsAt i * den ≤ num ∧ num < unitsAt (i + 1) * den ∧
      nearestPlace num den =
        if 2 * num < (unitsAt i + unitsAt (i + 1)) * den ∨
          (2 * num = (unitsAt i + unitsAt (i + 1)) * den ∧ i % 2 = 0) then i else i + 1 := by
  obtain ⟨k, hk⟩ : ∃ k, k = (num / den).log2 - 52 := ⟨_, rfl⟩
  obtain ⟨low, hlow⟩ : ∃ low, low = num / (den * 2 ^ k) := ⟨_, rfl⟩
  have hpos : 0 < den * 2 ^ k := Nat.mul_pos hden (Nat.two_pow_pos k)
  obtain ⟨hlt, hscale⟩ := bits_of_scale hk
  rw [Nat.div_div_eq_div_mul, ← hlow] at hlt hscale
  have hthis : unitsAt (k * 2 ^ 52 + low) = low * 2 ^ k := unitsAt_add hscale (by omega)
  have hnext : unitsAt (k * 2 ^ 52 + low + 1) = (low + 1) * 2 ^ k := by
    rw [Nat.add_assoc]
    exact unitsAt_add (by omega) (by omega)
  have hsum : (low * 2 ^ k + (low + 1) * 2 ^ k) * den = (2 * low + 1) * (den * 2 ^ k) := by ring
  have hparity : (k * 2 ^ 52 + low) % 2 = low % 2 := by omega
  refine ⟨k * 2 ^ 52 + low, ?_, ?_, ?_⟩
  · rw [hthis, Nat.mul_assoc, Nat.mul_comm (2 ^ k), hlow]
    exact Nat.div_mul_le_self ..
  · rw [hnext, Nat.mul_assoc, Nat.mul_comm (2 ^ k), ← Nat.div_lt_iff_lt_mul hpos, ← hlow]
    exact Nat.lt_succ_self low
  · have hround := roundQuotient_eq num (den * 2 ^ k)
    rw [← hlow] at hround
    rw [nearestPlace, ← hk, hthis, hnext, hsum, hparity]
    simp only [Nat.pow_eq]
    rw [hround]
    split <;> omega

/-- The exact value at a place. -/
def valueAt (i : Nat) : ℚ := unitsAt i / 2 ^ 1074

theorem valueAt_strictMono : StrictMono valueAt := by
  intro i j hij
  have hunits : (unitsAt i : ℚ) < unitsAt j := by exact_mod_cast unitsAt_strictMono hij
  exact div_lt_div_of_pos_right hunits (by positivity)

theorem valueAt_zero : valueAt 0 = 0 := by simp [valueAt, unitsAt]

theorem value_eq_valueAt (m : Magnitude) : m.value = valueAt m.index := by
  rw [value, valueAt, units_eq_unitsAt]

theorem index_injective {m n : Magnitude} (h : m.index = n.index) : m = n := by
  rw [← ofIndex_index m, ← ofIndex_index n]
  simp only [h]

/-- No place is closer to a value; of two that are equally close it is the even one. -/
structure NearestAt (i : Nat) (q : ℚ) : Prop where
  closest : ∀ j, |valueAt i - q| ≤ |valueAt j - q|
  even : ∀ j, j ≠ i → |valueAt j - q| = |valueAt i - q| → i % 2 = 0

/-- Of a value between two neighbouring places the others are further away. -/
theorem distance_of_bracket {i j : Nat} {q : ℚ} (hlow : valueAt i ≤ q)
    (hhigh : q < valueAt (i + 1)) :
    (j ≤ i ∧ |valueAt j - q| = q - valueAt j ∧ valueAt j ≤ valueAt i) ∨
    (i + 1 ≤ j ∧ |valueAt j - q| = valueAt j - q ∧ valueAt (i + 1) ≤ valueAt j) := by
  rcases Nat.lt_or_ge i j with hij | hij
  · have hj := valueAt_strictMono.monotone (Nat.succ_le_of_lt hij)
    exact .inr ⟨hij, abs_of_nonneg (by linarith), hj⟩
  · have hj := valueAt_strictMono.monotone hij
    rw [abs_sub_comm]
    exact .inl ⟨hij, abs_of_nonneg (by linarith), hj⟩

theorem nearestAt_of_bracket {i : Nat} {q : ℚ} (hlow : valueAt i ≤ q)
    (hhigh : q < valueAt (i + 1)) :
    NearestAt (if 2 * q < valueAt i + valueAt (i + 1) ∨
      (2 * q = valueAt i + valueAt (i + 1) ∧ i % 2 = 0) then i else i + 1) q := by
  have hthis : |valueAt i - q| = q - valueAt i := by
    rw [abs_sub_comm, abs_of_nonneg (by linarith)]
  have hnext : |valueAt (i + 1) - q| = valueAt (i + 1) - q := abs_of_nonneg (by linarith)
  split
  next h =>
    have hmid : 2 * q ≤ valueAt i + valueAt (i + 1) := h.elim le_of_lt fun h => h.1.le
    constructor
    · intro j
      rw [hthis]
      rcases distance_of_bracket (j := j) hlow hhigh with ⟨-, hj, hle⟩ | ⟨-, hj, hle⟩ <;>
        rw [hj] <;> linarith
    · intro j hne heq
      rw [hthis] at heq
      rcases distance_of_bracket (j := j) hlow hhigh with ⟨hji, hj, -⟩ | ⟨-, hj, hle⟩
      · have hlt := valueAt_strictMono (Nat.lt_of_le_of_ne hji hne)
        linarith
      · exact (h.resolve_left (by linarith)).2
  next h =>
    rw [not_or, not_and, not_lt] at h
    constructor
    · intro j
      rw [hnext]
      rcases distance_of_bracket (j := j) hlow hhigh with ⟨-, hj, hle⟩ | ⟨-, hj, hle⟩ <;>
        rw [hj] <;> linarith
    · intro j hne heq
      rw [hnext] at heq
      rcases distance_of_bracket (j := j) hlow hhigh with ⟨-, hj, hle⟩ | ⟨hij, hj, -⟩
      · have hodd := h.2 (by linarith)
        omega
      · have hlt := valueAt_strictMono (Nat.lt_of_le_of_ne hij (Ne.symm hne))
        linarith

/-- Rounding chooses the nearest place. -/
theorem nearestAt_nearestPlace (num : Nat) {den : Nat} (hden : 0 < den) :
    NearestAt (nearestPlace num den) (num / den / 2 ^ 1074) := by
  obtain ⟨i, hlow, hhigh, hplace⟩ := exists_bracket num hden
  have hd : (0 : ℚ) < den := by exact_mod_cast hden
  have hunit : (0 : ℚ) < 2 ^ 1074 := by positivity
  have hbelow : valueAt i ≤ num / den / 2 ^ 1074 := by
    refine div_le_div_of_nonneg_right ?_ hunit.le
    rw [le_div_iff₀ hd]
    exact_mod_cast hlow
  have habove : num / den / 2 ^ 1074 < valueAt (i + 1) := by
    refine div_lt_div_of_pos_right ?_ hunit
    rw [div_lt_iff₀ hd]
    exact_mod_cast hhigh
  have hmiddle : valueAt i + valueAt (i + 1) = (unitsAt i + unitsAt (i + 1)) / 2 ^ 1074 := by
    rw [valueAt, valueAt, add_div]
  have htwice : (2 : ℚ) * (num / den / 2 ^ 1074) = 2 * num / den / 2 ^ 1074 := by
    rw [← mul_div_assoc, ← mul_div_assoc]
  have hlt : 2 * ((num : ℚ) / den / 2 ^ 1074) < valueAt i + valueAt (i + 1) ↔
      2 * num < (unitsAt i + unitsAt (i + 1)) * den := by
    rw [hmiddle, htwice, div_lt_div_iff_of_pos_right hunit, div_lt_iff₀ hd]
    exact_mod_cast Iff.rfl
  have heq : 2 * ((num : ℚ) / den / 2 ^ 1074) = valueAt i + valueAt (i + 1) ↔
      2 * num = (unitsAt i + unitsAt (i + 1)) * den := by
    rw [hmiddle, htwice, div_left_inj' hunit.ne', div_eq_iff hd.ne']
    exact_mod_cast Iff.rfl
  have hnearest := nearestAt_of_bracket hbelow habove
  rw [hplace]
  simpa only [hlt, heq] using hnearest

theorem nearestAt_valueAt (i : Nat) : NearestAt i (valueAt i) where
  closest j := by
    rw [sub_self, abs_zero]
    exact abs_nonneg _
  even j hne heq := by
    rw [sub_self, abs_zero, abs_eq_zero, sub_eq_zero] at heq
    exact absurd (valueAt_strictMono.injective heq) hne

theorem nearest_of_nearestAt {m : Magnitude} {q : ℚ} (h : NearestAt m.index q) : m.Nearest q where
  closest n := by
    rw [value_eq_valueAt, value_eq_valueAt]
    exact h.closest n.index
  even n hne heq := by
    rw [value_eq_valueAt, value_eq_valueAt] at heq
    rw [← index_mod_two]
    exact h.even n.index (fun hindex => hne (index_injective hindex)) heq

/-- At most one magnitude is nearest: between two even ones there is a third, and it is closer. -/
theorem Nearest.unique {m n : Magnitude} {q : ℚ} (hm : m.Nearest q) (hn : n.Nearest q) :
    m = n := by
  wlog hle : m.index ≤ n.index
  · exact (this hn hm (Nat.le_of_not_le hle)).symm
  by_contra hne
  have hlt : m.index < n.index := Nat.lt_of_le_of_ne hle fun h => hne (index_injective h)
  have heq : |m.value - q| = |n.value - q| := le_antisymm (hm.closest n) (hn.closest m)
  have hmeven := hm.even n (Ne.symm hne) heq.symm
  have hneven := hn.even m hne heq
  rw [← index_mod_two] at hmeven hneven
  have hbetween : m.index + 1 < count := Nat.lt_of_le_of_lt hlt n.index_lt
  have hk := hm.closest (ofIndex (m.index + 1) hbetween)
  have hmk := valueAt_strictMono (Nat.lt_succ_self m.index)
  have hkn : valueAt (m.index + 1) < valueAt n.index := valueAt_strictMono (by omega)
  rw [value_eq_valueAt, value_eq_valueAt, index_ofIndex] at hk
  rw [value_eq_valueAt, value_eq_valueAt] at heq
  have hmiddle : 2 * q = valueAt m.index + valueAt n.index := by
    rcases abs_eq_abs.mp heq with h | h <;> linarith
  rw [abs_sub_comm, abs_of_nonneg (by linarith : 0 ≤ q - valueAt m.index)] at hk
  rcases abs_choice (valueAt (m.index + 1) - q) with h | h <;> rw [h] at hk <;> linarith

/-- The exact value at a place, from the scale 1074 up on. -/
theorem valueAt_add {k j : Nat} (hlow : 2 ^ 52 ≤ j) (hhigh : j ≤ 2 ^ 53) :
    valueAt ((k + 1074) * 2 ^ 52 + j) = j * 2 ^ k := by
  have hunit : (2 : ℚ) ^ 1074 ≠ 0 := by positivity
  rw [valueAt, unitsAt_add (.inr hlow) hhigh, Nat.pow_eq, Nat.cast_mul, Nat.cast_pow,
    Nat.cast_ofNat, pow_add, ← mul_assoc, mul_div_assoc, div_self hunit, mul_one]

theorem overflow_eq_middle : valueAt (count - 1) + valueAt count = 2 * overflow := by
  have hhigh : (2 : ℚ) ^ 1024 = 2 ^ 54 * 2 ^ 970 := pow_add 2 54 970
  have hnext : (2 : ℚ) ^ 971 = 2 * 2 ^ 970 := pow_succ' 2 970
  have hlast : count - 1 = (971 + 1074) * 2 ^ 52 + (2 ^ 53 - 1) := by decide
  have hcount : count = (971 + 1074) * 2 ^ 52 + 2 ^ 53 := by decide
  rw [hlast, hcount, valueAt_add (by decide) (by decide), valueAt_add (by decide) (by decide),
    overflow, hhigh, hnext]
  generalize (2 : ℚ) ^ 970 = x
  push_cast
  ring

/-- The nearest place has a magnitude exactly if the value does not overflow. -/
theorem NearestAt.lt_count_iff {i : Nat} {q : ℚ} (h : NearestAt i q) : i < count ↔ q < overflow := by
  have hlast : valueAt (count - 1) < valueAt count := valueAt_strictMono (by decide)
  have hmiddle := overflow_eq_middle
  constructor
  · intro hi
    by_contra hover
    have hle : valueAt i ≤ valueAt (count - 1) := valueAt_strictMono.monotone (by omega)
    have hclosest := h.closest count
    rw [abs_sub_comm, abs_of_nonneg (by linarith)] at hclosest
    rcases le_total (valueAt count) q with hq | hq
    · rw [abs_sub_comm, abs_of_nonneg (by linarith)] at hclosest
      linarith
    · -- A value halfway to the place after the last goes there, for the last is odd.
      rw [abs_of_nonneg (by linarith)] at hclosest
      have hilast : i = count - 1 := valueAt_strictMono.injective (by linarith)
      have heven := h.even count (by omega) (by
        rw [abs_of_nonneg (by linarith), abs_sub_comm, abs_of_nonneg (by linarith)]
        linarith)
      rw [hilast] at heven
      exact absurd heven (by decide)
  · intro hq
    by_contra hi
    have hle : valueAt count ≤ valueAt i := valueAt_strictMono.monotone (by omega)
    have hclosest := h.closest (count - 1)
    rw [abs_of_nonneg (by linarith)] at hclosest
    rcases abs_choice (valueAt (count - 1) - q) with heq | heq <;> rw [heq] at hclosest <;> linarith

end Magnitude

namespace Binary64

/-- The number that an exact value rounds to, with a sign put on it. -/
inductive Rounds (negative : Bool) (q : ℚ) : Binary64 → Prop
  | finite {m : Magnitude} (below : q < Magnitude.overflow) (nearest : m.Nearest q) :
    Rounds negative q (.finite negative m)
  | infinite (above : Magnitude.overflow ≤ q) : Rounds negative q (.infinity negative)

theorem Rounds.unique {negative : Bool} {q : ℚ} {x y : Binary64} (hx : Rounds negative q x)
    (hy : Rounds negative q y) : x = y := by
  cases hx with
  | finite below hm =>
    cases hy with
    | finite _ hn => rw [hm.unique hn]
    | infinite above => exact absurd above (not_le.mpr below)
  | infinite above =>
    cases hy with
    | finite below _ => exact absurd above (not_le.mpr below)
    | infinite _ => rfl

theorem rounds_nearest? (negative : Bool) (num : Nat) {den : Nat} (hden : 0 < den) :
    Rounds negative (num / den / 2 ^ 1074) (ofMagnitude? negative (Magnitude.nearest? num den)) := by
  have h := Magnitude.nearestAt_nearestPlace num hden
  rw [Magnitude.nearest?_eq]
  split
  next hplace =>
    rw [← Magnitude.index_ofIndex _ hplace] at h
    exact .finite (h.lt_count_iff.mp (Magnitude.index_lt _)) (Magnitude.nearest_of_nearestAt h)
  next hplace =>
    exact .infinite (not_lt.mp (mt h.lt_count_iff.mpr hplace))

/-- Rounding a quotient is correct. -/
theorem rounds_round (negative : Bool) (num : Nat) {den : Nat} (hden : 0 < den) :
    Rounds negative (num / den) (round negative num den) := by
  have hunit : (2 : ℚ) ^ 1074 ≠ 0 := by positivity
  have hnum : ((num * 2 ^ 1074 : Nat) : ℚ) = num * 2 ^ 1074 := by
    simp only [Nat.cast_mul, Nat.cast_pow, Nat.cast_ofNat]
  have h := rounds_nearest? negative (num * 2 ^ 1074) hden
  rwa [hnum, div_right_comm, mul_div_cancel_right₀ _ hunit] at h

/-- A magnitude is what its own value rounds to. -/
theorem rounds_value (negative : Bool) (m : Magnitude) :
    Rounds negative m.value (.finite negative m) := by
  have h := Magnitude.nearestAt_valueAt m.index
  rw [← Magnitude.value_eq_valueAt] at h
  exact .finite (h.lt_count_iff.mp m.index_lt) (Magnitude.nearest_of_nearestAt h)

/-- What is under half the least magnitude but zero rounds to zero. -/
theorem rounds_zero (negative : Bool) {q : ℚ} (hq : 0 ≤ q) (hsmall : 2 * q < Magnitude.valueAt 1) :
    Rounds negative q (.finite negative .zero) := by
  have h := Magnitude.nearestAt_of_bracket (i := 0) (Magnitude.valueAt_zero.trans_le hq)
    (by rw [Nat.zero_add]; linarith)
  rw [if_pos (.inl (by rw [Magnitude.valueAt_zero, zero_add]; exact hsmall))] at h
  exact .finite (h.lt_count_iff.mp (by decide)) (Magnitude.nearest_of_nearestAt h)

end Binary64

namespace Decimal

/-- The exact value. -/
def value (d : Decimal) : ℚ := d.coefficient * 10 ^ d.exponent

theorem value_eq_div (d : Decimal) :
    d.value = d.coefficient * 10 ^ d.exponent.toNat / 10 ^ (-d.exponent).toNat := by
  rw [value, mul_div_assoc]
  congr 1
  rcases le_total 0 d.exponent with h | h
  · have hneg : (-d.exponent).toNat = 0 := by omega
    have hpos : d.exponent = (d.exponent.toNat : Int) := by omega
    rw [hneg, pow_zero, div_one, ← zpow_natCast, ← hpos]
  · have hpos : d.exponent.toNat = 0 := by omega
    have hneg : d.exponent = -((-d.exponent).toNat : Int) := by omega
    rw [hpos, pow_zero, one_div, ← zpow_natCast, ← zpow_neg, ← hneg]

theorem two_pow_le_ten_pow : (2 : ℚ) ^ 1200 ≤ 10 ^ 400 := by
  have hpow : (2 : ℚ) ^ 1200 = (2 ^ 3) ^ 400 := pow_mul 2 3 400
  rw [hpow]
  exact pow_le_pow_left₀ (by norm_num) (by norm_num) 400

/-- Past the exponent 400 a decimal overflows. -/
theorem overflow_le_value {d : Decimal} (hc : d.coefficient ≠ 0) (he : 400 < d.exponent) :
    Magnitude.overflow ≤ d.value := by
  have hone : (1 : ℚ) ≤ d.coefficient := by exact_mod_cast Nat.pos_of_ne_zero hc
  calc
    Magnitude.overflow ≤ 2 ^ 1024 := sub_le_self _ (by positivity)
    _ ≤ 2 ^ 1200 := pow_le_pow_right₀ (by norm_num) (by norm_num)
    _ ≤ 10 ^ 400 := two_pow_le_ten_pow
    _ = 10 ^ (400 : Int) := (zpow_ofNat 10 400).symm
    _ ≤ 10 ^ d.exponent := zpow_le_zpow_right₀ (by norm_num) he.le
    _ ≤ d.value := le_mul_of_one_le_left (by positivity) hone

/-- A decimal whose exponent outweighs its coefficient by 400 is under half the least magnitude but
zero. -/
theorem value_lt_half {d : Decimal} (he : d.exponent < -(400 + d.coefficient.log2)) :
    2 * d.value < Magnitude.valueAt 1 := by
  obtain ⟨n, hn⟩ : ∃ n, n = d.coefficient.log2 := ⟨_, rfl⟩
  have hunit : Magnitude.valueAt 1 = 1 / 2 ^ 1074 := by
    rw [Magnitude.valueAt, Magnitude.unitsAt, if_pos (by decide), Nat.cast_one]
  have hc : (d.coefficient : ℚ) < 2 ^ (n + 1) := by
    rw [hn]
    exact_mod_cast Nat.lt_log2_self
  have hpow : (10 : ℚ) ^ d.exponent ≤ 1 / 10 ^ (n + 400) := by
    rw [one_div, ← zpow_natCast, ← zpow_neg]
    exact zpow_le_zpow_right₀ (by norm_num) (by push_cast; omega)
  have hsmall : (2 : ℚ) ^ (n + 2) * 2 ^ 1074 ≤ 10 ^ (n + 400) := by
    calc
      (2 : ℚ) ^ (n + 2) * 2 ^ 1074 = 2 ^ n * 2 ^ 1076 := by
        rw [pow_add, mul_assoc, ← pow_add 2 2 1074]
      _ ≤ 2 ^ n * 2 ^ 1200 :=
        mul_le_mul_of_nonneg_left (pow_le_pow_right₀ (by norm_num) (by norm_num)) (by positivity)
      _ ≤ 10 ^ n * 10 ^ 400 :=
        mul_le_mul (pow_le_pow_left₀ (by norm_num) (by norm_num) n) two_pow_le_ten_pow
          (by positivity) (by positivity)
      _ = 10 ^ (n + 400) := (pow_add 10 n 400).symm
  calc
    2 * d.value ≤ 2 * (d.coefficient * (1 / 10 ^ (n + 400))) :=
      mul_le_mul_of_nonneg_left (mul_le_mul_of_nonneg_left hpow (Nat.cast_nonneg _)) (by norm_num)
    _ < 2 * (2 ^ (n + 1) * (1 / 10 ^ (n + 400))) :=
      mul_lt_mul_of_pos_left (mul_lt_mul_of_pos_right hc (by positivity)) (by norm_num)
    _ = 2 ^ (n + 2) / 10 ^ (n + 400) := by
      rw [mul_one_div, ← mul_div_assoc, ← pow_succ']
    _ ≤ Magnitude.valueAt 1 := by
      rw [hunit, div_le_div_iff₀ (by positivity) (by positivity), one_mul]
      exact hsmall

/-- Reading a decimal as a number is correctly rounded. -/
theorem rounds_toBinary64 (negative : Bool) (d : Decimal) :
    Binary64.Rounds negative d.value (d.toBinary64 negative) := by
  have hvalue : 0 ≤ d.value := mul_nonneg (Nat.cast_nonneg _) (by positivity)
  unfold toBinary64 magnitude?
  split
  next hc =>
    have hzero : d.value = 0 := by rw [value, hc, Nat.cast_zero, zero_mul]
    refine Binary64.rounds_zero negative hvalue ?_
    rw [hzero, mul_zero, ← Magnitude.valueAt_zero]
    exact Magnitude.valueAt_strictMono Nat.one_pos
  next hc =>
    split
    next he => exact .infinite (overflow_le_value hc he)
    next =>
      split
      next he => exact Binary64.rounds_zero negative hvalue (value_lt_half he)
      next =>
        have hden : 0 < Nat.pow 10 (-d.exponent).toNat := Nat.pow_pos (by decide)
        have h := Binary64.rounds_round negative (d.coefficient * Nat.pow 10 d.exponent.toNat) hden
        rwa [Nat.pow_eq, Nat.pow_eq, Nat.cast_mul, Nat.cast_pow, Nat.cast_pow, Nat.cast_ofNat,
          ← value_eq_div] at h

end Decimal
end EcmaCore
