import EcmaCore.Proofs.Arithmetic

/-!
# Machine words

The words of a number are the residues of its integer part. They are computed on numbers, and what
makes them right is that none of the steps rounds and that each cast finds an integer in its range.
-/
namespace EcmaCore

/-- One sum makes a remainder nonnegative that has the sign of the dividend. -/
theorem emod_eq_of_tmod (t : Int) {m : Int} (hm : 0 < m) :
    t % m = if t.tmod m < 0 then t.tmod m + m else t.tmod m := by
  have hlow := Int.lt_tmod_of_pos t hm
  have hhigh := Int.tmod_lt_of_pos t hm
  have hsplit : t % m = t.tmod m % m := by
    conv_lhs => rw [← Int.tmod_add_mul_tdiv t m, Int.add_mul_emod_self_left]
  rw [hsplit]
  split
  next hneg => rw [← Int.add_emod_right, Int.emod_eq_of_lt (by omega) (by omega)]
  next hneg => rw [Int.emod_eq_of_lt (by omega) hhigh]

theorem uint32_toNat_ofInt {k : Int} (hlow : 0 ≤ k) (hhigh : k < 2 ^ 32) :
    ((UInt32.ofInt k).toNat : Int) = k := by
  rw [UInt32.ofInt, UInt32.toNat_ofNat']
  omega

theorem uint16_toNat_ofInt {k : Int} (hlow : 0 ≤ k) (hhigh : k < 2 ^ 16) :
    ((UInt16.ofInt k).toNat : Int) = k := by
  rw [UInt16.ofInt, UInt16.toNat_ofNat']
  omega

/-- A signed word and its unsigned reading differ by the modulus or not at all. -/
theorem toNat_toUInt32 (w : Int32) : (w.toUInt32.toNat : Int) = w.toInt % 2 ^ 32 := by
  have hword : w.toInt = (w.toUInt32.toNat : Int).bmod (2 ^ 32) :=
    BitVec.toInt_eq_toNat_bmod w.toBitVec
  have hlt := w.toUInt32.toNat_lt
  have hmod : w.toInt % 2 ^ 32 = w.toUInt32.toNat % 2 ^ 32 := by
    rw [hword]
    exact Int.bmod_emod
  omega

namespace Binary64

variable {x : Binary64} {t k : Int} {e : Nat}

theorem isInt_two_pow (he : e ≤ 52) : (ofNat (2 ^ e)).IsInt (2 ^ e) := by
  have hlt : 2 ^ e < 2 ^ 53 := Nat.pow_lt_pow_right Nat.one_lt_two (by omega)
  exact_mod_cast isInt_ofNat hlt

theorem isInt_zero : zero.IsInt 0 := by
  rw [IsInt, zero, units?, signed, Int.zero_mul]
  rfl

/-- The words of a number whose integer part is `t`. -/
structure Residues (x : Binary64) (t : Int) : Prop where
  uint32 : (x.toUInt32.toNat : Int) = t % 2 ^ 32
  uint16 : (x.toUInt16.toNat : Int) = t % 2 ^ 16
  int32 : x.toInt32.toInt % 2 ^ 32 = t % 2 ^ 32
  least : -2 ^ 31 ≤ x.toInt32.toInt
  greatest : x.toInt32.toInt < 2 ^ 31

/-- The steps to the words of a number whose integer part is `t`: each gives the exact result, and
each cast the very integer it is given. The modulus is any power of two up to `2 ^ 52`. -/
structure StepsExact (x : Binary64) (t : Int) : Prop where
  truncated : x.truncate.value? = some (t : ℚ)
  divided : ∀ e ≤ 52,
    (x.truncate.remainder (ofNat (2 ^ e))).value? = some ((t.tmod (2 ^ e) : Int) : ℚ)
  summed : ∀ e ≤ 52, t.tmod (2 ^ e) < 0 →
    ((x.truncate.remainder (ofNat (2 ^ e))).plus (ofNat (2 ^ e))).value? =
      some ((t.tmod (2 ^ e) + 2 ^ e : Int) : ℚ)
  reduced : ∀ e ≤ 52, (x.reduce (ofNat (2 ^ e))).value? = some ((t % 2 ^ e : Int) : ℚ)
  centred : (x.reduce (ofNat (2 ^ 32))).centre.value? = some (t.bmod (2 ^ 32) : ℚ)
  castInt32 : (x.reduce (ofNat (2 ^ 32))).centre.saturate (-2 ^ 31) (2 ^ 31 - 1) = t.bmod (2 ^ 32)
  castUInt32 : (x.reduce (ofNat (2 ^ 32))).saturate 0 (2 ^ 32 - 1) = t % 2 ^ 32
  castUInt16 : (x.reduce (ofNat (2 ^ 16))).saturate 0 (2 ^ 16 - 1) = t % 2 ^ 16

section Steps
variable (h : x.truncate.IsInt t)
include h

theorem isInt_remainder (he : e ≤ 52) :
    (x.truncate.remainder (ofNat (2 ^ e))).IsInt (t.tmod (2 ^ e)) := by
  have hpos : (0 : Int) < 2 ^ e := Int.pow_pos (by decide)
  have hle : (2 : Int) ^ e ≤ 2 ^ 53 := pow_le_pow_right₀ (by decide) (by omega)
  exact h.remainder (isInt_two_pow he) hpos hle

/-- The sum that follows a negative remainder. -/
theorem isInt_sum (he : e ≤ 52) (hneg : t.tmod (2 ^ e) < 0) :
    ((x.truncate.remainder (ofNat (2 ^ e))).plus (ofNat (2 ^ e))).IsInt
      (t.tmod (2 ^ e) + 2 ^ e) := by
  have hpos : (0 : Int) < 2 ^ e := Int.pow_pos (by decide)
  have hle : (2 : Int) ^ e ≤ 2 ^ 52 := pow_le_pow_right₀ (by decide) he
  have hlow := Int.lt_tmod_of_pos t hpos
  exact (isInt_remainder h he).plus (isInt_two_pow he) (by omega)

theorem isInt_reduce (he : e ≤ 52) : (x.reduce (ofNat (2 ^ e))).IsInt (t % 2 ^ e) := by
  cases x with
  | finite s m =>
    rw [reduce]
    split
    next hzero =>
      have hx : (finite s m).IsInt 0 := by
        rw [IsInt, units?, signed, Magnitude.units, hzero, Nat.zero_mul, Int.zero_mul]
        split <;> rfl
      rw [h.unique hx.truncate, Int.zero_emod]
      exact isInt_zero
    next =>
      have hless := (isInt_remainder h he).less_iff isInt_zero
      rw [emod_eq_of_tmod _ (Int.pow_pos (by decide))]
      by_cases hneg : t.tmod (2 ^ e) < 0
      · rw [if_pos (hless.mpr hneg), if_pos hneg]
        exact isInt_sum h he hneg
      · rw [if_neg (mt hless.mp hneg), if_neg hneg]
        exact isInt_remainder h he
  | _ => cases h

end Steps

theorem isInt_centre (h : x.IsInt k) (hlow : 0 ≤ k) (hhigh : k < 2 ^ 32) :
    x.centre.IsInt (k.bmod (2 ^ 32)) := by
  have hleast := h.atLeast_iff (isInt_two_pow (e := 31) (by decide))
  have hbmod : k.bmod (2 ^ 32) = if 2 ^ 31 ≤ k then k - 2 ^ 32 else k := by
    rw [Int.bmod]
    split <;> split <;> omega
  rw [centre, hbmod]
  split
  next hupper =>
    rw [if_pos (hleast.mp hupper)]
    exact h.minus (isInt_two_pow (by decide)) (by omega)
  next hlower =>
    rw [if_neg (mt hleast.mpr hlower)]
    exact h

theorem bmod_bounds (t : Int) : -2 ^ 31 ≤ t.bmod (2 ^ 32) ∧ t.bmod (2 ^ 32) < 2 ^ 31 := by
  have hlow := Int.le_bmod (x := t) (m := 2 ^ 32) (by decide)
  have hhigh := Int.bmod_lt (x := t) (m := 2 ^ 32) (by decide)
  omega

theorem stepsExact (h : x.truncate.IsInt t) : x.StepsExact t := by
  have hreduced := isInt_reduce (e := 32) h (by decide)
  have hshort := isInt_reduce (e := 16) h (by decide)
  have hcentred := isInt_centre hreduced (by omega) (by omega)
  have hmod : (t % 2 ^ 32).bmod (2 ^ 32) = t.bmod (2 ^ 32) := Int.emod_bmod t (2 ^ 32)
  rw [hmod] at hcentred
  have hbounds := bmod_bounds t
  exact {
    truncated := h.value?
    divided := fun e he => (isInt_remainder h he).value?
    summed := fun e he hneg => (isInt_sum h he hneg).value?
    reduced := fun e he => (isInt_reduce h he).value?
    centred := hcentred.value?
    castInt32 := hcentred.saturate hbounds.1 (by omega)
    castUInt32 := hreduced.saturate (by omega) (by omega)
    castUInt16 := hshort.saturate (by omega) (by omega) }

theorem StepsExact.residues (h : x.StepsExact t) : x.Residues t := by
  have hbounds := bmod_bounds t
  have hint32 : x.toInt32.toInt = t.bmod (2 ^ 32) := by
    rw [toInt32, h.castInt32]
    exact Int32.toInt_ofInt_of_le hbounds.1 hbounds.2
  have hmod : t.bmod (2 ^ 32) % 2 ^ 32 = t % 2 ^ 32 := Int.bmod_emod
  refine ⟨?_, ?_, hint32 ▸ hmod, hint32 ▸ hbounds.1, hint32 ▸ hbounds.2⟩
  · rw [toUInt32, h.castUInt32]
    exact uint32_toNat_ofInt (by omega) (by omega)
  · rw [toUInt16, h.castUInt16]
    exact uint16_toNat_ofInt (by omega) (by omega)

theorem Residues.ext {y : Binary64} (hx : x.Residues t) (hy : y.Residues t) :
    x.toInt32 = y.toInt32 ∧ x.toUInt32 = y.toUInt32 ∧ x.toUInt16 = y.toUInt16 := by
  obtain ⟨hx32, hx16, hxint, hxlow, hxhigh⟩ := hx
  obtain ⟨hy32, hy16, hyint, hylow, hyhigh⟩ := hy
  refine ⟨Int32.toInt_inj.mp ?_, UInt32.toNat_inj.mp ?_, UInt16.toNat_inj.mp ?_⟩ <;> omega

theorem words_zero : zero.toInt32 = 0 ∧ zero.toUInt32 = 0 ∧ zero.toUInt16 = 0 := by
  obtain ⟨h32, h16, hint, hlow, hhigh⟩ := (stepsExact isInt_zero.truncate).residues
  refine ⟨Int32.toInt_inj.mp ?_, UInt32.toNat_inj.mp ?_, UInt16.toNat_inj.mp ?_⟩
  · rw [Int32.toInt_zero]
    omega
  · rw [UInt32.toNat_zero]
    omega
  · rw [UInt16.toNat_zero]
    omega

/-- A number that is not finite has the words of zero. -/
theorem words_of_not_finite (h : x.units? = none) :
    x.toInt32 = 0 ∧ x.toUInt32 = 0 ∧ x.toUInt16 = 0 := by
  have hreduce : ∀ modulus, x.reduce modulus = zero.reduce modulus := by
    intro modulus
    cases x with
    | finite s m => cases h
    | _ => rfl
  rw [toInt32, toUInt32, toUInt16, hreduce, hreduce]
  exact words_zero

/-- The signed word is the unsigned one read with a sign, and the short word its lower half. -/
theorem words_agree (x : Binary64) :
    x.toInt32.toUInt32 = x.toUInt32 ∧ x.toUInt16.toNat = x.toUInt32.toNat % 2 ^ 16 := by
  cases h : x.units? with
  | none =>
    obtain ⟨hint, h32, h16⟩ := words_of_not_finite h
    rw [hint, h32, h16]
    exact ⟨rfl, rfl⟩
  | some u =>
    obtain ⟨h32, h16, hint, -, -⟩ := (stepsExact (isInt_truncate h)).residues
    have hword := toNat_toUInt32 x.toInt32
    exact ⟨UInt32.toNat_inj.mp (by omega), by omega⟩

/-- Words depend on the integral part alone. -/
theorem words_toIntegral (x : Binary64) :
    x.toIntegral.toInt32 = x.toInt32 ∧ x.toIntegral.toUInt32 = x.toUInt32 ∧
      x.toIntegral.toUInt16 = x.toUInt16 := by
  cases x with
  | nan =>
    obtain ⟨hint, h32, h16⟩ := words_of_not_finite (x := nan) rfl
    rw [hint, h32, h16]
    exact words_zero
  | infinity s => exact ⟨rfl, rfl, rfl⟩
  | finite s m =>
    have htrunc : (finite s m).truncate.IsInt _ := isInt_truncate rfl
    exact (stepsExact htrunc.truncate).residues.ext (stepsExact htrunc).residues

/-- The words of a number are exact residues. A number with a value has those of its integer part,
and no step on the way to them rounds or saturates; every other number has the words of zero. The
three words agree with one another and do not change with what follows the point. -/
theorem words_are_exact_residues (x : Binary64) :
    (∀ q, x.value? = some q → x.Residues (wholePart q) ∧ x.StepsExact (wholePart q)) ∧
    (x.value? = none → x.toInt32 = 0 ∧ x.toUInt32 = 0 ∧ x.toUInt16 = 0) ∧
    (x.toInt32.toUInt32 = x.toUInt32 ∧ x.toUInt16.toNat = x.toUInt32.toNat % 2 ^ 16) ∧
    (x.toIntegral.toInt32 = x.toInt32 ∧ x.toIntegral.toUInt32 = x.toUInt32 ∧
      x.toIntegral.toUInt16 = x.toUInt16) := by
  refine ⟨?_, ?_, x.words_agree, x.words_toIntegral⟩
  · intro q hq
    rw [value?_eq_map, Option.map_eq_some_iff] at hq
    obtain ⟨u, hu, rfl⟩ := hq
    rw [wholePart_div u Magnitude.one_pos]
    have hsteps := stepsExact (isInt_truncate hu)
    exact ⟨hsteps.residues, hsteps⟩
  · intro hq
    rw [value?_eq_map, Option.map_eq_none_iff] at hq
    exact words_of_not_finite hq

end Binary64
end EcmaCore
