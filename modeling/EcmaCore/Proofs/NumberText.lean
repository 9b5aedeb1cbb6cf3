import EcmaCore.Conversion
import EcmaCore.Number.Layout
import EcmaCore.Proofs.Grammar

/-!
# Numbers and their texts

The layout of the language, apart from any formatter, and what is asked of one: that it lays out the
digits of a decimal that rounds to the number. Every layout of a decimal is a numeral of its value,
and so a number comes back from its text, whichever digits the formatter takes. The shortest decimal
of a magnitude rounds to the magnitude, so the formatter that writes it is one of these.
-/
namespace EcmaCore

namespace Decimal

theorem toBinary64_congr {d d' : Decimal} (h : d.value = d'.value) (negative : Bool) :
    d.toBinary64 negative = d'.toBinary64 negative := by
  have hd := d.rounds_toBinary64 negative
  rw [h] at hd
  exact hd.unique (d'.rounds_toBinary64 negative)

theorem magnitude?_of_value {d : Decimal} {m : Magnitude} (h : d.value = m.value) :
    d.magnitude? = some m := by
  have hd := d.rounds_toBinary64 false
  rw [h] at hd
  have heq := hd.unique (Binary64.rounds_value false m)
  rw [toBinary64] at heq
  cases hm : d.magnitude? with
  | none =>
    rw [hm] at heq
    cases heq
  | some n =>
    rw [hm] at heq
    cases heq
    rfl

end Decimal

namespace Magnitude

/-- A fraction over a power of two is a decimal. -/
theorem mul_five_pow (u : ℚ) (n : Nat) : u * 5 ^ n * 10 ^ (-(n : Int)) = u / 2 ^ n := by
  have hten : (10 : ℚ) ^ n = 5 ^ n * 2 ^ n := by
    rw [← mul_pow]
    norm_num
  have hfive : (5 : ℚ) ^ n ≠ 0 := by positivity
  rw [zpow_neg, zpow_natCast, hten, ← div_eq_mul_inv, mul_comm u, mul_div_mul_left u _ hfive]

theorem value_toDecimal (m : Magnitude) : m.toDecimal.value = m.value := by
  have h := mul_five_pow m.units 1074
  rw [Nat.cast_ofNat] at h
  rw [Decimal.value, value, ← h]
  simp only [toDecimal, Nat.cast_mul, Nat.cast_pow, Nat.cast_ofNat]

theorem nearerNeighbour_cases (tie : TieRule) (m : Magnitude) (low : Nat) (e : Int) :
    m.nearerNeighbour tie low e = low ∨ m.nearerNeighbour tie low e = low + 1 := by
  unfold nearerNeighbour
  cases tie <;> simp only <;> split_ifs <;> omega

theorem magnitude?_of_onGrid? {tie : TieRule} {m : Magnitude} {e : Int} {d : Decimal}
    (h : m.onGrid? tie e = some d) : d.magnitude? = some m := by
  simp only [onGrid?] at h
  split at h
  next hlow =>
    split at h
    next hhigh =>
      obtain rfl := Option.some.inj h
      rcases m.nearerNeighbour_cases tie (m.stepsBelow e) e with heq | heq <;> rw [heq]
      · exact hlow
      · exact hhigh
    next =>
      obtain rfl := Option.some.inj h
      exact hlow
  next =>
    split at h
    next hhigh =>
      obtain rfl := Option.some.inj h
      exact hhigh
    next => cases h

/-- By induction on the grids; the last resort is the value itself. -/
theorem magnitude?_searchGrids (tie : TieRule) (m : Magnitude) (grids : Nat) (e : Int) :
    (m.searchGrids tie grids e).magnitude? = some m := by
  induction grids generalizing e with
  | zero =>
    rw [searchGrids]
    exact Decimal.magnitude?_of_value m.value_toDecimal
  | succ grids ih =>
    rw [searchGrids]
    cases hgrid : m.onGrid? tie e with
    | none => exact ih (e - 1)
    | some d => exact magnitude?_of_onGrid? hgrid

/-- The shortest decimal reads back. -/
theorem magnitude?_shortest (tie : TieRule) (m : Magnitude) :
    (m.shortest tie).magnitude? = some m :=
  magnitude?_searchGrids tie m _ _

end Magnitude

/-- An exponent with its sign. -/
def exponentText (e : Int) : List Char := (if e < 0 then '-' else '+') :: Nat.toDigits 10 e.natAbs

/-- The layout of the language: digits, the place of the point among or around them, and the text.
The place is counted from before the first digit. Far from the digits it is given by an exponent. -/
inductive Layout : List Char → Int → List Char → Prop
  | whole {ds : List Char} (zeros : Nat) (near : ds.length + zeros ≤ 21) :
    Layout ds (ds.length + zeros : Nat) (ds ++ .replicate zeros '0')
  | point {ds fs : List Char} (whole : ds ≠ []) (fraction : fs ≠ []) (near : ds.length ≤ 21) :
    Layout (ds ++ fs) ds.length (ds ++ '.' :: fs)
  | small {ds : List Char} (zeros : Nat) (near : zeros ≤ 5) :
    Layout ds (-zeros) ('0' :: '.' :: (.replicate zeros '0' ++ ds))
  | digit {c : Char} {place : Int} (far : place < -5 ∨ 21 < place) :
    Layout [c] place ([c] ++ 'e' :: exponentText (place - 1))
  | digits {c : Char} {fs : List Char} {place : Int} (fraction : fs ≠ [])
    (far : place < -5 ∨ 21 < place) :
    Layout (c :: fs) place ((c :: '.' :: fs) ++ 'e' :: exponentText (place - 1))

/-- The decimal of digits with the point at a place. -/
def Decimal.ofPlace (ds : List Char) (place : Int) : Decimal :=
  ⟨Nat.ofDigitChars 10 ds 0, place - ds.length⟩

/-- A text is a layout of these digits, after the sign, and they round to the number. -/
structure Writes (text : String) (negative : Bool) (m : Magnitude) (ds : List Char) (place : Int) :
    Prop where
  ne : ds ≠ []
  digits : Digits ds
  layout : ∃ body, text.toList = (if negative then ['-'] else []) ++ body ∧ Layout ds place body
  rounds : Binary64.Rounds negative (Decimal.ofPlace ds place).value (.finite negative m)

/-- What is asked of a formatter. The digits need be neither few nor the nearest. -/
def Formatter.Faithful (format : Formatter) : Prop :=
  ∀ negative m, m.significand ≠ 0 → ∃ ds place, Writes (format negative m) negative m ds place

/-- The texts of a decimal without a sign. -/
def DecimalText (text : List Char) (d : Decimal) : Prop :=
  ∃ mantissa whole fraction tail e, text = mantissa ++ tail ∧ Mantissa mantissa whole fraction ∧
    Exponent tail e ∧ (Decimal.ofDigits whole fraction e).value = d.value

theorem digits_toDigits (n : Nat) : Digits (Nat.toDigits 10 n) :=
  fun _ hc => Nat.isDigit_of_mem_toDigits (by decide) (by decide) hc

theorem digits_zeros (n : Nat) : Digits (.replicate n '0') := by
  intro c hc
  obtain rfl := List.eq_of_mem_replicate hc
  rfl

theorem Digits.append {cs ds : List Char} (hcs : Digits cs) (hds : Digits ds) :
    Digits (cs ++ ds) :=
  fun c hc => (List.mem_append.mp hc).elim (hcs c) (hds c)

theorem Digits.of_subset {cs ds : List Char} (h : Digits ds) (hsub : cs ⊆ ds) : Digits cs :=
  fun c hc => h c (hsub hc)

/-- An exponent reads as its number. -/
theorem exponent_exponentText (e : Int) : Exponent ('e' :: exponentText e) e := by
  have hsign : Sign [if e < 0 then '-' else '+'] (decide (e < 0)) := by
    by_cases he : e < 0
    · rw [if_pos he, decide_eq_true he]
      exact .minus
    · rw [if_neg he, decide_eq_false he]
      exact .plus
  have h := Exponent.some (.inl rfl) hsign Nat.toDigits_ne_nil (digits_toDigits e.natAbs)
  rw [Nat.ofDigitChars_ten_toDigits] at h
  have hvalue : (if decide (e < 0) = true then -(e.natAbs : Int) else e.natAbs) = e := by
    split <;> simp only [decide_eq_true_eq] at * <;> omega
  rw [hvalue] at h
  exact h

section
variable {ds fs : List Char}

/-- Zeros after the digits stand for a power of ten. -/
theorem decimalText_whole (hne : ds ≠ []) (hds : Digits ds) (zeros : Nat) :
    DecimalText (ds ++ .replicate zeros '0') (.ofPlace ds (ds.length + zeros : Nat)) := by
  refine ⟨_, _, [], [], 0, (List.append_nil _).symm,
    .whole (by simp [hne]) (hds.append (digits_zeros _)), .none, ?_⟩
  rw [Decimal.ofDigits, List.append_nil, Nat.ofDigitChars_append, Nat.ofDigitChars_replicate_zero,
    Decimal.ofPlace, Decimal.value, Decimal.value]
  simp [mul_comm]

/-- A point among the digits. -/
theorem decimalText_point (hne : ds ≠ []) (hds : Digits (ds ++ fs)) :
    DecimalText (ds ++ '.' :: fs) (.ofPlace (ds ++ fs) ds.length) := by
  refine ⟨_, ds, fs, [], 0, (List.append_nil _).symm, .point hne
    (hds.of_subset (List.subset_append_left _ _)) (hds.of_subset (List.subset_append_right _ _)),
    .none, ?_⟩
  have hexp : 0 - (fs.length : Int) = ds.length - (ds ++ fs).length := by
    rw [List.length_append]
    omega
  rw [Decimal.ofDigits, Decimal.ofPlace, hexp]

/-- A point before the digits, with zeros between. -/
theorem decimalText_small (hds : Digits ds) (zeros : Nat) :
    DecimalText ('0' :: '.' :: (.replicate zeros '0' ++ ds)) (.ofPlace ds (-zeros)) := by
  have hzero : Digits ['0'] := digits_zeros 1
  refine ⟨_, _, _, [], 0, (List.append_nil _).symm,
    .point (List.cons_ne_nil _ _) hzero ((digits_zeros zeros).append hds), .none, ?_⟩
  have hexp : 0 - ((List.replicate zeros '0' ++ ds).length : Int) = -zeros - ds.length := by
    rw [List.length_append, List.length_replicate]
    omega
  have hzeros : ['0'] ++ (.replicate zeros '0' ++ ds) = List.replicate (zeros + 1) '0' ++ ds := rfl
  rw [Decimal.ofDigits, hexp, hzeros, Nat.ofDigitChars_append, Nat.ofDigitChars_replicate_zero,
    Nat.mul_zero, Decimal.ofPlace]

/-- One digit before the point, and an exponent. -/
theorem decimalText_exponent {text : List Char} {c : Char} (h : Mantissa text [c] fs)
    (place : Int) :
    DecimalText (text ++ 'e' :: exponentText (place - 1)) (.ofPlace (c :: fs) place) := by
  refine ⟨text, [c], fs, _, place - 1, rfl, h, exponent_exponentText _, ?_⟩
  have hexp : place - 1 - (fs.length : Int) = place - (c :: fs).length := by
    rw [List.length_cons]
    omega
  rw [Decimal.ofDigits, Decimal.ofPlace, hexp, List.singleton_append]

end

/-- Every layout of digits is a text of their decimal. -/
theorem decimalText_of_layout {ds text : List Char} {place : Int} (h : Layout ds place text)
    (hne : ds ≠ []) (hds : Digits ds) : DecimalText text (.ofPlace ds place) := by
  cases h with
  | whole zeros => exact decimalText_whole hne hds zeros
  | point hwhole => exact decimalText_point hwhole hds
  | small zeros => exact decimalText_small hds zeros
  | digit => exact decimalText_exponent (.whole hne hds) place
  | @digits c fs _ hfraction =>
    have hfirst : Digits [c] := hds.of_subset (by simp)
    have hrest : Digits fs := hds.of_subset (List.subset_cons_self c fs)
    exact decimalText_exponent (.point (List.cons_ne_nil c []) hfirst hrest) place

/-- The text of a number that is finite and not zero stands for a decimal that rounds to it. -/
theorem Writes.standsFor {text : String} {negative : Bool} {m : Magnitude} {ds : List Char}
    {place : Int} (h : Writes text negative m ds place) :
    ∃ d, (Text.ofString text).StandsFor (.decimal negative d) ∧
      d.toBinary64 negative = .finite negative m := by
  obtain ⟨body, htext, hlayout⟩ := h.layout
  obtain ⟨mantissa, whole, fraction, tail, e, rfl, hmantissa, hexponent, hvalue⟩ :=
    decimalText_of_layout hlayout h.ne h.digits
  have hsign : Sign (if negative then ['-'] else []) negative := by
    cases negative
    · exact .none
    · exact .minus
  refine ⟨_, ⟨[], _, [], ?_, by simp, by simp, .decimal hsign hmantissa hexponent⟩, ?_⟩
  · rw [List.nil_append, List.append_nil, ← htext, String.ofList_toList]
  · rw [Decimal.toBinary64_congr hvalue]
    exact ((Decimal.ofPlace ds place).rounds_toBinary64 negative).unique h.rounds

theorem Layout.point_at {ds : List Char} {n : Nat} (hn : 0 < n) (hlt : n < ds.length)
    (near : n ≤ 21) : Layout ds n (ds.take n ++ '.' :: ds.drop n) := by
  have hlength : (ds.take n).length = n := List.length_take_of_le hlt.le
  have hwhole : ds.take n ≠ [] := List.ne_nil_of_length_pos (by omega)
  have hfraction : ds.drop n ≠ [] := List.ne_nil_of_length_pos (by simpa using hlt)
  have h := Layout.point hwhole hfraction (by omega)
  rwa [List.take_append_drop, hlength] at h

/-- The place of the point is one more than the exponent that is written. -/
theorem toList_exponentSign (place : Int) :
    (if place ≤ 0 then "-" else "+").toList = [if place - 1 < 0 then '-' else '+'] := by
  by_cases hneg : place ≤ 0
  · rw [if_pos hneg, if_pos (by omega)]
    rfl
  · rw [if_neg hneg, if_neg (by omega)]
    rfl

/-- A decimal is laid out as the language has it. -/
theorem layout_layOut (d : Decimal) :
    Layout (Nat.toDigits 10 d.coefficient) ((Nat.toDigits 10 d.coefficient).length + d.exponent)
      (d.layOut .language).toList := by
  have hne : Nat.toDigits 10 d.coefficient ≠ [] := Nat.toDigits_ne_nil
  have hleast : NumberLayout.language.leastPlace = -5 := rfl
  have hgreatest : NumberLayout.language.greatestPlace = 21 := rfl
  have hend : NumberLayout.language.wholeEnd = "" := rfl
  have hplus : NumberLayout.language.exponentPlus = "+" := rfl
  rw [Decimal.layOut]
  generalize Nat.toDigits 10 d.coefficient = ds at *
  generalize d.exponent = e at *
  obtain ⟨place, hplace⟩ : ∃ place, (ds.length : Int) + e = place := ⟨_, rfl⟩
  simp only [hplace, hleast, hgreatest, hend, hplus]
  split
  next hnear =>
    split
    next hwhole =>
      obtain ⟨zeros, rfl⟩ := Int.eq_ofNat_of_zero_le hwhole
      obtain rfl : ((ds.length + zeros : Nat) : Int) = place := by omega
      rw [String.append_empty, String.toList_ofList]
      exact .whole zeros (by omega)
    next hwhole =>
      split
      next hpoint =>
        obtain ⟨n, rfl⟩ := Int.eq_ofNat_of_zero_le hpoint.le
        rw [String.toList_ofList]
        exact .point_at (by omega) (by omega) (by omega)
      next hpoint =>
        obtain ⟨zeros, hzeros⟩ := Int.eq_ofNat_of_zero_le (Int.neg_nonneg.mpr (not_lt.mp hpoint))
        obtain rfl : -(zeros : Int) = place := by omega
        rw [String.toList_ofList, neg_neg]
        exact .small zeros (by omega)
  next hfar =>
    obtain ⟨c, fs, rfl⟩ := List.exists_cons_of_ne_nil hne
    simp only [String.toList_append, String.toList_ofList, Nat.toString_eq_repr, Nat.toList_repr,
      List.append_assoc, toList_exponentSign]
    cases fs with
    | nil => exact .digit (by omega)
    | cons f fs => exact .digits (List.cons_ne_nil f fs) (by omega)

/-- The shortest decimal is one that rounds to the number, so the formatter at hand will do. -/
theorem faithful_shortest : Formatter.shortest.Faithful := by
  intro negative m _
  let d := m.shortest .toEven
  refine ⟨_, _, Nat.toDigits_ne_nil, digits_toDigits d.coefficient,
    ⟨_, ?_, layout_layOut d⟩, ?_⟩
  · rw [Formatter.shortest, Formatter.ofLayout, String.toList_append]
    cases negative <;> rfl
  · have hround := d.rounds_toBinary64 negative
    have hread : d.toBinary64 negative = .finite negative m := by
      rw [Decimal.toBinary64, Magnitude.magnitude?_shortest]
      rfl
    rw [hread] at hround
    rw [Decimal.ofPlace, Nat.ofDigitChars_ten_toDigits, add_sub_cancel_left]
    exact hround

/-- The names and zero, which no formatter writes, read back. -/
theorem toNumber_names :
    (Text.ofString "NaN").toNumber = .nan ∧ (Text.ofString "0").toNumber = .zero ∧
    (Text.ofString "Infinity").toNumber = .infinity false ∧
    (Text.ofString "-Infinity").toNumber = .infinity true := by
  decide +kernel

section
variable {format : Formatter}

theorem toText_of_isZero {x : Binary64} (hx : x.isZero = true) : x.toText format = "0" := by
  obtain ⟨s, rfl⟩ := Binary64.isZero_iff.mp hx
  rfl

/-- A number comes back from its text, but minus zero as zero. -/
theorem toNumber_toText (faithful : format.Faithful) (x : Binary64) :
    (Text.ofString (x.toText format)).toNumber = if x = .finite true .zero then .zero else x := by
  obtain ⟨hnan, hzero, hplus, hminus⟩ := toNumber_names
  cases x with
  | nan => exact hnan
  | infinity negative =>
    cases negative
    · exact hplus
    · exact hminus
  | finite negative m =>
    by_cases hm : m.significand = 0
    · obtain rfl := Magnitude.eq_zero_of_significand hm
      rw [toText_of_isZero rfl, hzero]
      cases negative <;> rfl
    · obtain ⟨ds, place, hwrites⟩ := faithful negative m hm
      obtain ⟨d, hstands, hround⟩ := hwrites.standsFor
      have hne : Binary64.finite negative m ≠ .finite true .zero := by
        rintro heq
        cases heq
        exact hm rfl
      rw [Binary64.toText, if_neg hm, toNumber_eq_value hstands, if_neg hne]
      exact hround

/-- Whichever digits a formatter takes, every number but minus zero comes back from its text, and
minus zero comes back as zero. So two numbers with one text are the same, or they are the two
zeros. -/
theorem number_text_reads_back (faithful : format.Faithful) (x y : Binary64) :
    Value.sameValue (.number ((Value.number x).toText format).toNumber)
      (.number (if x = .finite true .zero then .zero else x)) = true ∧
    ((Value.number x).toText format = (Value.number y).toText format ↔
      Value.sameValue (.number x) (.number y) = true ∨ (x.isZero = true ∧ y.isZero = true)) := by
  simp only [Value.sameValue_iff, Value.toText, toNumber_toText faithful, Value.number.injEq,
    true_and]
  constructor
  · intro h
    have hnumber := congrArg Text.toNumber h
    rw [toNumber_toText faithful, toNumber_toText faithful] at hnumber
    by_cases hx : x = .finite true .zero <;> by_cases hy : y = .finite true .zero
    · exact .inl (hx.trans hy.symm)
    · rw [if_pos hx, if_neg hy] at hnumber
      subst hx hnumber
      exact .inr ⟨rfl, rfl⟩
    · rw [if_neg hx, if_pos hy] at hnumber
      subst hy hnumber
      exact .inr ⟨rfl, rfl⟩
    · rw [if_neg hx, if_neg hy] at hnumber
      exact .inl hnumber
  · rintro (rfl | ⟨hx, hy⟩)
    · rfl
    · rw [toText_of_isZero hx, toText_of_isZero hy]

end

/-- A negative number whose text needs an exponent, and minus zero. -/
theorem number_text_reads_back_shortest :
    Formatter.shortest.Faithful ∧
    (Value.number (.round true 1 (10 ^ 7))).toText .shortest = .ofString "-1e-7" ∧
    Value.sameValue (.number (Text.ofString "-1e-7").toNumber)
      (.number (.round true 1 (10 ^ 7))) = true ∧
    Value.sameValue (.number ((Value.number (.finite true .zero)).toText .shortest).toNumber)
      (.number .zero) = true ∧
    ((Value.number (.round true 1 (10 ^ 7))).toText .shortest =
        (Value.number (.finite true .zero)).toText .shortest ↔
      Value.sameValue (.number (.round true 1 (10 ^ 7))) (.number (.finite true .zero)) = true ∨
      ((Binary64.round true 1 (10 ^ 7)).isZero = true ∧
        (Binary64.finite true .zero).isZero = true)) := by
  have htext : (Value.number (.round true 1 (10 ^ 7))).toText .shortest = .ofString "-1e-7" := by
    decide +kernel
  have hne : Binary64.round true 1 (10 ^ 7) ≠ .finite true .zero := by decide +kernel
  obtain ⟨hback, htexts⟩ := number_text_reads_back faithful_shortest
    (.round true 1 (10 ^ 7)) (.finite true .zero)
  obtain ⟨hzero, -⟩ := number_text_reads_back faithful_shortest (.finite true .zero) .nan
  rw [htext, if_neg hne] at hback
  rw [if_pos rfl] at hzero
  exact ⟨faithful_shortest, htext, hback, hzero, htexts⟩

end EcmaCore
