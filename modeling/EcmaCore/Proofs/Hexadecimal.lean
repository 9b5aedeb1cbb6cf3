import EcmaCore.Proofs.Arithmetic
import EcmaCore.Proofs.Grammar

/-!
# Hexadecimal numerals

A hexadecimal numeral is read digit by digit and rounded at each. No digit is lost until the value
has reached `2 ^ 53`; from then on a digit is too small to change a rounding, so the rest of the
numeral counts as zeros. What is left is rounded correctly, and with it the numeral, except where
the zeros make a tie of what is more than one.
-/
namespace EcmaCore

namespace Magnitude

theorem nearestPlace_one (n : Nat) :
    nearestPlace n 1 = (n.log2 - 52) * 2 ^ 52 + roundQuotient n (2 ^ (n.log2 - 52)) := by
  rw [nearestPlace, Nat.div_one, Nat.one_mul, Nat.pow_eq]

theorem roundQuotient_mul {c : Nat} (hc : 0 < c) (num den : Nat) :
    roundQuotient (c * num) (c * den) = roundQuotient num den := by
  have hlt : 2 * (c * (num % den)) < c * den ↔ 2 * (num % den) < den := by
    rw [Nat.mul_left_comm, Nat.mul_lt_mul_left hc]
  have heq : 2 * (c * (num % den)) = c * den ↔ 2 * (num % den) = den := by
    rw [Nat.mul_left_comm, Nat.mul_right_inj hc.ne']
  simp only [roundQuotient, Nat.mul_div_mul_left _ _ hc, Nat.mul_mod_mul_left, hlt, heq]

theorem nearest?_mul {c : Nat} (hc : 0 < c) (num den : Nat) :
    nearest? (c * num) (c * den) = nearest? num den := by
  simp only [nearest?, Nat.mul_div_mul_left _ _ hc, Nat.mul_assoc, roundQuotient_mul hc]

/-- Sixteen times as much is four scales further up, if there are bits to fill a significand. -/
theorem nearestPlace_sixteen {n : Nat} (hn : 2 ^ 52 ≤ n) :
    nearestPlace (16 * n) 1 = nearestPlace n 1 + 4 * 2 ^ 52 := by
  have hpos : n ≠ 0 := by omega
  have hlog : (16 * n).log2 = n.log2 + 4 := by
    have hdouble : 16 * n = 2 * (2 * (2 * (2 * n))) := by omega
    rw [hdouble, Nat.log2_two_mul (by omega), Nat.log2_two_mul (by omega),
      Nat.log2_two_mul (by omega), Nat.log2_two_mul hpos]
  have hscale : 52 ≤ n.log2 := (Nat.le_log2 hpos).mpr hn
  have hpow : 2 ^ (n.log2 + 4 - 52) = 16 * 2 ^ (n.log2 - 52) := by
    rw [Nat.sub_add_comm hscale, Nat.pow_add, Nat.mul_comm]
  rw [nearestPlace_one, nearestPlace_one, hlog, hpow, roundQuotient_mul (by decide)]
  omega

/-- What is less than half a step above a magnitude is rounded off. -/
theorem nearestPlace_near {s k rest : Nat} (hlow : 2 ^ 52 ≤ s) (hhigh : s < 2 ^ 53)
    (hrest : 2 * rest < 2 ^ k) : nearestPlace (s * 2 ^ k + rest) 1 = k * 2 ^ 52 + s := by
  have hbelow : 2 ^ 52 * 2 ^ k ≤ s * 2 ^ k := Nat.mul_le_mul_right _ hlow
  have habove : s * 2 ^ k + 2 ^ k ≤ 2 ^ 53 * 2 ^ k := by
    rw [← Nat.succ_mul]
    exact Nat.mul_le_mul_right _ hhigh
  have hlog : (s * 2 ^ k + rest).log2 = k + 52 := by
    rw [Nat.log2_eq_iff (by omega), Nat.add_assoc k 52 1, Nat.add_comm k, Nat.add_comm k,
      Nat.pow_add, Nat.pow_add]
    omega
  have hquotient : (s * 2 ^ k + rest) / 2 ^ k = s := by
    rw [Nat.add_comm, Nat.add_mul_div_right _ _ (Nat.two_pow_pos k), Nat.div_eq_of_lt (by omega),
      Nat.zero_add]
  have hremainder : (s * 2 ^ k + rest) % 2 ^ k = rest := by
    rw [Nat.add_comm, Nat.add_mul_mod_self_right, Nat.mod_eq_of_lt (by omega)]
  rw [nearestPlace_one, hlog, Nat.add_sub_cancel]
  simp only [roundQuotient, hquotient, hremainder, if_pos (Or.inl hrest)]

/-- Rounding does not go below a place that a value has reached. -/
theorem le_nearestPlace {i num den : Nat} (hden : 0 < den) (h : unitsAt i * den ≤ num) :
    i ≤ nearestPlace num den := by
  obtain ⟨l, -, hhigh, hplace⟩ := exists_bracket num hden
  have hlt : unitsAt i < unitsAt (l + 1) := Nat.lt_of_mul_lt_mul_right (h.trans_lt hhigh)
  have hil := unitsAt_strictMono.lt_iff_lt.mp hlt
  rw [hplace]
  split <;> omega

/-- The place of `2 ^ 53`. -/
theorem unitsAt_wide : unitsAt (1076 * 2 ^ 52) = 2 ^ 53 * one := by
  obtain ⟨e, hone, he⟩ := one_eq_pow
  have hplace : 1076 * 2 ^ 52 = (e + 1) * 2 ^ 52 + 2 ^ 52 := by rw [he]
  rw [hplace, unitsAt_add (.inr (Nat.le_refl _)) (by decide), Nat.pow_eq, Nat.pow_succ 2 e, hone]
  omega

/-- The magnitude at a place, if there is one. -/
def atPlace? (i : Nat) : Option Magnitude := if h : i < count then some (ofIndex i h) else none

theorem nearest?_eq_atPlace? (num den : Nat) :
    nearest? num den = atPlace? (nearestPlace num den) := rfl

/-- A digit more than sixteen times a magnitude is rounded off, from `2 ^ 53` on. -/
theorem nearestPlace_digit {m : Magnitude} {d : Nat} (hm : 1076 * 2 ^ 52 ≤ m.index) (hd : d < 16) :
    nearestPlace (16 * m.units + d * one) 1 = m.index + 4 * 2 ^ 52 := by
  have hscale : 1075 ≤ m.scale ∧ 2 ^ 52 ≤ m.significand := by
    have hlt := m.significand_lt
    have hzero := m.scale_eq_zero
    rw [index] at hm
    omega
  obtain ⟨e, hone, he⟩ := one_eq_pow
  have hrest : 2 * (d * one) < 2 ^ (m.scale + 4) := by
    calc
      2 * (d * one) < 2 ^ 5 * 2 ^ e := by
        have hpos := Nat.two_pow_pos e
        rw [hone]
        nlinarith
      _ = 2 ^ (5 + e) := (Nat.pow_add 2 5 e).symm
      _ ≤ 2 ^ (m.scale + 4) := Nat.pow_le_pow_right Nat.two_pos (by omega)
  have hunits : 16 * m.units = m.significand * 2 ^ (m.scale + 4) := by
    rw [units, Nat.pow_eq, Nat.pow_add, Nat.mul_left_comm, Nat.mul_comm 16]
  rw [hunits, nearestPlace_near hscale.2 m.significand_lt hrest, index]
  omega

/-- Rounding, from the places that a value lies between. -/
theorem nearestPlace_of_bracket {i num : Nat} (hlow : unitsAt i ≤ num)
    (hhigh : num < unitsAt (i + 1)) :
    nearestPlace num 1 =
      if 2 * num < unitsAt i + unitsAt (i + 1) ∨
        (2 * num = unitsAt i + unitsAt (i + 1) ∧ i % 2 = 0) then i else i + 1 := by
  obtain ⟨l, hbelow, habove, hplace⟩ := exists_bracket num Nat.one_pos
  rw [Nat.mul_one] at hbelow habove
  have hil := unitsAt_strictMono.lt_iff_lt.mp (hlow.trans_lt habove)
  have hli := unitsAt_strictMono.lt_iff_lt.mp (hbelow.trans_lt hhigh)
  obtain rfl : l = i := by omega
  rw [hplace, Nat.mul_one]

/-- Places that far up are multiples of a power of two. -/
theorem dvd_unitsAt {k i : Nat} (h : k * 2 ^ 52 + 2 ^ 52 ≤ i) : 2 ^ k ∣ unitsAt i := by
  rw [unitsAt, if_neg (by omega)]
  exact Dvd.dvd.mul_left (Nat.pow_dvd_pow 2 (by omega)) _

end Magnitude

namespace Binary64

open Magnitude

theorem rounds_whole (s : Bool) (n : Nat) : Rounds s n (round s n 1) := by
  have h := rounds_round s n Nat.one_pos
  rwa [Nat.cast_one, div_one] at h

theorem round_eq_atPlace? {s : Bool} (n : Nat) :
    round s n 1 = ofMagnitude? s (atPlace? (nearestPlace (n * one) 1)) := round_eq n

/-- From `2 ^ 53` on a digit changes nothing but the scale. -/
theorem pushHexDigit_round {n d : Nat} (hn : 2 ^ 53 ≤ n) (hd : d < 16) :
    (round false n 1).pushHexDigit d = round false (16 * n) 1 := by
  have hunits : 2 ^ 53 * one ≤ n * one := Nat.mul_le_mul_right _ hn
  have hsixteen : nearestPlace (16 * (n * one)) 1 = nearestPlace (n * one) 1 + 4 * 2 ^ 52 := by
    refine nearestPlace_sixteen (Nat.le_trans ?_ hunits)
    have hpos := one_pos
    omega
  have hwide : 1076 * 2 ^ 52 ≤ nearestPlace (n * one) 1 := by
    refine le_nearestPlace Nat.one_pos ?_
    rw [unitsAt_wide, Nat.mul_one]
    exact hunits
  rw [round_eq_atPlace?, round_eq_atPlace?, Nat.mul_assoc, hsixteen]
  by_cases h : nearestPlace (n * one) 1 < count
  · have hindex := index_ofIndex _ h
    rw [atPlace?, dif_pos h, ofMagnitude?, pushHexDigit, ← one, nearest?_eq_atPlace?,
      nearestPlace_digit (by rwa [hindex]) hd, hindex]
  · rw [atPlace?, atPlace?, dif_neg h, dif_neg (by omega)]
    rfl

/-- The product. -/
def times : Binary64 → Binary64 → Binary64
  | infinity s, infinity t => infinity (s != t)
  | infinity s, finite t n | finite t n, infinity s =>
    if n.significand = 0 then nan else infinity (s != t)
  | finite s m, finite t n => ofMagnitude? (s != t) (nearest? (m.units * n.units) one)
  | _, _ => nan

theorem times_sixteen (m : Magnitude) :
    (finite false m).times (ofNat 16) = ofMagnitude? false (nearest? (16 * m.units) 1) := by
  obtain ⟨n, hn, hunits⟩ := exists_ofNat (n := 16) (by decide)
  have hscaled : m.units * n.units = one * (16 * m.units) := by
    rw [hunits]
    ring
  have hquotient := nearest?_mul Magnitude.one_pos (16 * m.units) 1
  rw [Nat.mul_one] at hquotient
  rw [hn, times, hscaled, hquotient]
  rfl

theorem ofUnits_natCast (n : Nat) : ofUnits false n = ofMagnitude? false (nearest? n 1) := by
  have hsign : (if (n : Int) = 0 then false else decide ((n : Int) < 0)) = false := by
    split
    · rfl
    · exact decide_eq_false (by omega)
  rw [ofUnits, hsign, Int.natAbs_natCast]

/-- The step of reading is a product and a sum, and only one of them rounds. -/
theorem pushHexDigit_eq_plus (o : Option Magnitude) {d : Nat} (hd : d < 16) :
    (ofMagnitude? false o).pushHexDigit d =
      ((ofMagnitude? false o).times (ofNat 16)).plus (ofNat d) := by
  obtain ⟨r, hr, hunits⟩ := exists_ofNat (n := d) (by omega)
  cases o with
  | none =>
    obtain ⟨n, hn, hsixteen⟩ := exists_ofNat (n := 16) (by decide)
    have hpos : n.significand ≠ 0 := by
      have hone := Magnitude.one_pos
      exact significand_ne_zero (by omega)
    rw [hr, hn, ofMagnitude?, times, if_neg hpos]
    rfl
  | some m =>
    rw [hr, ofMagnitude?, times_sixteen, pushHexDigit, ← one, ← hunits]
    by_cases hindex : m.index + 4 * 2 ^ 52 < count
    · obtain ⟨n, hn⟩ := exists_units_shift hindex
      have hsixteen : 16 * m.units = n.units := by
        rw [hn, ← units_eq_unitsAt]
        omega
      have hsum : signed false n + signed false r = ((n.units + r.units : Nat) : Int) := rfl
      rw [hsixteen, nearest?_units, ofMagnitude?, plus, hsum, Bool.and_self, ofUnits_natCast]
    · have hwide : 1076 * 2 ^ 52 ≤ m.index := by
        rw [count] at hindex
        omega
      have hplace := nearestPlace_digit (d := 0) hwide (by decide)
      rw [Nat.zero_mul, Nat.add_zero] at hplace
      rw [nearest?_eq_atPlace?, nearest?_eq_atPlace?, hplace, hunits, nearestPlace_digit hwide hd,
        atPlace?, dif_neg hindex]
      rfl

/-- Below `2 ^ 53` no digit is lost. -/
theorem pushHexDigit_round_of_lt {n : Nat} (hn : n < 2 ^ 53) (d : Nat) :
    (round false n 1).pushHexDigit d = round false (16 * n + d) 1 := by
  obtain ⟨m, hm⟩ := exists_units_of_lt hn
  rw [round_of_units hm, pushHexDigit, ← one, round_eq, hm, Nat.add_mul, Nat.mul_assoc]

end Binary64

/-- The whole number that hexadecimal digits denote. -/
def hexValue (digits : List Nat) : Nat := digits.foldl (fun n d => 16 * n + d) 0

/-- One digit more, or a zero for it if `2 ^ 53` has been reached. -/
def pushLeading (n digit : Nat) : Nat := if n < 2 ^ 53 then 16 * n + digit else 16 * n

/-- The same with zeros for the digits that follow when `2 ^ 53` has been reached. -/
def leadingValue (digits : List Nat) : Nat := digits.foldl pushLeading 0

/-- A number and its leading part: they are equal, or the leading part has reached `2 ^ 53` before
the number's last digits, and these are less than one in the place before them. -/
structure Leads (k n : Nat) : Prop where
  le : k ≤ n
  short : k = n ∨ ∃ e c, k = 16 ^ e * c ∧ 2 ^ 53 ≤ c ∧ n < k + 16 ^ e

namespace Leads
variable {k n d : Nat}

theorem refl (n : Nat) : Leads n n := ⟨Nat.le_refl n, .inl rfl⟩

theorem eq_of_lt (h : Leads k n) (hk : k < 2 ^ 57) : k = n := by
  rcases h.short with heq | ⟨e, c, rfl, hc, hlt⟩
  · exact heq
  cases e with
  | zero =>
    have hle := h.le
    omega
  | succ e =>
    have hle : 16 * c ≤ 16 ^ (e + 1) * c :=
      Nat.mul_le_mul_right c (Nat.le_self_pow (by omega) 16)
    omega

/-- What one digit does. -/
theorem push (h : Leads k n) (hd : d < 16) :
    Leads (pushLeading k d) (16 * n + d) := by
  unfold pushLeading
  split
  next hk =>
    rw [h.eq_of_lt (by omega)]
    exact refl _
  next hk =>
    refine ⟨by have := h.le; omega, .inr ?_⟩
    rcases h.short with rfl | ⟨e, c, rfl, hc, hlt⟩
    · exact ⟨1, k, by rw [Nat.pow_one], by omega, by omega⟩
    · refine ⟨e + 1, c, by rw [Nat.pow_succ', Nat.mul_assoc], hc, ?_⟩
      rw [Nat.pow_succ']
      omega

end Leads

theorem leads_hexValue {ns : List Nat} (hns : ∀ d ∈ ns, d < 16) :
    Leads (leadingValue ns) (hexValue ns) := by
  suffices hfold : ∀ k n, Leads k n →
      Leads (ns.foldl pushLeading k) (ns.foldl (fun n d => 16 * n + d) n) from
    hfold 0 0 (.refl 0)
  induction ns with
  | nil => exact fun _ _ h => h
  | cons d ns ih =>
    intro k n h
    exact ih (fun d hd => hns d (List.mem_cons_of_mem _ hd)) _ _
      (h.push (hns d List.mem_cons_self))

/-- Reading digit by digit gives the leading part, rounded. -/
theorem foldl_pushHexDigit {ns : List Nat} (hns : ∀ d ∈ ns, d < 16) :
    ns.foldl Binary64.pushHexDigit .zero = .round false (leadingValue ns) 1 := by
  suffices hfold : ∀ n, ns.foldl Binary64.pushHexDigit (.round false n 1) =
      .round false (ns.foldl pushLeading n) 1 by
    have hzero : Binary64.round false 0 1 = .zero :=
      Binary64.round_of_units (Nat.zero_mul Magnitude.one).symm
    rw [← hzero, hfold, leadingValue]
  induction ns with
  | nil =>
    intro n
    rw [List.foldl_nil, List.foldl_nil]
  | cons d ns ih =>
    intro n
    have hd := hns d List.mem_cons_self
    rw [List.foldl_cons, List.foldl_cons, ← ih fun d hd => hns d (List.mem_cons_of_mem _ hd)]
    congr 1
    unfold pushLeading
    split
    next hn => exact Binary64.pushHexDigit_round_of_lt hn d
    next hn => exact Binary64.pushHexDigit_round (Nat.le_of_not_lt hn) hd

namespace Leads
variable {k n : Nat}

open Magnitude

/-- The places around the leading part lie on a grid of twice what the digits left out may reach,
and the leading part itself on the grid between. -/
theorem exists_grid (h : Leads k n) (hlt : k < n) : ∃ i g a b c,
    unitsAt i = 2 * g * a ∧ unitsAt (i + 1) = 2 * g * b ∧ k * one = g * c ∧ n * one < g * c + g ∧
      2 * a ≤ c ∧ c < 2 * b := by
  obtain ⟨e, c, hk, hc, hn⟩ := h.short.resolve_left hlt.ne
  obtain ⟨l, hone, -⟩ := one_eq_pow
  rw [hone]
  obtain ⟨i, hlow, hhigh, -⟩ := exists_bracket (k * 2 ^ l) Nat.one_pos
  rw [Nat.mul_one] at hlow hhigh
  have hstep : 2 ^ (4 * e + l + 1) = 2 * (16 ^ e * 2 ^ l) := by
    rw [Nat.pow_succ', Nat.pow_add, Nat.pow_mul]
  have hpos : 0 < 16 ^ e * 2 ^ l := by positivity
  have hunits : k * 2 ^ l = 16 ^ e * 2 ^ l * c := by
    rw [hk]
    exact Nat.mul_right_comm ..
  have hwide : (4 * e + l + 1) * 2 ^ 52 + 2 ^ 52 ≤ i := by
    refine Nat.le_of_lt_succ (unitsAt_strictMono.lt_iff_lt.mp (Nat.lt_of_le_of_lt ?_ hhigh))
    rw [unitsAt_add (.inr (Nat.le_refl _)) (by decide), Nat.pow_eq, hstep, hunits]
    nlinarith
  obtain ⟨a, ha⟩ := dvd_unitsAt hwide
  obtain ⟨b, hb⟩ := dvd_unitsAt (Nat.le_succ_of_le hwide)
  rw [hstep] at ha hb
  refine ⟨i, 16 ^ e * 2 ^ l, a, b, c, ha, hb, hunits, ?_, ?_, ?_⟩
  · rw [← hunits, ← Nat.add_mul]
    exact Nat.mul_lt_mul_of_pos_right hn (Nat.two_pow_pos l)
  · rw [ha, hunits, Nat.mul_comm 2, Nat.mul_assoc _ 2] at hlow
    exact Nat.le_of_mul_le_mul_left hlow hpos
  · rw [hb, hunits, Nat.mul_comm 2, Nat.mul_assoc _ 2] at hhigh
    exact Nat.lt_of_mul_lt_mul_left hhigh

/-- The leading part and the number are rounded to one place, unless the leading part is a tie that
goes down. -/
theorem nearestPlace_eq_or (h : Leads k n) (hlt : k < n) :
    nearestPlace (n * one) 1 = nearestPlace (k * one) 1 ∨
      ∃ i, 2 * (k * one) = unitsAt i + unitsAt (i + 1) ∧ i % 2 = 0 ∧
        nearestPlace (k * one) 1 = i := by
  have hunits : k * one < n * one := Nat.mul_lt_mul_of_pos_right hlt one_pos
  obtain ⟨i, g, a, b, c, ha, hb, hc, hn, hac, hcb⟩ := h.exists_grid hlt
  have hlow : unitsAt i ≤ k * one := by
    rw [ha, hc, Nat.mul_comm 2, Nat.mul_assoc]
    exact Nat.mul_le_mul_left g hac
  have hhigh : g * c + g ≤ unitsAt (i + 1) := by
    rw [hb, Nat.mul_comm 2, Nat.mul_assoc, ← Nat.mul_succ]
    exact Nat.mul_le_mul_left g hcb
  have hsum : unitsAt i + unitsAt (i + 1) = 2 * (g * (a + b)) := by
    rw [ha, hb]
    ring
  have hthis := nearestPlace_of_bracket hlow (by omega)
  have hnext := nearestPlace_of_bracket (hlow.trans hunits.le) (by omega)
  rw [hsum] at hthis hnext
  rcases lt_trichotomy c (a + b) with hless | rfl | hmore
  · have hstep : g * c + g ≤ g * (a + b) := Nat.mul_le_mul_left g hless
    rw [if_pos (.inl (by omega))] at hthis hnext
    exact .inl (hnext.trans hthis.symm)
  · rw [if_neg (by omega)] at hnext
    by_cases heven : i % 2 = 0
    · rw [if_pos (.inr ⟨by rw [hc], heven⟩)] at hthis
      exact .inr ⟨i, by rw [hc, hsum], heven, hthis⟩
    · rw [if_neg (by omega)] at hthis
      exact .inl (hnext.trans hthis.symm)
  · have hstep : g * (a + b) + g ≤ g * c := Nat.mul_le_mul_left g hmore
    have hg : 0 < g := by omega
    rw [if_neg (by omega)] at hthis hnext
    exact .inl (hnext.trans hthis.symm)

end Leads

open Magnitude Binary64

/-- Reading by a product and a sum for each digit. -/
def readStepwise (digits : List Nat) : Binary64 :=
  digits.foldl (fun x d => (x.times (ofNat 16)).plus (ofNat d)) zero

theorem foldl_pushHexDigit_eq {ns : List Nat} (hns : ∀ d ∈ ns, d < 16) :
    ns.foldl pushHexDigit zero = readStepwise ns := by
  suffices hfold : ∀ o, ns.foldl pushHexDigit (ofMagnitude? false o) =
      ns.foldl (fun x d => (x.times (ofNat 16)).plus (ofNat d)) (ofMagnitude? false o) from
    hfold (some .zero)
  induction ns with
  | nil =>
    intro o
    rw [List.foldl_nil, List.foldl_nil]
  | cons d ns ih =>
    intro o
    have hd := hns d List.mem_cons_self
    have hnext : ∃ o', (ofMagnitude? false o).pushHexDigit d = ofMagnitude? false o' := by
      cases o with
      | none => exact ⟨none, rfl⟩
      | some m => exact ⟨_, rfl⟩
    obtain ⟨o', ho'⟩ := hnext
    rw [List.foldl_cons, List.foldl_cons, ← pushHexDigit_eq_plus o hd, ho']
    exact ih (fun d hd => hns d (List.mem_cons_of_mem _ hd)) o'

/-- A value halfway between two magnitudes, the lower of which is the nearest. -/
def TiesDown (q : ℚ) : Prop :=
  ∃ m n : Magnitude, m.Nearest q ∧ m.value < q ∧ n.value - q = q - m.value

/-- What is more than such a value is not rounded as it is. -/
theorem TiesDown.not_rounds {q r : ℚ} {s : Bool} {x : Binary64} (h : TiesDown q) (hlt : q < r)
    (hx : Rounds s q x) : ¬ Rounds s r x := by
  obtain ⟨m, n, hm, hbelow, hhalf⟩ := h
  intro hr
  cases hx with
  | infinite above =>
    cases rounds_value s n with
    | finite below => linarith
  | finite _ nearest =>
    obtain rfl := nearest.unique hm
    cases hr with
    | finite _ hnearest =>
      have hclosest := hnearest.closest n
      rw [abs_sub_comm, abs_of_nonneg (by linarith)] at hclosest
      rcases abs_choice (n.value - r) with habs | habs <;> rw [habs] at hclosest <;> linarith

/-- A place that is even and lies just below the value halfway to the next. -/
theorem tiesDown_of_place {k i : Nat} (hsum : 2 * (k * one) = unitsAt i + unitsAt (i + 1))
    (heven : i % 2 = 0) (hplace : nearestPlace (k * one) 1 = i) (hi : i < count) :
    TiesDown k := by
  have hnext : i + 1 < count := by
    have hcount : count = 2047 * 2 ^ 52 := rfl
    omega
  have hmiddle : valueAt i + valueAt (i + 1) = 2 * k := by
    rw [valueAt, valueAt, ← add_div, ← cast_one, div_eq_iff (by exact_mod_cast one_pos.ne'),
      mul_assoc]
    exact_mod_cast hsum.symm
  have hbelow := valueAt_strictMono (Nat.lt_succ_self i)
  have hround : round false k 1 = finite false (ofIndex i hi) := by
    rw [round_eq_atPlace?, hplace, atPlace?, dif_pos hi, ofMagnitude?]
  have hrounds := rounds_whole false k
  rw [hround] at hrounds
  cases hrounds with
  | finite _ nearest =>
    refine ⟨ofIndex i hi, ofIndex (i + 1) hnext, nearest, ?_, ?_⟩ <;>
      simp only [value_eq_valueAt, index_ofIndex] <;> linarith

/-- Rounding the leading part rounds the number, unless a tie hides digits. -/
theorem Leads.rounds_iff {k n : Nat} (h : Leads k n) :
    Rounds false n (round false k 1) ↔ ¬ (k < n ∧ TiesDown k) := by
  have hleading := rounds_whole false k
  have hwhole := rounds_whole false n
  constructor
  · rintro hn ⟨hlt, hties⟩
    exact hties.not_rounds (by exact_mod_cast hlt) hleading hn
  · intro hties
    rcases Nat.eq_or_lt_of_le h.le with rfl | hlt
    · exact hwhole
    rcases h.nearestPlace_eq_or hlt with hplace | ⟨i, hsum, heven, hplace⟩
    · rwa [round_eq_atPlace?, hplace, ← round_eq_atPlace?] at hwhole
    · have hover : ¬ i < count := fun hi => hties ⟨hlt, tiesDown_of_place hsum heven hplace hi⟩
      have hround : round false k 1 = infinity false := by
        rw [round_eq_atPlace?, hplace, atPlace?, dif_neg hover, ofMagnitude?]
      rw [hround] at hleading ⊢
      cases hleading with
      | infinite above => exact .infinite (above.trans (by exact_mod_cast hlt.le))

theorem digits_lt {cs : List Char} {ns : List Nat} (h : List.Forall₂ HexDigit cs ns) :
    ∀ d ∈ ns, d < 16 := by
  induction h with
  | nil => exact fun _ hd => absurd hd List.not_mem_nil
  | cons hdigit _ ih =>
    intro d hd
    rcases List.mem_cons.mp hd with rfl | hd
    · exact hdigit.1
    · exact ih d hd

/-- A hexadecimal numeral is read by a product and a sum for each digit, each of them rounded. The
number is the one nearest to the leading part. It is the one nearest to what the numeral denotes
exactly if no digit is left out of a tie that goes down, and a numeral below `2 ^ 57` is its own
leading part. -/
theorem hexadecimal_rounds_leading_part {t : Text} {ns : List Nat}
    (h : t.StandsFor (.hexadecimal ns)) :
    t.toNumber = readStepwise ns ∧
      Rounds false (leadingValue ns) t.toNumber ∧
      (Rounds false (hexValue ns) t.toNumber ↔
        ¬ (leadingValue ns < hexValue ns ∧ TiesDown (leadingValue ns))) ∧
      (hexValue ns < 2 ^ 57 → leadingValue ns = hexValue ns) := by
  have hdigits : ∀ d ∈ ns, d < 16 := by
    obtain ⟨_, _, _, _, _, _, hspells⟩ := h
    cases hspells with
    | hexadecimal _ _ digits => exact digits_lt digits
  have hleads := leads_hexValue hdigits
  have hvalue : t.toNumber = ns.foldl pushHexDigit zero := toNumber_eq_value h
  refine ⟨hvalue.trans (foldl_pushHexDigit_eq hdigits), ?_⟩
  rw [hvalue, foldl_pushHexDigit hdigits]
  exact ⟨rounds_whole false _, hleads.rounds_iff,
    fun hlt => hleads.eq_of_lt (hleads.le.trans_lt hlt)⟩

/-- Fifteen digits with blanks around them, of which the last is left out. -/
theorem hexadecimal_rounds_leading_part_long :
    (Text.ofString " 0X20000000000001f\n").StandsFor
        (.hexadecimal (2 :: .replicate 12 0 ++ [1, 15])) ∧
      leadingValue (2 :: .replicate 12 0 ++ [1, 15]) = 2 ^ 57 + 16 ∧
      Rounds false (2 ^ 57 + 16 : Nat) (Text.ofString " 0X20000000000001f\n").toNumber := by
  have h : (Text.ofString " 0X20000000000001f\n").StandsFor
      (.hexadecimal (2 :: .replicate 12 0 ++ [1, 15])) :=
    ⟨[' '], _, ['\n'], by decide +kernel, by simp [blanks], by simp [blanks],
      .hexadecimal (.inr rfl) (List.cons_ne_nil '2' (.replicate 12 '0' ++ ['1', 'f']))
        (by decide)⟩
  have hleading : leadingValue (2 :: .replicate 12 0 ++ [1, 15]) = 2 ^ 57 + 16 := by decide
  exact ⟨h, hleading, hleading ▸ (hexadecimal_rounds_leading_part h).2.1⟩

/-- The last digit is more than a tie, but is left out of it. -/
theorem hexadecimal_tie_hides_digit :
    (Text.ofString "0x200000000000011").StandsFor (.hexadecimal (2 :: .replicate 12 0 ++ [1, 1])) ∧
      ¬ Rounds false (hexValue (2 :: .replicate 12 0 ++ [1, 1]))
        (Text.ofString "0x200000000000011").toNumber := by
  refine ⟨⟨[], _, [], by decide +kernel, by simp, by simp, .hexadecimal (.inl rfl)
    (List.cons_ne_nil '2' (.replicate 12 '0' ++ ['1', '1'])) (by decide)⟩, ?_⟩
  intro h
  exact absurd (h.unique (rounds_whole false _)) (by decide +kernel)

end EcmaCore
