import EcmaCore.Number.Numeral
import EcmaCore.Proofs.Encoding
import EcmaCore.Proofs.Nearest
import EcmaCore.Text.Index
import Mathlib.Data.List.Forall2
import Mathlib.Data.List.TakeWhile

/-!
# The language of numerals

The texts of numerals by their forms, apart from how they are read, and what each form says of its
number. Digits of this language, with or without a point and an exponent, are what the reader of
numbers reads, and so it never fails on them.
-/
namespace EcmaCore

/-- The forms of a numeral. -/
inductive Numeral where
  | blank
  | hexadecimal (digits : List Nat)
  | infinity (negative : Bool)
  | decimal (negative : Bool) (value : Decimal)
  deriving DecidableEq, Repr

/-- White space and line ends: the controls among them, the two separators of lines, the byte order
mark, and the space separators. -/
def blanks : List Char :=
  ['\t', '\u000B', '\u000C', '\n', '\r', '\u2028', '\u2029', '\uFEFF', ' ', '\u00A0', '\u1680',
    '\u2000', '\u2001', '\u2002', '\u2003', '\u2004', '\u2005', '\u2006', '\u2007', '\u2008',
    '\u2009', '\u200A', '\u202F', '\u205F', '\u3000']

def Digits (cs : List Char) : Prop := ∀ c ∈ cs, c.isDigit = true

/-- A hexadecimal digit with its value, in lower or in upper case. -/
def HexDigit (c : Char) (n : Nat) : Prop :=
  n < 16 ∧ (c = n.digitChar ∨ c = n.digitChar.toUpper)

instance (c : Char) (n : Nat) : Decidable (HexDigit c n) := inferInstanceAs (Decidable (_ ∧ _))

/-- A text that may be a sign, and whether it is the negative one. -/
inductive Sign : List Char → Bool → Prop
  | none : Sign [] false
  | plus : Sign ['+'] false
  | minus : Sign ['-'] true

/-- Digits and a point, with the digits before the point and after it. -/
inductive Mantissa : List Char → List Char → List Char → Prop
  | whole {ds : List Char} (ne : ds ≠ []) (digits : Digits ds) : Mantissa ds ds []
  | point {ds fs : List Char} (ne : ds ≠ []) (digits : Digits ds) (fraction : Digits fs) :
    Mantissa (ds ++ '.' :: fs) ds fs
  | fraction {fs : List Char} (ne : fs ≠ []) (fraction : Digits fs) : Mantissa ('.' :: fs) [] fs

/-- A text that may be an exponent, with its value. -/
inductive Exponent : List Char → Int → Prop
  | none : Exponent [] 0
  | some {c : Char} {sign ds : List Char} {negative : Bool} (mark : c = 'e' ∨ c = 'E')
    (signed : Sign sign negative) (ne : ds ≠ []) (digits : Digits ds) :
    Exponent (c :: (sign ++ ds))
      (if negative then -(Nat.ofDigitChars 10 ds 0 : Int) else Nat.ofDigitChars 10 ds 0)

/-- The decimal with these digits before and after the point. The digits after it count as digits of
the coefficient, and the exponent makes up for it. -/
def Decimal.ofDigits (whole fraction : List Char) (exponent : Int) : Decimal :=
  ⟨Nat.ofDigitChars 10 (whole ++ fraction) 0, exponent - fraction.length⟩

/-- The texts of numerals without blanks around them. -/
inductive Spells : List Char → Numeral → Prop
  | blank : Spells [] .blank
  | hexadecimal {x : Char} {ds : List Char} {ns : List Nat} (mark : x = 'x' ∨ x = 'X')
    (ne : ds ≠ []) (digits : List.Forall₂ HexDigit ds ns) :
    Spells ('0' :: x :: ds) (.hexadecimal ns)
  | infinity {sign : List Char} {negative : Bool} (signed : Sign sign negative) :
    Spells (sign ++ "Infinity".toList) (.infinity negative)
  | decimal {sign text whole fraction tail : List Char} {negative : Bool} {e : Int}
    (signed : Sign sign negative) (mantissa : Mantissa text whole fraction)
    (exponent : Exponent tail e) :
    Spells (sign ++ (text ++ tail))
      (.decimal negative (.ofDigits whole fraction e))

theorem isBlank_iff (c : Char) : isBlank c = true ↔ c ∈ blanks := by
  simp only [isBlank, isSpaceSeparator, isLineOrTab, Bool.or_eq_true, Bool.and_eq_true, beq_iff_eq,
    decide_eq_true_eq, blanks, List.mem_cons, List.not_mem_nil, or_false, ← Char.toNat_inj,
    Char.le_def]
  simp only [UInt32.le_iff_toNat_le, Char.toNat_val, Char.reduceToNat]
  omega

theorem toNat_bounds {c low high : Char} (h : (low ≤ c && c ≤ high) = true) :
    low.toNat ≤ c.toNat ∧ c.toNat ≤ high.toNat := by
  simpa [Char.le_def, UInt32.le_iff_toNat_le] using h

theorem hexDigit?_digitChar {n : Nat} (hn : n < 16) :
    hexDigit? n.digitChar = some n ∧ hexDigit? n.digitChar.toUpper = some n := by
  revert n
  decide

theorem toNat_digitChar {n : Nat} (hlow : 10 ≤ n) (hn : n < 16) :
    n.digitChar.toNat = n - 10 + 'a'.toNat ∧ n.digitChar.toUpper.toNat = n - 10 + 'A'.toNat := by
  revert n
  decide

theorem hexDigit?_eq_some_iff {c : Char} {n : Nat} : hexDigit? c = some n ↔ HexDigit c n := by
  constructor
  · intro h
    unfold hexDigit? at h
    split at h
    next hdigit =>
      obtain ⟨hlow, hlt⟩ := toNat_of_isDigit hdigit
      have hn : c.toNat - '0'.toNat = n := Option.some.inj h
      have hzero : '0'.toNat = 48 := rfl
      have hchar : n.digitChar.toNat = 48 + n := Nat.toNat_digitChar_of_lt_ten (hn ▸ hlt)
      exact ⟨by omega, .inl (Char.toNat_inj.mp (by omega))⟩
    next =>
      split at h
      next hletter =>
        have hbounds := toNat_bounds hletter
        have hn : c.toNat - 'a'.toNat + 10 = n := Option.some.inj h
        have ha : 'a'.toNat = 97 := rfl
        have hf : 'f'.toNat = 102 := rfl
        have hlt : n < 16 := by omega
        have hchar := (toNat_digitChar (by omega) hlt).1
        exact ⟨hlt, .inl (Char.toNat_inj.mp (by omega))⟩
      next =>
        split at h
        next hletter =>
          have hbounds := toNat_bounds hletter
          have hn : c.toNat - 'A'.toNat + 10 = n := Option.some.inj h
          have ha : 'A'.toNat = 65 := rfl
          have hf : 'F'.toNat = 70 := rfl
          have hlt : n < 16 := by omega
          have hchar := (toNat_digitChar (by omega) hlt).2
          exact ⟨hlt, .inr (Char.toNat_inj.mp (by omega))⟩
        next => cases h
  · rintro ⟨hn, rfl | rfl⟩
    · exact (hexDigit?_digitChar hn).1
    · exact (hexDigit?_digitChar hn).2

/-- What follows the longest run of characters with a property begins with no such character. -/
def Stops (p : Char → Bool) (cs : List Char) : Prop := ∀ c ∈ cs.head?, p c = false

theorem stops_nil {p : Char → Bool} : Stops p [] :=
  fun _ hc => absurd hc (by simp)

theorem stops_cons {p : Char → Bool} {c : Char} (h : p c = false) (cs : List Char) :
    Stops p (c :: cs) := by
  intro d hd
  obtain rfl := Option.some.inj hd
  exact h

theorem takeWhile_append {p : Char → Bool} {inside rest : List Char}
    (hinside : ∀ c ∈ inside, p c = true) (hrest : Stops p rest) :
    (inside ++ rest).takeWhile p = inside := by
  rw [List.takeWhile_append_of_pos hinside]
  cases rest with
  | nil => simp
  | cons c rest => simp [hrest c rfl]

theorem dropWhile_of_head? {p : Char → Bool} {cs : List Char}
    (h : Stops p cs) : cs.dropWhile p = cs := by
  cases cs with
  | nil => rfl
  | cons c cs => simp [h c rfl]

theorem dropWhile_append {p : Char → Bool} {inside rest : List Char}
    (hinside : ∀ c ∈ inside, p c = true) (hrest : Stops p rest) :
    (inside ++ rest).dropWhile p = rest := by
  rw [List.dropWhile_append_of_pos hinside, dropWhile_of_head? hrest]

/-- The longest beginning of which all characters have a property, and the rest. -/
theorem exists_span (p : Char → Bool) (cs : List Char) :
    ∃ inside rest, cs = inside ++ rest ∧ (∀ c ∈ inside, p c = true) ∧ Stops p rest := by
  refine ⟨cs.takeWhile p, cs.dropWhile p, List.takeWhile_append_dropWhile.symm,
    List.all_eq_true.mp List.all_takeWhile, ?_⟩
  intro c hc
  have h := List.head?_dropWhile_not p cs
  rw [Option.mem_def.mp hc] at h
  exact h

/-- What does not begin with a sign. -/
def Unsigned (cs : List Char) : Prop := ∀ c ∈ cs.head?, c ≠ '+' ∧ c ≠ '-'

theorem splitSign_of_sign {sign rest : List Char} {negative : Bool} (h : Sign sign negative)
    (hrest : Unsigned rest) : splitSign (sign ++ rest) = (negative, rest) := by
  cases h with
  | plus => rfl
  | minus => rfl
  | none =>
    rw [List.nil_append]
    unfold splitSign
    split
    next => exact absurd rfl (hrest '-' rfl).2
    next => exact absurd rfl (hrest '+' rfl).1
    next => rfl

theorem Digits.unsigned {ds : List Char} (h : Digits ds) : Unsigned ds := by
  intro c hc
  have hdigit := h c (List.mem_of_mem_head? hc)
  constructor <;> rintro rfl <;> exact absurd hdigit (by decide)

theorem readDigits?_eq_some_iff {cs : List Char} {n : Nat} :
    readDigits? cs = some n ↔ cs ≠ [] ∧ Digits cs ∧ Nat.ofDigitChars 10 cs 0 = n := by
  simp [readDigits?, Digits, and_assoc]

theorem readExponent?_of_exponent {cs : List Char} {e : Int} (h : Exponent cs e) :
    readExponent? cs = some e := by
  cases h with
  | none => rfl
  | @some c sign ds negative hc hsign hne hdigits =>
    have hmark : (c == 'e' || c == 'E') = true := by simpa using hc
    have hread : readDigits? ds = some (Nat.ofDigitChars 10 ds 0) :=
      readDigits?_eq_some_iff.mpr ⟨hne, hdigits, rfl⟩
    rw [readExponent?, if_pos hmark, splitSign_of_sign hsign hdigits.unsigned]
    simp only [hread, Option.map_some]

/-- What ends a mantissa: neither a digit nor a point. -/
def Bounds (cs : List Char) : Prop := ∀ c ∈ cs.head?, c.isDigit = false ∧ c ≠ '.'

theorem readDecimal?_whole {whole tail : List Char} (hwhole : Digits whole) (htail : Bounds tail) :
    readDecimal? (whole ++ tail) =
      if whole.isEmpty then none
      else (readExponent? tail).map (.ofDigits whole []) := by
  have hdigit : Stops Char.isDigit tail := fun c hc => (htail c hc).1
  simp only [readDecimal?, takeWhile_append hwhole hdigit, dropWhile_append hwhole hdigit]
  split
  next => exact absurd rfl (htail '.' rfl).2
  next =>
    simp only [List.takeWhile_nil, List.isEmpty_nil, Bool.and_true]
    rfl

theorem readDecimal?_point {whole fraction tail : List Char} (hwhole : Digits whole)
    (hfraction : Digits fraction) (htail : Stops Char.isDigit tail) :
    readDecimal? (whole ++ '.' :: (fraction ++ tail)) =
      if whole.isEmpty && fraction.isEmpty then none
      else (readExponent? tail).map (.ofDigits whole fraction) := by
  have hpoint : Stops Char.isDigit ('.' :: (fraction ++ tail)) := stops_cons rfl _
  simp only [readDecimal?, takeWhile_append hwhole hpoint, dropWhile_append hwhole hpoint,
    takeWhile_append hfraction htail, dropWhile_append hfraction htail]
  rfl

theorem readDecimal?_of_mantissa {text whole fraction tail : List Char}
    (h : Mantissa text whole fraction) (htail : Bounds tail) :
    readDecimal? (text ++ tail) = (readExponent? tail).map (.ofDigits whole fraction) := by
  have hdigit : Stops Char.isDigit tail := fun c hc => (htail c hc).1
  cases h with
  | whole hne hwhole => rw [readDecimal?_whole hwhole htail, if_neg (by simpa using hne)]
  | point hne hwhole hfraction =>
    rw [List.append_assoc, List.cons_append, readDecimal?_point hwhole hfraction hdigit,
      if_neg (by simp [hne])]
  | fraction hne hfraction =>
    have hnone : Digits [] := fun _ hc => absurd hc List.not_mem_nil
    have hread := readDecimal?_point hnone hfraction hdigit
    rw [if_neg (by simpa using hne)] at hread
    exact hread

/-- The characters of decimals. -/
def isNumeric (c : Char) : Bool := c.isDigit || c ∈ ['.', 'e', 'E', '+', '-']

theorem Digits.numeric {ds : List Char} (h : Digits ds) : ∀ c ∈ ds, isNumeric c = true := by
  intro c hc
  rw [isNumeric, h c hc, Bool.true_or]

theorem Sign.numeric {sign : List Char} {negative : Bool} (h : Sign sign negative) :
    ∀ c ∈ sign, isNumeric c = true := by
  rw [← List.all_eq_true]
  cases h <;> rfl

theorem Mantissa.numeric {text whole fraction : List Char} (h : Mantissa text whole fraction) :
    ∀ c ∈ text, isNumeric c = true := by
  intro c hc
  cases h with
  | whole _ hwhole => exact hwhole.numeric c hc
  | point _ hwhole hfraction =>
    rw [List.mem_append, List.mem_cons] at hc
    rcases hc with hc | rfl | hc
    · exact hwhole.numeric c hc
    · rfl
    · exact hfraction.numeric c hc
  | fraction _ hfraction =>
    rcases List.mem_cons.mp hc with rfl | hc
    · rfl
    · exact hfraction.numeric c hc

theorem Exponent.numeric {text : List Char} {e : Int} (h : Exponent text e) :
    ∀ c ∈ text, isNumeric c = true := by
  intro c hc
  cases h with
  | none => exact absurd hc List.not_mem_nil
  | some mark hsign _ hdigits =>
    rw [List.mem_cons, List.mem_append] at hc
    rcases hc with rfl | hc | hc
    · rcases mark with rfl | rfl <;> rfl
    · exact hsign.numeric c hc
    · exact hdigits.numeric c hc

theorem isNumeric_of_decimal {sign text whole fraction tail : List Char} {negative : Bool} {e : Int}
    (hsign : Sign sign negative) (hmantissa : Mantissa text whole fraction)
    (hexponent : Exponent tail e) : ∀ c ∈ sign ++ (text ++ tail), isNumeric c = true := by
  intro c hc
  rw [List.mem_append, List.mem_append] at hc
  rcases hc with hc | hc | hc
  · exact hsign.numeric c hc
  · exact hmantissa.numeric c hc
  · exact hexponent.numeric c hc

theorem Exponent.bounds {text : List Char} {e : Int} (h : Exponent text e) : Bounds text := by
  cases h with
  | none => exact fun _ hc => absurd hc (by simp)
  | some mark =>
    intro c hc
    obtain rfl := Option.some.inj hc
    rcases mark with rfl | rfl <;> decide

/-- A mantissa begins with a digit or with the point. -/
theorem Mantissa.head {text whole fraction : List Char} (h : Mantissa text whole fraction) :
    ∃ c rest, text = c :: rest ∧ (c.isDigit = true ∨ c = '.') := by
  cases h with
  | whole hne hwhole =>
    obtain ⟨c, rest, rfl⟩ := List.exists_cons_of_ne_nil hne
    exact ⟨c, rest, rfl, .inl (hwhole c List.mem_cons_self)⟩
  | point hne hwhole =>
    obtain ⟨c, rest, rfl⟩ := List.exists_cons_of_ne_nil hne
    exact ⟨c, _, rfl, .inl (hwhole c List.mem_cons_self)⟩
  | fraction => exact ⟨'.', _, rfl, .inr rfl⟩

theorem toLower_of_isDigit {c : Char} (hc : c.isDigit = true) : c.toLower = c := by
  have hupper : ¬ (65 ≤ c.toNat ∧ c.toNat ≤ 90) := by
    obtain ⟨hlow, hlt⟩ := toNat_of_isDigit hc
    have hzero : '0'.toNat = 48 := rfl
    omega
  exact dif_neg (by simpa [UInt32.le_iff_toNat_le] using hupper)

/-- The reader of numbers does not fail on a mantissa and an exponent: they begin with no sign, and
with no letter of a name. -/
theorem parse?_decimal {text whole fraction tail : List Char} {e : Int}
    (hmantissa : Mantissa text whole fraction) (hexponent : Exponent tail e) :
    Binary64.parse? (text ++ tail) =
      some ((Decimal.ofDigits whole fraction e).toBinary64 false) := by
  have hread := readDecimal?_of_mantissa hmantissa hexponent.bounds
  rw [readExponent?_of_exponent hexponent] at hread
  obtain ⟨c, rest, rfl, hc⟩ := hmantissa.head
  have hunsigned : Unsigned (c :: rest ++ tail) := by
    intro d hd
    obtain rfl := Option.some.inj hd
    constructor <;> rintro rfl <;> revert hc <;> decide
  have hlower : c.toLower = c := by
    rcases hc with hc | rfl
    · exact toLower_of_isDigit hc
    · rfl
  have hname : ∀ d ds, d.isDigit = false → d ≠ '.' →
      (c :: rest ++ tail).map Char.toLower ≠ d :: ds := by
    intro d ds hdigit hpoint heq
    obtain rfl : c = d := hlower ▸ (List.cons.inj heq).1
    rcases hc with hc | hc
    · exact absurd (hdigit.symm.trans hc) Bool.false_ne_true
    · exact hpoint hc
  have hinf : (c :: rest ++ tail).map Char.toLower ≠ "inf".toList :=
    hname 'i' _ rfl (by decide)
  have hinfinity : (c :: rest ++ tail).map Char.toLower ≠ "infinity".toList :=
    hname 'i' _ rfl (by decide)
  have hnan : (c :: rest ++ tail).map Char.toLower ≠ "nan".toList := hname 'n' _ rfl (by decide)
  have hsplit : splitSign (c :: rest ++ tail) = (false, c :: rest ++ tail) :=
    splitSign_of_sign .none hunsigned
  simp only [Binary64.parse?, hsplit, hinf, hinfinity, or_self, if_false, hnan, hread,
    Option.map_some]

/-- The visible characters of the first 128. Numerals are made of them. -/
def isGraphic (c : Char) : Bool := '!' ≤ c && c ≤ '~'

theorem isGraphic_iff {c : Char} : isGraphic c = true ↔ 33 ≤ c.toNat ∧ c.toNat ≤ 126 := by
  simp [isGraphic, Char.le_def, UInt32.le_iff_toNat_le]

theorem not_blank_of_isGraphic {c : Char} (h : isGraphic c = true) : isBlank c = false := by
  have hblanks : blanks.all (!isGraphic ·) = true := by decide
  rw [Bool.eq_false_iff, Ne, isBlank_iff]
  intro hc
  have hgraphic := List.all_eq_true.mp hblanks c hc
  rw [h] at hgraphic
  cases hgraphic

theorem isGraphic_of_isNumeric {c : Char} (h : isNumeric c = true) : isGraphic c = true := by
  rw [isNumeric, Bool.or_eq_true, decide_eq_true_eq] at h
  rcases h with h | h
  · obtain ⟨hlow, hlt⟩ := toNat_of_isDigit h
    have hzero : '0'.toNat = 48 := rfl
    exact isGraphic_iff.mpr (by omega)
  · have hmarks : ['.', 'e', 'E', '+', '-'].all isGraphic = true := by decide
    exact List.all_eq_true.mp hmarks c h

theorem HexDigit.graphic {c : Char} {n : Nat} (h : HexDigit c n) : isGraphic c = true := by
  have hdigits : ∀ n < 16, isGraphic n.digitChar = true ∧ isGraphic n.digitChar.toUpper = true := by
    decide
  rcases h with ⟨hn, rfl | rfl⟩
  · exact (hdigits n hn).1
  · exact (hdigits n hn).2

theorem isGraphic_of_hexDigits {cs : List Char} {ns : List Nat} (h : List.Forall₂ HexDigit cs ns) :
    ∀ c ∈ cs, isGraphic c = true := by
  induction h with
  | nil => exact fun _ hc => absurd hc List.not_mem_nil
  | cons hfirst _ ih =>
    intro c hc
    rcases List.mem_cons.mp hc with rfl | hc
    · exact hfirst.graphic
    · exact ih c hc

theorem Spells.graphic {cs : List Char} {n : Numeral} (h : Spells cs n) :
    ∀ c ∈ cs, isGraphic c = true := by
  intro c hc
  cases h with
  | blank => exact absurd hc List.not_mem_nil
  | hexadecimal mark _ hdigits =>
    rw [List.mem_cons, List.mem_cons] at hc
    rcases hc with rfl | rfl | hc
    · rfl
    · rcases mark with rfl | rfl <;> rfl
    · exact isGraphic_of_hexDigits hdigits c hc
  | infinity hsign =>
    have hname : "Infinity".toList.all isGraphic = true := by decide
    rcases List.mem_append.mp hc with hc | hc
    · exact isGraphic_of_isNumeric (hsign.numeric c hc)
    · exact List.all_eq_true.mp hname c hc
  | decimal hsign hmantissa hexponent =>
    exact isGraphic_of_isNumeric (isNumeric_of_decimal hsign hmantissa hexponent c hc)

/-- Every numeral that is not blank has characters. -/
theorem Spells.eq_blank {cs : List Char} {n : Numeral} (h : Spells cs n) (hcs : cs = []) :
    n = .blank := by
  cases h with
  | blank => rfl
  | hexadecimal => cases hcs
  | infinity => simp at hcs
  | decimal _ hmantissa =>
    obtain ⟨c, rest, rfl, -⟩ := hmantissa.head
    simp at hcs

/-- A text stands for a numeral if its units are those of the numeral's characters with blanks
around them. No text with a surrogate that stands alone has units of this kind. -/
def Text.StandsFor (t : Text) (n : Numeral) : Prop :=
  ∃ before body after, t = .ofString (.ofList (before ++ (body ++ after))) ∧
    (∀ c ∈ before, c ∈ blanks) ∧ (∀ c ∈ after, c ∈ blanks) ∧ Spells body n

namespace Numeral

/-- The number of a numeral. A hexadecimal one is built digit by digit and rounded at each. -/
def value : Numeral → Binary64
  | blank => .zero
  | hexadecimal digits => digits.foldl Binary64.pushHexDigit .zero
  | infinity negative => .infinity negative
  | decimal negative d => d.toBinary64 negative

/-- What a numeral says of the number it stands for. -/
def Denotes : Numeral → Binary64 → Prop
  | blank, x => x = .zero
  | hexadecimal _, x => x ≠ .nan
  | infinity negative, x => x = .infinity negative
  | decimal negative d, x => Binary64.Rounds negative d.value x

theorem ofMagnitude?_ne_nan (negative : Bool) (m : Option Magnitude) :
    Binary64.ofMagnitude? negative m ≠ .nan := by
  cases m <;> exact Binary64.noConfusion

theorem pushHexDigit_ne_nan {x : Binary64} (hx : x ≠ .nan) (n : Nat) : x.pushHexDigit n ≠ .nan := by
  cases x with
  | nan => exact absurd rfl hx
  | infinity => exact Binary64.noConfusion
  | finite => exact ofMagnitude?_ne_nan _ _

/-- By induction on the digits. -/
theorem foldl_pushHexDigit_ne_nan (ns : List Nat) {x : Binary64} (hx : x ≠ .nan) :
    ns.foldl Binary64.pushHexDigit x ≠ .nan := by
  induction ns generalizing x with
  | nil => exact hx
  | cons n ns ih => exact ih (pushHexDigit_ne_nan hx n)

theorem value_ne_nan (n : Numeral) : n.value ≠ .nan := by
  cases n with
  | blank => exact Binary64.noConfusion
  | hexadecimal ns => exact foldl_pushHexDigit_ne_nan ns Binary64.noConfusion
  | infinity => exact Binary64.noConfusion
  | decimal => exact ofMagnitude?_ne_nan _ _

theorem denotes_value (n : Numeral) : n.Denotes n.value := by
  cases n with
  | blank => rfl
  | hexadecimal ns => exact value_ne_nan (.hexadecimal ns)
  | infinity => rfl
  | decimal negative d => exact d.rounds_toBinary64 negative

end Numeral

end EcmaCore
