/-!
# Binary64 numbers

Numbers are exact values: a finite one is an integer multiple of `2 ^ -1074` with at most 53
significant bits. All arithmetic of this library is done on these integers and rounded once, so
nothing rests on the machine's floating point. The bit patterns appear only in `ofBits` and
`toBits`, which are inverse except that every not-a-number pattern is the one `nan`.

Precision is lost in one place: the magnitude nearest to an exact quotient, a half going to the even
significand. Beyond the greatest magnitude by more than the rounding rule forgives there is none,
and the number is infinite. A decimal, a whole number times a power of ten, becomes a number by a
single rounding of its exact value.
-/
namespace EcmaCore

-- A power with a numeral as its exponent is the core library's, whatever else is imported.
attribute [default_instance 100000] instPowNat

/-- The value `significand * 2 ^ scale`, counted in units of `2 ^ -1074`. A significand below
`2 ^ 52` is allowed at scale zero only, so each value has one form. -/
structure Magnitude where
  significand : Nat
  scale : Nat
  significand_lt : significand < 2 ^ 53
  scale_le : scale ≤ 2045
  scale_eq_zero : significand < 2 ^ 52 → scale = 0
  deriving DecidableEq, Repr

namespace Magnitude

def zero : Magnitude := ⟨0, 0, by decide, by decide, fun _ => rfl⟩

/-- The value as a multiple of `2 ^ -1074`. -/
def units (m : Magnitude) : Nat := m.significand * Nat.pow 2 m.scale

/-- The number of magnitudes, one past the greatest index. -/
def count : Nat := 2047 * 2 ^ 52

/-- The place of a magnitude among all of them in increasing order. These are also the low 63 bits
of its bit pattern. -/
def index (m : Magnitude) : Nat := m.scale * 2 ^ 52 + m.significand

/-- The magnitude at a place. The scale grows by one every `2 ^ 52` places after the first
`2 ^ 53`. -/
def ofIndex (i : Nat) (h : i < count) : Magnitude :=
  if hi : i < 2 ^ 52 then ⟨i, 0, by omega, by omega, fun _ => rfl⟩
  else ⟨i % 2 ^ 52 + 2 ^ 52, i / 2 ^ 52 - 1,
    by have := Nat.mod_lt i (show 0 < 2 ^ 52 by decide); omega,
    by simp only [count] at h; omega,
    by intro hs; omega⟩

theorem index_lt (m : Magnitude) : m.index < count := by
  have h1 := m.significand_lt
  have h2 := m.scale_le
  simp only [index, count]
  omega

theorem index_ofIndex (i : Nat) (h : i < count) : (ofIndex i h).index = i := by
  unfold ofIndex index
  split
  · simp
  · simp only
    omega

theorem ext {m n : Magnitude} (hs : m.significand = n.significand) (hk : m.scale = n.scale) :
    m = n := by
  cases m; cases n; simp_all

theorem eq_zero_of_significand {m : Magnitude} (hm : m.significand = 0) : m = zero :=
  ext hm (m.scale_eq_zero (by omega))

theorem ofIndex_index (m : Magnitude) : ofIndex m.index m.index_lt = m := by
  have h1 := m.significand_lt
  have h3 := m.scale_eq_zero
  unfold ofIndex
  split
  case isTrue h =>
    simp only [index] at h
    apply ext <;> simp only [index] <;> omega
  case isFalse h =>
    simp only [index] at h
    apply ext <;> simp only [index] <;> omega

end Magnitude

/-- A number of the language. -/
inductive Binary64 where
  | nan
  | infinity (negative : Bool)
  | finite (negative : Bool) (magnitude : Magnitude)
  deriving DecidableEq, Repr

namespace Binary64

def zero : Binary64 := .finite false .zero

instance : Inhabited Binary64 := ⟨nan⟩

def isNaN : Binary64 → Bool
  | nan => true
  | _ => false

/-- Either zero. -/
def isZero : Binary64 → Bool
  | finite _ m => m.significand == 0
  | _ => false

theorem isZero_iff {x : Binary64} : x.isZero = true ↔ ∃ s, x = finite s .zero := by
  constructor
  · intro h
    cases x with
    | nan | infinity => cases h
    | finite s m =>
      obtain rfl := Magnitude.eq_zero_of_significand (beq_iff_eq.mp h)
      exact ⟨s, rfl⟩
  · rintro ⟨s, rfl⟩
    rfl

/-- Equality of the standard: `nan` differs from everything, the two zeros are equal. -/
def equals : Binary64 → Binary64 → Bool
  | infinity s, infinity t => s == t
  | finite s m, finite t n => m == n && (s == t || m.significand == 0)
  | _, _ => false

/-- Identity of numbers: `nan` is itself, the two zeros differ. -/
def same : Binary64 → Binary64 → Bool
  | nan, nan => true
  | infinity s, infinity t => s == t
  | finite s m, finite t n => m == n && s == t
  | _, _ => false

@[simp] theorem same_iff (x y : Binary64) : same x y = true ↔ x = y := by
  cases x <;> cases y <;> simp [same, and_comm]

/-- A sign put on a magnitude; none is an overflow. -/
def ofMagnitude? (negative : Bool) : Option Magnitude → Binary64
  | some m => finite negative m
  | none => infinity negative

/-- The number with a bit pattern. The sign is the highest bit; above the magnitudes come infinity
and the not-a-number patterns. -/
def ofBits (bits : UInt64) : Binary64 :=
  let negative := decide (2 ^ 63 ≤ bits.toNat)
  let body := bits.toNat % 2 ^ 63
  if h : body < Magnitude.count then finite negative (.ofIndex body h)
  else if body = Magnitude.count then infinity negative
  else nan

/-- The bit pattern of a number, with the quiet pattern for `nan`. -/
def toBits : Binary64 → UInt64
  | nan => .ofNat (Magnitude.count + 2 ^ 51)
  | infinity s => .ofNat ((if s then 2 ^ 63 else 0) + Magnitude.count)
  | finite s m => .ofNat ((if s then 2 ^ 63 else 0) + m.index)

end Binary64

/-- The natural number nearest to `num / den`, the even one of two. -/
def roundQuotient (num den : Nat) : Nat :=
  let low := num / den
  let twice := 2 * (num % den)
  if twice < den ∨ (twice = den ∧ low % 2 = 0) then low else low + 1

@[simp] theorem roundQuotient_one (n : Nat) : roundQuotient n 1 = n := by
  simp [roundQuotient, Nat.mod_one]

namespace Magnitude

/-- The magnitude nearest to `num / den` units. The scale keeps 53 bits of the quotient; a carry
into the 54th needs no care, since the index of `2 ^ 53` at one scale is that of `2 ^ 52` at the
next. -/
def nearest? (num den : Nat) : Option Magnitude :=
  let scale := (num / den).log2 - 52
  let i := scale * 2 ^ 52 + roundQuotient num (den * Nat.pow 2 scale)
  if h : i < count then some (ofIndex i h) else none

/-- The part of the value before the point. -/
def floor (m : Magnitude) : Nat := m.units / 2 ^ 1074

end Magnitude

namespace Binary64

/-- The number nearest to `num / den`, with a sign. -/
def round (negative : Bool) (num den : Nat) : Binary64 :=
  ofMagnitude? negative (Magnitude.nearest? (num * 2 ^ 1074) den)

def ofNat (n : Nat) : Binary64 := round false n 1

instance (n : Nat) : OfNat Binary64 n := ⟨ofNat n⟩

def ofBool (b : Bool) : Binary64 := if b then 1 else 0

end Binary64

/-- The value `coefficient * 10 ^ exponent`. -/
structure Decimal where
  coefficient : Nat
  exponent : Int
  deriving DecidableEq, Repr

namespace Decimal

/-- The magnitude nearest to a decimal. The first two guards only save work: past them the value is
over `10 ^ 400`, or under `10 ^ -400`, and no magnitude but zero is near. -/
def magnitude? (d : Decimal) : Option Magnitude :=
  if d.coefficient = 0 then some .zero
  else if 400 < d.exponent then none
  else if d.exponent < -(400 + d.coefficient.log2) then some .zero
  else Magnitude.nearest? (d.coefficient * Nat.pow 10 d.exponent.toNat * 2 ^ 1074)
    (Nat.pow 10 (-d.exponent).toNat)

/-- The number nearest to a decimal, with a sign. -/
def toBinary64 (negative : Bool) (d : Decimal) : Binary64 :=
  .ofMagnitude? negative d.magnitude?

end Decimal

end EcmaCore
