import EcmaCore.Number.Binary64

/-!
# Number texts

The text of a number is a name, a zero, or what a formatter writes of a finite number that is not
zero. A formatter is brought along by the engine, and nothing here rests on its choice of digits.

The formatters at hand lay out the shortest decimal: of the decimals that read back as a magnitude,
the ones with the fewest digits, and of those the nearest. The search for it goes through the
decimal grids from coarse to fine. On each grid only the two neighbours of the value need a look: if
any point of the grid reads back, one of them does.
-/
namespace EcmaCore

/-- What becomes of a value that lies halfway between two shortest decimals. -/
inductive TieRule where
  | toEven | upward
  deriving DecidableEq, Repr

namespace Magnitude

/-- The exact value as a decimal. -/
def toDecimal (m : Magnitude) : Decimal := ⟨m.units * 5 ^ 1074, -1074⟩

/-- The nearer of the neighbours `low` and `low + 1` on the grid of `10 ^ exponent`. -/
def nearerNeighbour (tie : TieRule) (m : Magnitude) (low : Nat) (exponent : Int) : Nat :=
  let value := 2 * m.units * Nat.pow 10 (-exponent).toNat
  let middle := (2 * low + 1) * Nat.pow 10 exponent.toNat * 2 ^ 1074
  if value < middle then low
  else if middle < value then low + 1
  else match tie with
    | .toEven => low + low % 2
    | .upward => low + 1

/-- The steps of the grid of `10 ^ exponent` that fit into the value. -/
def stepsBelow (m : Magnitude) (exponent : Int) : Nat :=
  m.units * Nat.pow 10 (-exponent).toNat / (Nat.pow 10 exponent.toNat * 2 ^ 1074)

/-- The decimal of one grid that reads back as the magnitude, if there is one. -/
def onGrid? (tie : TieRule) (m : Magnitude) (exponent : Int) : Option Decimal :=
  let low := m.stepsBelow exponent
  if Decimal.magnitude? ⟨low, exponent⟩ = some m then
    if Decimal.magnitude? ⟨low + 1, exponent⟩ = some m then
      some ⟨m.nearerNeighbour tie low exponent, exponent⟩
    else some ⟨low, exponent⟩
  else if Decimal.magnitude? ⟨low + 1, exponent⟩ = some m then some ⟨low + 1, exponent⟩
  else none

/-- Searches a number of grids, each ten times finer than the one before. -/
def searchGrids (tie : TieRule) (m : Magnitude) : Nat → Int → Decimal
  | 0, _ => m.toDecimal
  | grids + 1, exponent =>
    (m.onGrid? tie exponent).getD (m.searchGrids tie grids (exponent - 1))

/-- The exponent of a grid coarser than the value: `30103 / 100000` is just above the decimal
logarithm of two. -/
def coarseExponent (m : Magnitude) : Int := (m.units.log2 - 1073) * 30103 / 100000 + 2

/-- The shortest decimal. The last grid, that of `10 ^ -1074`, holds the value itself. -/
def shortest (tie : TieRule) (m : Magnitude) : Decimal :=
  m.searchGrids tie (m.coarseExponent + 1074).toNat m.coarseExponent

end Magnitude

/-- How the digits of a number are written. The place of the point is counted from before the first
digit, so 1 for 1.5 and 0 for 0.15. -/
structure NumberLayout where
  tie : TieRule
  /-- The least and the greatest place of the point that need no exponent. -/
  leastPlace : Int
  greatestPlace : Int
  /-- Ends the digits of a whole number. -/
  wholeEnd : String
  /-- Stands before an exponent that is not negative. -/
  exponentPlus : String

/-- The layout of the language: `1e+21`, `1.5e-7`, `0.000001`. -/
def NumberLayout.language : NumberLayout where
  tie := .toEven
  leastPlace := -5
  greatestPlace := 21
  wholeEnd := ""
  exponentPlus := "+"

/-- The layout of debug texts: `1.0`, `1e16`, `0.0001`. -/
def NumberLayout.debug : NumberLayout where
  tie := .upward
  leastPlace := -3
  greatestPlace := 16
  wholeEnd := ".0"
  exponentPlus := ""

/-- A decimal in a layout. -/
def Decimal.layOut (layout : NumberLayout) (d : Decimal) : String :=
  let digits := Nat.toDigits 10 d.coefficient
  let place := digits.length + d.exponent
  if layout.leastPlace ≤ place ∧ place ≤ layout.greatestPlace then
    if 0 ≤ d.exponent then
      .ofList (digits ++ .replicate d.exponent.toNat '0') ++ layout.wholeEnd
    else if 0 < place then
      .ofList (digits.take place.toNat ++ '.' :: digits.drop place.toNat)
    else
      .ofList ('0' :: '.' :: .replicate (-place).toNat '0' ++ digits)
  else
    let fraction := digits.drop 1
    let mantissa := digits.take 1 ++ (if fraction.isEmpty then [] else '.' :: fraction)
    let sign := if place ≤ 0 then "-" else layout.exponentPlus
    .ofList mantissa ++ "e" ++ sign ++ toString (place - 1).natAbs

/-- Writes the finite numbers other than the zeros, given by sign and magnitude. -/
abbrev Formatter := Bool → Magnitude → String

namespace Formatter

/-- Writes the shortest decimal in a layout. -/
def ofLayout (layout : NumberLayout) : Formatter := fun negative m =>
  (if negative then "-" else "") ++ (m.shortest layout.tie).layOut layout

/-- The formatter in use where the engine brings no other. -/
def shortest : Formatter := ofLayout .language

end Formatter

namespace Binary64

/-- The text of a number in the language. -/
def toText (x : Binary64) (format : Formatter := .shortest) : String :=
  match x with
  | nan => "NaN"
  | infinity s => if s then "-Infinity" else "Infinity"
  | finite s m => if m.significand = 0 then "0" else format s m

/-- The text of a number for debugging. -/
def debugText : Binary64 → String
  | nan => "NaN"
  | infinity s => if s then "-inf" else "inf"
  | finite s m =>
    if m.significand = 0 then (if s then "-0.0" else "0.0") else Formatter.ofLayout .debug s m

example : (ofNat (10 ^ 20)).toText = "100000000000000000000" := by decide +kernel
example : (ofNat (10 ^ 21)).toText = "1e+21" := by decide +kernel
example : (round true 3 2).toText = "-1.5" := by decide +kernel
example : (round false 1 (10 ^ 6)).toText = "0.000001" := by decide +kernel
example : (round false 1 (10 ^ 7)).toText = "1e-7" := by decide +kernel
example : (ofNat (10 ^ 15)).debugText = "1000000000000000.0" := by decide +kernel
example : (ofNat (10 ^ 16)).debugText = "1e16" := by decide +kernel
example : (finite true .zero).toText = "0" ∧ (finite true .zero).debugText = "-0.0" := by
  decide +kernel

end Binary64
end EcmaCore
