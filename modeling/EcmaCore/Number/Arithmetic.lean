import EcmaCore.Number.Binary64

/-!
# Arithmetic and machine words

The operations of the standard on numbers. Each is computed on exact units and rounded once. Then
truncation toward zero, and the words of 16 and 32 bits. A word is computed on numbers: the integral
part is reduced by a remainder, brought into range by one sum, and cast.
-/
namespace EcmaCore.Binary64

/-- The units of a magnitude with a sign. -/
def signed (negative : Bool) (m : Magnitude) : Int :=
  if negative then -(m.units : Int) else m.units

/-- The number nearest to so many units. The sign of a zero is given. -/
def ofUnits (negative : Bool) (units : Int) : Binary64 :=
  .ofMagnitude? (if units = 0 then negative else decide (units < 0))
    (Magnitude.nearest? units.natAbs 1)

def negate : Binary64 → Binary64
  | nan => nan
  | infinity s => infinity !s
  | finite s m => finite (!s) m

/-- The sum. Zeros of one sign keep it; any other sum of zero is positive. -/
def plus : Binary64 → Binary64 → Binary64
  | infinity s, infinity t => if s = t then infinity s else nan
  | infinity s, finite _ _ => infinity s
  | finite _ _, infinity t => infinity t
  | finite s m, finite t n => ofUnits (s && t) (signed s m + signed t n)
  | _, _ => nan

def minus (x y : Binary64) : Binary64 := x.plus y.negate

/-- The remainder of the division that truncates. It has the sign of the dividend. -/
def remainder : Binary64 → Binary64 → Binary64
  | finite s m, infinity _ => finite s m
  | finite s m, finite _ n =>
    if n.significand = 0 then nan else ofUnits s ((signed s m).tmod n.units)
  | _, _ => nan

/-- The part before the point, with the sign kept. -/
def truncate : Binary64 → Binary64
  | finite s m => round s m.floor 1
  | x => x

def less : Binary64 → Binary64 → Bool
  | infinity s, infinity t => s && !t
  | infinity s, finite _ _ => s
  | finite _ _, infinity t => !t
  | finite s m, finite t n => signed s m < signed t n
  | _, _ => false

def atLeast (x y : Binary64) : Bool := less y x || equals x y

/-- The integer part of a number; zero for the numbers that are not finite. -/
def integerPart : Binary64 → Int
  | finite true m => -(m.floor : Int)
  | finite false m => m.floor
  | _ => 0

/-- Truncates toward zero and keeps the sign, so a number between minus one and zero becomes minus
zero. Only `nan` is replaced, by zero. -/
def toIntegral : Binary64 → Binary64
  | nan => zero
  | x => x.truncate

/-- The cast to a range of integers: what lies beyond an end becomes the end, and `nan` zero. -/
def saturate (low high : Int) : Binary64 → Int
  | nan => 0
  | infinity s => if s then low else high
  | finite s m => max low (min high (finite s m).integerPart)

/-- The integral part, reduced to lie from zero up to the modulus. -/
def reduce : Binary64 → Binary64 → Binary64
  | finite s m, modulus =>
    if m.significand = 0 then zero
    else
      let rest := (finite s m).truncate.remainder modulus
      if rest.less zero then rest.plus modulus else rest
  | _, _ => zero

/-- The upper half of the residues modulo `2 ^ 32` stands for the negative ones. -/
def centre (x : Binary64) : Binary64 :=
  if x.atLeast (ofNat (2 ^ 31)) then x.minus (ofNat (2 ^ 32)) else x

def toInt32 (x : Binary64) : Int32 :=
  .ofInt ((x.reduce (ofNat (2 ^ 32))).centre.saturate (-2 ^ 31) (2 ^ 31 - 1))

def toUInt32 (x : Binary64) : UInt32 :=
  .ofInt ((x.reduce (ofNat (2 ^ 32))).saturate 0 (2 ^ 32 - 1))

def toUInt16 (x : Binary64) : UInt16 :=
  .ofInt ((x.reduce (ofNat (2 ^ 16))).saturate 0 (2 ^ 16 - 1))

end EcmaCore.Binary64
