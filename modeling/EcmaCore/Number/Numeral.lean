import EcmaCore.Number.Arithmetic
import EcmaCore.Text

/-!
# Numerals

The texts that stand for a number, and the number each stands for. A grammar matches the text and
keeps what its rules took; the number is made of these parts. Digits with a point or an exponent are
left to a reader of numbers that knows more forms than the grammar lets through. A text of blanks
stands for zero; every other text that the grammar does not match stands for no number.
-/
namespace EcmaCore

/-- The value of a hexadecimal digit. -/
def hexDigit? (c : Char) : Option Nat :=
  if c.isDigit then some (c.toNat - '0'.toNat)
  else if 'a' ≤ c && c ≤ 'f' then some (c.toNat - 'a'.toNat + 10)
  else if 'A' ≤ c && c ≤ 'F' then some (c.toNat - 'A'.toNat + 10)
  else none

/-- The rules whose matches are kept. -/
inductive Rule where
  | hexadecimal | decimal | sign | infinity | number | stop
  deriving DecidableEq, Repr

/-- What a rule took of a text, with the parts that rules inside of it took. -/
structure Part where
  rule : Rule
  text : List Char
  inner : List Part

/-- The operators of the grammar. Repetitions are of single characters only. -/
inductive Pattern where
  | one (p : Char → Bool)
  | many (p : Char → Bool)
  | word (w : List Char)
  | chain (a b : Pattern)
  | either (a b : Pattern)
  | maybe (a : Pattern)
  | stop
  | keep (rule : Rule) (a : Pattern)

namespace Pattern

/-- The parts that a pattern keeps of some characters and what it leaves of them, if it matches.
Alternatives are tried in order, and repetitions take all they can; there is no way back into
either. -/
def run : Pattern → List Char → Option (List Part × List Char)
  | one _, [] => none
  | one p, c :: cs => if p c then some ([], cs) else none
  | many p, cs => some ([], cs.dropWhile p)
  | word w, cs => if w.isPrefixOf cs then some ([], cs.drop w.length) else none
  | chain a b, cs =>
    (a.run cs).bind fun (first, between) =>
      (b.run between).map fun (second, rest) => (first ++ second, rest)
  | either a b, cs => (a.run cs).or (b.run cs)
  | maybe a, cs => some ((a.run cs).getD ([], cs))
  | stop, cs => if cs.isEmpty then some ([], []) else none
  | keep rule a, cs =>
    (a.run cs).map fun (inner, rest) => ([⟨rule, cs.take (cs.length - rest.length), inner⟩], rest)

def char (c : Char) : Pattern := one (· == c)

/-- One or more. -/
def several (p : Char → Bool) : Pattern := chain (one p) (many p)

def hexadecimal : Pattern :=
  keep .hexadecimal
    (chain (either (word "0x".toList) (word "0X".toList)) (several fun c => (hexDigit? c).isSome))

def sign : Pattern := either (char '+') (char '-')

def exponent : Pattern :=
  chain (either (char 'e') (char 'E')) (chain (maybe sign) (several Char.isDigit))

def mantissa : Pattern :=
  either (chain (several Char.isDigit) (maybe (chain (char '.') (many Char.isDigit))))
    (chain (char '.') (several Char.isDigit))

def decimal : Pattern :=
  keep .decimal (chain (maybe (keep .sign sign))
    (either (keep .infinity (word "Infinity".toList))
      (keep .number (chain mantissa (maybe exponent)))))

/-- The whole grammar: blanks, maybe a numeral with blanks after it, and the end. -/
def numeral : Pattern :=
  chain (many isBlank)
    (chain (maybe (chain (either hexadecimal decimal) (many isBlank))) (keep .stop stop))

end Pattern

/-- A sign, if one leads, and the rest. -/
def splitSign : List Char → Bool × List Char
  | '-' :: rest => (true, rest)
  | '+' :: rest => (false, rest)
  | cs => (false, cs)

/-- One or more digits and nothing else. -/
def readDigits? (cs : List Char) : Option Nat :=
  if cs.isEmpty || !cs.all Char.isDigit then none else some (Nat.ofDigitChars 10 cs 0)

/-- What follows the digits of a decimal: nothing, or an exponent. -/
def readExponent? : List Char → Option Int
  | [] => some 0
  | c :: rest =>
    if c == 'e' || c == 'E' then
      let (negative, digits) := splitSign rest
      (readDigits? digits).map fun (n : Nat) => if negative then -(n : Int) else (n : Int)
    else none

/-- Digits with at most one point among or around them, and maybe an exponent. -/
def readDecimal? (cs : List Char) : Option Decimal :=
  let whole := cs.takeWhile Char.isDigit
  let afterWhole := cs.dropWhile Char.isDigit
  let afterPoint := match afterWhole with
    | '.' :: rest => rest
    | _ => []
  let fraction := afterPoint.takeWhile Char.isDigit
  let tail := match afterWhole with
    | '.' :: rest => rest.dropWhile Char.isDigit
    | rest => rest
  if whole.isEmpty && fraction.isEmpty then none
  else (readExponent? tail).map fun exponent =>
    ⟨Nat.ofDigitChars 10 (whole ++ fraction) 0, exponent - fraction.length⟩

namespace Binary64

/-- Reads a number: a sign, if there is one, and a decimal or one of three names in any case. -/
def parse? (cs : List Char) : Option Binary64 :=
  let (negative, body) := splitSign cs
  let name := body.map Char.toLower
  if name = "inf".toList ∨ name = "infinity".toList then some (.infinity negative)
  else if name = "nan".toList then some .nan
  else (readDecimal? body).map fun d => d.toBinary64 negative

/-- Sixteen times a number and a digit more, rounded. -/
def pushHexDigit (x : Binary64) (digit : Nat) : Binary64 :=
  match x with
  | finite s m => ofMagnitude? s (Magnitude.nearest? (16 * m.units + digit * 2 ^ 1074) 1)
  | x => x

/-- The number of hexadecimal digits, built digit by digit and rounded at each. -/
def ofHexDigits (cs : List Char) : Binary64 :=
  cs.foldl (fun x c => x.pushHexDigit ((hexDigit? c).getD 0)) .zero

/-- A sign and a number without one, each as far as parts up to now tell it. -/
def readPart : Bool × Binary64 → Part → Bool × Binary64
  | (negative, x), part =>
    match part.rule with
    | .sign => (part.text == ['-'], x)
    | .infinity => (negative, .infinity false)
    | .number => (negative, (parse? part.text).getD .nan)
    | _ => (negative, x)

/-- The number of a decimal, from the parts inside of it. -/
def ofDecimalParts (parts : List Part) : Binary64 :=
  let (negative, x) := parts.foldl readPart (false, .nan)
  if negative then x.negate else x

/-- The number of a text, from the parts that the grammar keeps of it. -/
def ofParts? (parts : List Part) : Option Binary64 :=
  parts.foldlM (fun x part =>
    match part.rule with
    | .hexadecimal => some (ofHexDigits (part.text.drop 2))
    | .decimal => some (ofDecimalParts part.inner)
    | .stop => some x
    | _ => none) .zero

/-- The number of a numeral with blanks around it. -/
def ofNumeral? (cs : List Char) : Option Binary64 :=
  (Pattern.numeral.run cs).bind fun (parts, _) => ofParts? parts

end Binary64

/-- The number that a text stands for. -/
def Text.toNumber (t : Text) : Binary64 := (Binary64.ofNumeral? t.toChars).getD .nan

example : (Text.ofString " -1.25e3\n").toNumber = .round true 1250 1 := by decide +kernel
example : (Text.ofString "0xfF").toNumber = .ofNat 255 := by decide +kernel
example : (Text.ofString "-0x1").toNumber = .nan ∧ (Text.ofString "1e").toNumber = .nan := by
  decide +kernel
example : Binary64.parse? "-iNF".toList = some (.infinity true) := by decide +kernel

end EcmaCore
