/-!
# Texts

A text is a sequence of 16-bit code units. Nothing asks that the units pair up, so a text may hold
surrogates that stand alone; turning it into characters puts the replacement character for each of
them. On characters the round trip is the identity.

Of the characters two sets count as blank, which almost agree. Numerals skip white space and line
ends as the language defines them, with the byte order mark and without the next-line control;
settings are trimmed of the characters with the property White_Space.
-/
namespace EcmaCore

structure Text where
  units : List UInt16
  deriving DecidableEq, Repr

/-- The first half of a pair. -/
def isHighSurrogate (u : UInt16) : Bool := 0xD800 ≤ u && u < 0xDC00

/-- The second half of a pair. -/
def isLowSurrogate (u : UInt16) : Bool := 0xDC00 ≤ u && u < 0xE000

/-- The code units of a character: one, or a pair beyond the first 65536. -/
def encodeChar (c : Char) : List UInt16 :=
  if c.toNat < 0x10000 then [.ofNat c.toNat]
  else [.ofNat (0xD800 + (c.toNat - 0x10000) / 0x400), .ofNat (0xDC00 + (c.toNat - 0x10000) % 0x400)]

/-- The character of a unit outside pairs. -/
def decodeUnit (u : UInt16) : Char :=
  if isHighSurrogate u || isLowSurrogate u then '\uFFFD' else .ofNat u.toNat

/-- The character of a pair. -/
def decodePair (high low : UInt16) : Char :=
  .ofNat (0x10000 + (high.toNat - 0xD800) * 0x400 + (low.toNat - 0xDC00))

/-- Reads characters from units. A high surrogate pairs with a low one right after it. -/
def decodeUnits : List UInt16 → List Char
  | [] => []
  | [u] => [decodeUnit u]
  | u :: v :: rest =>
    if isHighSurrogate u && isLowSurrogate v then decodePair u v :: decodeUnits rest
    else decodeUnit u :: decodeUnits (v :: rest)

namespace Text

def empty : Text := ⟨[]⟩

def length (t : Text) : Nat := t.units.length

def isEmpty (t : Text) : Bool := t.units.isEmpty

def unitAt? (t : Text) (i : Nat) : Option UInt16 := t.units[i]?

def ofUnit (u : UInt16) : Text := ⟨[u]⟩

def ofString (s : String) : Text := ⟨s.toList.flatMap encodeChar⟩

/-- The characters of a text, with the replacement character for each unpaired surrogate. -/
def toChars (t : Text) : List Char := decodeUnits t.units

def toString (t : Text) : String := .ofList t.toChars

/-- Whether every surrogate of a unit sequence belongs to a pair. -/
def isPaired : List UInt16 → Bool
  | [] => true
  | [u] => !isHighSurrogate u && !isLowSurrogate u
  | u :: v :: rest =>
    if isHighSurrogate u && isLowSurrogate v then isPaired rest
    else !isHighSurrogate u && !isLowSurrogate u && isPaired (v :: rest)

end Text

/-- The space separators. -/
def isSpaceSeparator (c : Char) : Bool :=
  c == ' ' || c == '\u00A0' || c == '\u1680' || ('\u2000' ≤ c && c ≤ '\u200A') || c == '\u202F' ||
    c == '\u205F' || c == '\u3000'

/-- The controls from tab to carriage return, and the two separators of lines and paragraphs. -/
def isLineOrTab (c : Char) : Bool :=
  ('\t' ≤ c && c ≤ '\r') || c == '\u2028' || c == '\u2029'

/-- White space and line ends of numerals. -/
def isBlank (c : Char) : Bool := isSpaceSeparator c || isLineOrTab c || c == '\uFEFF'

/-- The property White_Space. -/
def isWhiteSpace (c : Char) : Bool := isSpaceSeparator c || isLineOrTab c || c == '\u0085'

/-- Drops the characters with a property from both ends. -/
def trimBoth (p : Char → Bool) (cs : List Char) : List Char :=
  ((cs.dropWhile p).reverse.dropWhile p).reverse

end EcmaCore
