import EcmaCore.Text

/-!
# The depth limit

How many prototype links a walk may follow, and the text of the setting that gives the limit.
-/
namespace EcmaCore

structure DepthLimit where
  /-- The greatest depth; none is no limit. -/
  max : Option Nat
  deriving DecidableEq, Repr

namespace DepthLimit

def unlimited : DepthLimit := ⟨none⟩

def default : DepthLimit := ⟨some 10000⟩

instance : Inhabited DepthLimit := ⟨default⟩

/-- Whether a walk that has followed some number of links may go on. -/
def allows (limit : DepthLimit) (depth : Nat) : Bool :=
  match limit.max with
  | some max => depth ≤ max
  | none => true

/-- A decimal number of 64 bits; a plus sign may lead. -/
def readCount? (cs : List Char) : Option Nat :=
  let digits := match cs with
    | '+' :: rest => rest
    | cs => cs
  if digits.isEmpty || !digits.all Char.isDigit then none
  else
    let n := Nat.ofDigitChars 10 digits 0
    if n < 2 ^ 64 then some n else none

/-- Reads a limit: the word "unlimited" in any case, or a positive number. White space around it
does not count. -/
def parse? (setting : String) : Option DepthLimit :=
  let cs := trimBoth isWhiteSpace setting.toList
  if cs.map Char.toLower = "unlimited".toList then some unlimited
  else match readCount? cs with
    | some n => if 0 < n then some ⟨some n⟩ else none
    | none => none

example : parse? " +25 " = some ⟨some 25⟩ := by decide +kernel
example : parse? "UnLimited" = some unlimited := by decide +kernel
example : parse? "0" = none ∧ parse? "-1" = none ∧ parse? "18446744073709551616" = none := by
  decide +kernel

/-- The limit of a setting that may be absent or malformed. -/
def ofSetting (setting : Option String) : DepthLimit := (setting.bind parse?).getD default

end DepthLimit
end EcmaCore
