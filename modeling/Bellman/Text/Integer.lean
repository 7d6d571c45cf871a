import Bellman.Text.Blank
import Bellman.Text.DecimalDigit

/-!
# Whole numbers in texts

A whole number may be padded by blanks, has at most one sign, and then digits of any
script, between which single underscores may stand. The separators of files, groups,
records and units are blanks elsewhere but do not pad a number.
-/

namespace Bellman.Text

/-- A blank that may stand around a whole number. -/
def isPadding (c : Char) : Bool :=
  isBlank c && !(0x1C ≤ c.toNat && c.toNat ≤ 0x1F)

/-- The values of digits, with single underscores between them left out. There is at
least one digit. -/
def digitValues? : List Char → Option (List Nat)
  | [] => none
  | [c] => (digitValue? c).map ([·])
  | c :: '_' :: cs => do
      let d ← digitValue? c
      return d :: (← digitValues? cs)
  | c :: cs => do
      let d ← digitValue? c
      return d :: (← digitValues? cs)

/-- The number that digits write, if they are not too many. Zeros in front count as digits
here. -/
def magnitude? (cs : List Char) : Option Nat := do
  let ds ← digitValues? cs
  if ds.length ≤ digitLimit then some (ds.foldl (fun n d => 10 * n + d) 0) else none

/-- Reads a whole number. A sign stands right before the digits, since the padding is taken
off before the sign is looked for. -/
def readInteger? (s : String) : Option Int :=
  let cs := s.toList.dropWhile isPadding
  match (cs.reverse.dropWhile isPadding).reverse with
  | '-' :: ds => (magnitude? ds).map fun n => -(n : Int)
  | '+' :: ds => (magnitude? ds).map fun n => (n : Int)
  | ds => (magnitude? ds).map fun n => (n : Int)

end Bellman.Text
