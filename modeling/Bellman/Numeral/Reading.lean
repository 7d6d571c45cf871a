import Bellman.Numeral.Formula
import Bellman.Text.Lines
import Bellman.Text.Blank

/-!
# Reading numbers, vectors and matrices

A number is read in stages, and the first one that fails is what is reported: the text
must not be blank, must hold no characters but those of numerals, no exponent of four
digits, must be a well-formed phrase, must have a value, that must be a real number, and
there must be a double for it.

A matrix is read from its lines, of which blank ones do not count, and each line from
its cells. The shape is looked at before any cell.
-/

namespace Bellman.Numeral

open Text

/-- Why a text is not a number. -/
inductive ScalarError where
  | blank
  | foreignCharacter (token : String)
  /-- An exponent has four digits or more, or there is no double for the value. -/
  | outOfRange (token : String)
  | malformed (token : String)
  | obstructed (token : String) (o : Obstacle)
  | notReal (token : String)
  /-- The text says a thing that is no number, which no message is made of. -/
  | notANumber
deriving DecidableEq, Repr

def Obstacle.message : Obstacle → String
  | .symbol => "Expected a number, got a symbol."
  | .notFinite => "Number is not finite."
  | .tooManyDigits digits => "Power is out of range (about " ++ toString digits ++ " digits)."
  | .notANumber => ""

def inQuotes (token : String) : String :=
  "'" ++ token ++ "'"

/-- The reason in words, where it has any. -/
def ScalarError.message? : ScalarError → Option String
  | .blank => some "Expected a number, got an empty value."
  | .foreignCharacter t => some ("Invalid number: " ++ inQuotes t ++ ".")
  | .outOfRange t => some (inQuotes t ++ " is out of range.")
  | .malformed t => some ("Could not parse number: " ++ inQuotes t ++ ".")
  | .obstructed t o => some (inQuotes t ++ ": " ++ o.message)
  | .notReal t => some (inQuotes t ++ " is not a finite real number.")
  | .notANumber => none

def isNumeralChar (c : Char) : Bool :=
  c.isDigit || c == 'e' || c == 'E' || c == '.' || c == '+' || c == '-' || c == '*' ||
    c == '/' || c == '^' || c == '(' || c == ')' || isBlank c

def startsWithFourDigits (cs : List Char) : Bool :=
  4 ≤ (cs.takeWhile Char.isDigit).length

/-- Somewhere a letter e, perhaps a sign, and four digits follow one another. Such a
literal may be thousands of digits long when written out, so it is refused before it is
computed. -/
def hasLongExponent : List Char → Bool
  | [] => false
  | c :: cs =>
      ((c == 'e' || c == 'E') &&
        (startsWithFourDigits cs ||
          (cs.head?.any fun s => s == '+' || s == '-') && startsWithFourDigits cs.tail)) ||
        hasLongExponent cs

/-- A real finite value rounded to a double. -/
def roundValue (token : String) (v : Value) : Except ScalarError Binary64 :=
  let k := v.knowledge
  if k.isReal && k.isFinite then
    let x := v.toBinary64
    if x.isFinite then .ok x else .error (.outOfRange token)
  else .error (.notReal token)

def readFormula (token : String) (a : Formula) : Except ScalarError Binary64 :=
  match a.evaluate with
  | .ok v => roundValue token v
  | .error .notANumber => .error .notANumber
  | .error o => .error (.obstructed token o)

/-- The number that a phrase says. Empty brackets, three dots and the bare function say
things of another kind when they stand alone, and no message is made of these. -/
def readMeaning (token : String) : Phrase → Except ScalarError Binary64
  | .emptyBrackets => .error .notANumber
  | .ellipsis => .error .notANumber
  | .bareFunction => .error .notANumber
  | p =>
      match Formula.ofPhrase? p with
      | some a => readFormula token a
      | none => .error (.malformed token)

/-- Reads a number from a text without blanks at its ends. -/
def readToken (cs : List Char) : Except ScalarError Binary64 :=
  let token := String.ofList cs
  if cs.isEmpty then .error .blank
  else if !cs.all isNumeralChar then .error (.foreignCharacter token)
  else if hasLongExponent cs then .error (.outOfRange token)
  else
    match readPhrase cs with
    | some p => readMeaning token p
    | none => .error (.malformed token)

/-- Reads a number from a text. Blanks at its ends do not count. -/
def readScalar (text : String) : Except ScalarError Binary64 :=
  readToken (trim text.toList)

inductive TableError where
  | noRows
  /-- A line, counted from one, has another number of cells than there are lines. -/
  | rowLength (row cells rows : Nat)
  | vectorLength (cells : Nat) (expected : Int)
  | scalar (e : ScalarError)
deriving DecidableEq, Repr

def TableError.message? : TableError → Option String
  | .noRows => some "P must be square, got no rows."
  | .rowLength row cells rows =>
      some ("P must be square: row " ++ toString row ++ " has " ++ toString cells ++
        " entries, expected " ++ toString rows ++ ".")
  | .vectorLength cells expected =>
      some ("R length mismatch: got " ++ toString cells ++ " entries, expected " ++
        toString expected ++ ".")
  | .scalar e => e.message?

/-- The lines of a text that are not blank. Rows are counted among these, so a row may
stand on a later line than its number says. -/
def rowTexts (cs : List Char) : List (List Char) :=
  (lines (trim cs)).filter fun l => !(trim l).isEmpty

def readCells (row : List (List Char)) : Except TableError (List Binary64) :=
  row.mapM fun c =>
    match readToken (trim c) with
    | .ok x => .ok x
    | .error e => .error (.scalar e)

/-- The first of the rows, counted from `row`, that has not `n` cells. -/
def wrongRow? (n : Nat) (row : Nat) : List (List (List Char)) → Option (Nat × Nat)
  | [] => none
  | r :: rs => if r.length = n then wrongRow? n (row + 1) rs else some (row, r.length)

/-- Reads a square matrix, with as many cells in a line as there are lines. A wrong row is
reported before any cell is read. -/
def readMatrix (text : String) : Except TableError (List (List Binary64)) :=
  let rows := (rowTexts text.toList).map cells
  if rows.isEmpty then .error .noRows
  else
    match wrongRow? rows.length 1 rows with
    | some (row, n) => .error (.rowLength row n rows.length)
    | none => rows.mapM readCells

/-- Reads a vector of a given length. The text is not taken apart into lines, so a line
break is part of the cell in which it stands. -/
def readVector (text : String) (n : Int) : Except TableError (List Binary64) :=
  let row := cells (trim text.toList)
  if (row.length : Int) ≠ n then .error (.vectorLength row.length n)
  else readCells row

end Bellman.Numeral
