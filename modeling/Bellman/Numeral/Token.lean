import Bellman.Text.DecimalDigit

/-!
# Tokens of a numeral

A numeral is written with decimal literals, names made of the letter e and digits, the
signs of arithmetic, brackets and points. Blanks between signs do not matter, so two
stars are a power sign however far apart they stand on a line; a caret is another way to
write two stars. A line break outside brackets ends a statement, and the next line must
not be indented; a carriage return is a line break after which indentation is not looked
at. Any other character, and a whole number of too many digits, makes the text unreadable.

A name means different things by its neighbours: after a point it is a member, before a
bracket a function. The name E alone is Euler's number, and E1 is the name of a function
wherever it stands.
-/

namespace Bellman.Numeral

open Text (digitLimit)

/-- The most brackets that may be open at once. A literal, a symbol and the name of a
function each open one of their own, since each is read as the call of what makes it.
Operations do not count; a reader whose stack is bounded may give up on some hundreds of
operations and brackets that stand in one another, which are read here. -/
def nestingLimit : Nat := 200

/-- An unsigned decimal literal as it is written. A part that is missing is `none`, which
tells a whole number from one with a point and no digits after it. -/
structure Literal where
  whole : List Char
  fraction : Option (List Char)
  exponent : Option (Bool × List Char)
deriving DecidableEq, Repr

def digitsValue (ds : List Char) : Nat :=
  ds.foldl (fun n d => 10 * n + (d.toNat - '0'.toNat)) 0

/-- The exact value of a literal. Too many digits before or after the point cannot be
read. -/
def Literal.value? (l : Literal) : Option Rat :=
  let fraction := l.fraction.getD []
  if digitLimit < l.whole.length ∨ digitLimit < fraction.length then none
  else
    let units : Rat := digitsValue (l.whole ++ fraction)
    let power : Int :=
      match l.exponent with
      | none => 0
      | some (negative, ds) => if negative then -(digitsValue ds : Int) else digitsValue ds
    some (units * (10 : Rat) ^ (power - fraction.length))

def Literal.isWhole (l : Literal) : Bool :=
  l.fraction.isNone && l.exponent.isNone

/-- An exponent at the start of a text: its sign and digits, and what follows. A letter
without digits behind it is none; it is left to be read as a name. -/
def readExponent (cs : List Char) : Option ((Bool × List Char) × List Char) :=
  match cs with
  | e :: cs =>
      if e = 'e' ∨ e = 'E' then
        let (negative, cs) :=
          match cs with
          | '-' :: r => (true, r)
          | '+' :: r => (false, r)
          | r => (false, r)
        let ds := cs.takeWhile Char.isDigit
        if ds.isEmpty then none else some ((negative, ds), cs.dropWhile Char.isDigit)
      else none
  | [] => none

def withExponent (whole : List Char) (fraction : Option (List Char)) (cs : List Char) :
    Literal × List Char :=
  match readExponent cs with
  | some (exponent, rest) => (⟨whole, fraction, some exponent⟩, rest)
  | none => (⟨whole, fraction, none⟩, cs)

/-- The longest literal at the start of a text, and what follows. A whole number that
begins with zero is zeros only; other digits behind them are left and make a literal of
their own, which no phrase has room for. -/
def readLiteral (cs : List Char) : Literal × List Char :=
  let ds := cs.takeWhile Char.isDigit
  match cs.dropWhile Char.isDigit with
  | '.' :: rest =>
      withExponent ds (some (rest.takeWhile Char.isDigit)) (rest.dropWhile Char.isDigit)
  | rest =>
      match readExponent rest with
      | some (exponent, rest) => (⟨ds, none, some exponent⟩, rest)
      | none =>
          if ds.head? = some '0' then
            (⟨ds.takeWhile (· == '0'), none, none⟩, ds.dropWhile (· == '0') ++ rest)
          else (⟨ds, none, none⟩, rest)

/-- What a text is made of, before neighbours are looked at. -/
inductive Mark where
  | literal (l : Literal)
  | name (cs : List Char)
  | sign (c : Char)
  | lineBreak
deriving DecidableEq, Repr

/-- A blank inside a line. All other blanks either end a line or make a text unreadable. -/
def isGap (c : Char) : Bool :=
  c == ' ' || c == '\t' || c == '\x0c'

def isNameChar (c : Char) : Bool :=
  c == 'e' || c == 'E' || c.isDigit

def isSign (c : Char) : Bool :=
  c == '+' || c == '-' || c == '*' || c == '/' || c == '(' || c == ')' || c == '.'

/-- A line whose first character other than blanks does not stand at the left margin. A
form feed returns to the margin. -/
def isIndented (column : Nat) : List Char → Bool
  | ' ' :: cs => isIndented (column + 1) cs
  | '\t' :: cs => isIndented (column + 8 - column % 8) cs
  | '\x0c' :: cs => isIndented 0 cs
  | '\n' :: _ => false
  | '\r' :: _ => false
  | [] => false
  | _ => column != 0

/-- The marks of a text under a number of open brackets. Each step takes at least one
character, so as many steps as characters suffice. -/
def marksFrom : (steps : Nat) → (depth : Nat) → List Char → Option (List Mark)
  | _, _, [] => some []
  | 0, _, _ :: _ => none
  | steps + 1, depth, c :: cs =>
      if isGap c then marksFrom steps depth cs
      else if c = '\n' then
        if depth = 0 && isIndented 0 cs then none
        else (marksFrom steps depth cs).map (.lineBreak :: ·)
      else if c = '\r' then (marksFrom steps depth cs).map (.lineBreak :: ·)
      else if c.isDigit || (c == '.' && cs.head?.any Char.isDigit) then
        let (l, rest) := readLiteral (c :: cs)
        if l.isWhole && decide (digitLimit < l.whole.length) then none
        else (marksFrom steps depth rest).map (.literal l :: ·)
      else if isNameChar c then
        (marksFrom steps depth (cs.dropWhile isNameChar)).map
          (.name (c :: cs.takeWhile isNameChar) :: ·)
      else if c = '^' then
        (marksFrom steps depth cs).map fun ms => .sign '*' :: .sign '*' :: ms
      else if c = '(' then (marksFrom steps (depth + 1) cs).map (.sign c :: ·)
      else if c = ')' then (marksFrom steps (depth - 1) cs).map (.sign c :: ·)
      else if isSign c then (marksFrom steps depth cs).map (.sign c :: ·)
      else none

def marks (cs : List Char) : Option (List Mark) :=
  marksFrom cs.length 0 cs

/-- What a text is made of once neighbours have been looked at. -/
inductive Token where
  | literal (l : Literal)
  | euler
  | symbol (name : List Char)
  | function (name : List Char)
  | member
  | bareFunction
  | plus
  | minus
  | times
  | divide
  | floorDivide
  | power
  | opening
  | closing
  | dot
  | ellipsis
  | lineBreak
deriving DecidableEq, Repr

def eulerName : List Char := ['E']

/-- The name that is a function also without an argument. -/
def functionName : List Char := ['E', '1']

/-- What a name means where no point stands before it. -/
def nameToken (name : List Char) (beforeBracket : Bool) : Token :=
  if name = eulerName then .euler
  else if beforeBracket then .function name
  else if name = functionName then .bareFunction
  else .symbol name

def signToken (c : Char) : Token :=
  if c = '+' then .plus
  else if c = '-' then .minus
  else if c = '*' then .times
  else if c = '/' then .divide
  else if c = '(' then .opening
  else if c = ')' then .closing
  else .dot

/-- The tokens of marks: neighbouring signs are joined, and names understood. Blanks are
gone by now, so signs are neighbours however far apart they stand. -/
def tokens : List Mark → List Token
  | [] => []
  | .literal l :: ms => .literal l :: tokens ms
  | .lineBreak :: ms => .lineBreak :: tokens ms
  | .sign '*' :: .sign '*' :: ms => .power :: tokens ms
  | .sign '/' :: .sign '/' :: ms => .floorDivide :: tokens ms
  | .sign '.' :: .sign '.' :: .sign '.' :: ms => .ellipsis :: tokens ms
  | .sign '.' :: .name _ :: ms => .dot :: .member :: tokens ms
  | .sign c :: ms => signToken c :: tokens ms
  | .name cs :: .sign '(' :: ms => nameToken cs true :: .opening :: tokens ms
  | .name cs :: ms => nameToken cs false :: tokens ms

/-- The most brackets that are open at once after `depth` of them are. A closing bracket
without a partner does no harm here, because no phrase has one. -/
def deepest (depth : Nat) : List Token → Nat
  | [] => depth
  | .opening :: ts => max depth (deepest (depth + 1) ts)
  | .closing :: ts => max depth (deepest (depth - 1) ts)
  | .literal _ :: ts => max (depth + 1) (deepest depth ts)
  | .symbol _ :: ts => max (depth + 1) (deepest depth ts)
  | .function _ :: ts => max (depth + 1) (deepest depth ts)
  | _ :: ts => deepest depth ts

/-- The statements of a text: its tokens between line breaks outside brackets. -/
def statementsFrom (depth : Nat) : List Token → List (List Token)
  | [] => [[]]
  | .lineBreak :: ts => if depth = 0 then [] :: statementsFrom 0 ts else statementsFrom depth ts
  | t :: ts =>
      let depth' :=
        match t with
        | .opening => depth + 1
        | .closing => depth - 1
        | _ => depth
      match statementsFrom depth' ts with
      | [] => [[t]]
      | s :: ss => (t :: s) :: ss

def statements (ts : List Token) : List (List Token) :=
  (statementsFrom 0 ts).filter (!·.isEmpty)

/-- The statements of a text, unless it is unreadable or nested too deeply. -/
def readStatements (cs : List Char) : Option (List (List Token)) :=
  match marks cs with
  | none => none
  | some ms =>
      let ts := tokens ms
      if deepest 0 ts ≤ nestingLimit then some (statements ts) else none

end Bellman.Numeral
