import Bellman.Numeral.Token

/-!
# Phrases

A statement is read as a phrase by the usual precedence: sums, products and quotients,
signs, powers, and then brackets and names. Sums and products group from the left,
powers from the right; a power binds tighter than a sign on its left, and its exponent
may carry signs of its own.

Some phrases are well formed but never numbers, such as the call of a number or a member
of it. They are kept as `senseless`, because statements after the first need only be
well formed.
-/

namespace Bellman.Numeral

inductive Operation where
  | add
  | subtract
  | multiply
  | divide
  | floorDivide
  | power
deriving DecidableEq, Repr

/-- What a statement says. -/
inductive Phrase where
  | literal (l : Literal)
  | euler
  | symbol (name : List Char)
  | bareFunction
  | emptyBrackets
  | ellipsis
  | call (name : List Char) (argument : Option Phrase)
  | plus (p : Phrase)
  | minus (p : Phrase)
  | binary (op : Operation) (p q : Phrase)
  | senseless
deriving Repr

namespace Phrase

/-- What is read between the brackets of a call: nothing, one phrase, or one with stars in
front of it. -/
inductive Argument where
  | none
  | one (p : Phrase)
  | starred

def ofCall (name : List Char) : Argument → Phrase
  | .none => if name = functionName then .senseless else .call name .none
  | .one p => .call name (some p)
  | .starred => .senseless

mutual

/-- A sum at the start of the tokens, and what follows. A reader calls those of the tighter
phrases with less fuel than it has, and `fuelFor` gives enough for all of them. -/
def readSum : Nat → List Token → Option (Phrase × List Token)
  | 0, _ => none
  | fuel + 1, ts =>
      match readProduct fuel ts with
      | none => none
      | some (p, rest) => moreSum fuel p rest

/-- The summands that follow a phrase. Each joins what stands to its left before the next
is read, so sums and differences group from the left. -/
def moreSum : Nat → Phrase → List Token → Option (Phrase × List Token)
  | 0, _, _ => none
  | fuel + 1, p, .plus :: ts =>
      match readProduct fuel ts with
      | none => none
      | some (q, rest) => moreSum fuel (.binary .add p q) rest
  | fuel + 1, p, .minus :: ts =>
      match readProduct fuel ts with
      | none => none
      | some (q, rest) => moreSum fuel (.binary .subtract p q) rest
  | _ + 1, p, ts => some (p, ts)

def readProduct : Nat → List Token → Option (Phrase × List Token)
  | 0, _ => none
  | fuel + 1, ts =>
      match readSigned fuel ts with
      | none => none
      | some (p, rest) => moreProduct fuel p rest

def moreProduct : Nat → Phrase → List Token → Option (Phrase × List Token)
  | 0, _, _ => none
  | fuel + 1, p, .times :: ts =>
      match readSigned fuel ts with
      | none => none
      | some (q, rest) => moreProduct fuel (.binary .multiply p q) rest
  | fuel + 1, p, .divide :: ts =>
      match readSigned fuel ts with
      | none => none
      | some (q, rest) => moreProduct fuel (.binary .divide p q) rest
  | fuel + 1, p, .floorDivide :: ts =>
      match readSigned fuel ts with
      | none => none
      | some (q, rest) => moreProduct fuel (.binary .floorDivide p q) rest
  | _ + 1, p, ts => some (p, ts)

/-- A power with signs in front of it, and what follows. -/
def readSigned : Nat → List Token → Option (Phrase × List Token)
  | 0, _ => none
  | fuel + 1, .plus :: ts =>
      match readSigned fuel ts with
      | none => none
      | some (p, rest) => some (.plus p, rest)
  | fuel + 1, .minus :: ts =>
      match readSigned fuel ts with
      | none => none
      | some (p, rest) => some (.minus p, rest)
  | fuel + 1, ts => readPower fuel ts

/-- A power at the start of the tokens, and what follows. The exponent is a phrase with
signs, so it may be a power itself, and powers group from the right. -/
def readPower : Nat → List Token → Option (Phrase × List Token)
  | 0, _ => none
  | fuel + 1, ts =>
      match readAtom fuel ts with
      | none => none
      | some (p, rest) =>
          match moreAtom fuel p rest with
          | none => none
          | some (p, .power :: rest) =>
              match readSigned fuel rest with
              | none => none
              | some (q, rest) => some (.binary .power p q, rest)
          | some (p, rest) => some (p, rest)

/-- A phrase that no operation takes apart, and what follows. -/
def readAtom : Nat → List Token → Option (Phrase × List Token)
  | 0, _ => none
  | _ + 1, .literal l :: ts => some (.literal l, ts)
  | _ + 1, .euler :: ts => some (.euler, ts)
  | _ + 1, .symbol name :: ts => some (.symbol name, ts)
  | _ + 1, .bareFunction :: ts => some (.bareFunction, ts)
  | _ + 1, .ellipsis :: ts => some (.ellipsis, ts)
  | fuel + 1, .function name :: .opening :: ts =>
      match readArgument fuel ts with
      | none => none
      | some (a, rest) => some (ofCall name a, rest)
  | _ + 1, .opening :: .closing :: ts => some (.emptyBrackets, ts)
  | fuel + 1, .opening :: ts =>
      match readSum fuel ts with
      | some (p, .closing :: rest) => some (p, rest)
      | _ => none
  | _ + 1, _ => none

/-- Calls and members of a phrase, none of which is a number. -/
def moreAtom : Nat → Phrase → List Token → Option (Phrase × List Token)
  | 0, _, _ => none
  | fuel + 1, _, .opening :: ts =>
      match readArgument fuel ts with
      | none => none
      | some (_, rest) => moreAtom fuel .senseless rest
  | fuel + 1, _, .dot :: .member :: ts => moreAtom fuel .senseless ts
  | fuel + 1, _, .dot :: .literal _ :: ts => moreAtom fuel .senseless ts
  | fuel + 1, _, .dot :: .symbol _ :: ts => moreAtom fuel .senseless ts
  | fuel + 1, _, .dot :: .function _ :: ts => moreAtom fuel .senseless ts
  | fuel + 1, _, .dot :: .euler :: ts => moreAtom fuel .senseless ts
  | fuel + 1, _, .dot :: .bareFunction :: ts => moreAtom fuel .senseless ts
  | _ + 1, p, ts => some (p, ts)

/-- What stands in the brackets of a call, up to the closing one, and what follows. -/
def readArgument : Nat → List Token → Option (Argument × List Token)
  | 0, _ => none
  | _ + 1, .closing :: ts => some (.none, ts)
  | fuel + 1, .times :: ts =>
      match readSum fuel ts with
      | some (_, .closing :: rest) => some (.starred, rest)
      | _ => none
  | fuel + 1, .power :: ts =>
      match readSum fuel ts with
      | some (_, .closing :: rest) => some (.starred, rest)
      | _ => none
  | fuel + 1, ts =>
      match readSum fuel ts with
      | some (p, .closing :: rest) => some (.one p, rest)
      | _ => none

end

/-- Enough fuel for a list of tokens: no more than eight readers are nested between two
tokens. -/
def fuelFor (ts : List Token) : Nat :=
  8 * (ts.length + 1)

def ofTokens? (ts : List Token) : Option Phrase :=
  match readSum (fuelFor ts) ts with
  | some (p, []) => some p
  | _ => none

/-- A statement after the first need only be well formed, and may begin with a star. -/
def isWellFormed : List Token → Bool
  | .times :: ts => (ofTokens? ts).isSome
  | ts => (ofTokens? ts).isSome

end Phrase

/-- The phrase that a text says: the first of its statements, if all are well formed. What
the others say is lost. -/
def readPhrase (cs : List Char) : Option Phrase :=
  match readStatements cs with
  | some (first :: others) =>
      if others.all Phrase.isWellFormed then Phrase.ofTokens? first else none
  | _ => none

end Bellman.Numeral
