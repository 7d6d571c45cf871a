import Bellman.Pattern
import Bellman.Rule

/-!
# The catalog of rules

Nine rules lead from the value of a state to the Bellman expectation equation. Seven of
them replace every occurrence of one pattern; `linearity` splits the first expectation
of a discounted sum, and `assemble-bellman` recognises a finished right-hand side. What
a rule offers to do (its test) may be more than it can do (its transform). Every
rewritten expression has normal spacing.
-/

namespace Bellman.Catalog

open Pattern Text

def statePattern : Pattern :=
  spaced [exactly "v", exactly "(", exactly "s", exactly ")"]

def policyPattern : Pattern :=
  spaced [exactly "v_", .optional "\x7b".toList, exactly "\\pi", .optional "\x7d".toList,
    exactly "(", exactly "s", exactly ")"]

/-- The value of the present state. With a policy the braces around π are optional one by
one, so an unpaired one is read, too. -/
def valuePattern : Pattern :=
  .orElse policyPattern statePattern

/-- The present return. A word character right behind it makes another name of it, so of two
returns that adjoin only the second is one. -/
def returnPattern : Pattern :=
  .andThen (exactly Latex.presentReturn) .wordEnd

def seriesPattern : Pattern :=
  spaced [exactly Latex.seriesHead, exactly Latex.seriesFactor, exactly Latex.seriesReward]

/-- The next return, by its name or as the series that begins one step later. -/
def futurePattern : Pattern :=
  .orElse (exactly Latex.nextReturn)
    (spaced [exactly Latex.seriesHead, exactly Latex.seriesFactor, exactly Latex.shiftedReward])

/-- The condition on the present state, up to the bracket that ends the expectation. -/
def givenStatePattern : Pattern :=
  spaced [exactly Latex.bar, exactly "S_t", exactly "=", exactly "s", exactly "]"]

def nextConditionPattern : Pattern :=
  spaced [exactly Latex.bar, exactly Latex.nextState, exactly "=", exactly "s'"]

def rewardPattern : Pattern :=
  spaced [exactly Latex.expectation, exactly Latex.nextReward, givenStatePattern]

/-- The start of an expectation of the next return. -/
def futureStartPattern : Pattern :=
  spaced [exactly Latex.expectation, futurePattern]

def futureGivenStatePattern : Pattern :=
  spaced [futureStartPattern, givenStatePattern]

def futureGivenNextPattern : Pattern :=
  spaced [futureStartPattern, nextConditionPattern, exactly "]"]

/-- A discounted sum inside an expectation, up to its second summand. -/
def discountedSumPattern : Pattern :=
  .andThen (spaced [exactly Latex.nextReward, exactly "+", exactly Latex.discount]) .blanks

def rightSidePattern : Pattern :=
  spaced [exactly "r(s)", exactly "+", exactly Latex.discount, .optional Latex.thin.toList,
    exactly Latex.stateSum, exactly "p(s'", exactly Latex.bar, exactly "s)",
    .optional Latex.thin.toList, exactly "v(s')"]

def holds (fragment : String) (e : List Char) : Bool :=
  (exactly fragment).occursIn e

/-- Replaces every occurrence of a pattern, of which there has to be one: a rule that finds
nothing fails and does not make an equal step. -/
def substitute (p : Pattern) (form : Form) (replacement : List Char → List Char)
    (e : List Char) : Except Form (List Char) :=
  if p.occursIn e then .ok (p.rewrite replacement e) else .error form

/-- Some place of a text up to its first line feed where a pattern can be read. -/
def occursOnLine (p : Pattern) : List Char → Bool
  | [] => (p.read? []).isSome
  | c :: cs => (p.read? (c :: cs)).isSome || (c != '\n' && occursOnLine p cs)

/-- An expectation that begins with the next return and, on the line on which that ends,
comes to the condition on the present state, whatever stands in between. This offers more
than can be rewritten, for which the condition must follow at once. -/
def offersFuture : List Char → Bool
  | [] => false
  | c :: cs =>
      (match futureStartPattern.read? (c :: cs) with
        | some (_, rest) => occursOnLine givenStatePattern rest
        | none => false) || offersFuture cs

/-- The next return inside an expectation of it. -/
def futureInside (m : List Char) : List Char :=
  match futurePattern.read? (trimLeft (m.drop Latex.expectation.length)) with
  | some (future, _) => future
  | none => []

/-- The second summand of a discounted sum. One thin space in front of it is left out,
unless nothing would be left. -/
def discounted? (inside : List Char) : Option (List Char) :=
  match discountedSumPattern.read? inside with
  | none => none
  | some (_, rest) =>
      if rest.isEmpty then none
      else if Latex.thin.toList.isPrefixOf rest then
        let summand := trim (rest.drop Latex.thin.length)
        some (if summand.isEmpty then trim rest else summand)
      else some (trim rest)

def expect (inside condition : List Char) : List Char :=
  Latex.expectation.toList ++ inside ++ Latex.bar.toList ++ " ".toList ++ condition ++ "]".toList

/-- Splits the first expectation, of a discounted sum, into the expectation of the reward
and the discounted expectation of the rest. It ends at the first bar after its start and
the first bracket after that, whatever is nested in it. -/
def splitExpectation (e : List Char) : Except Form (List Char) :=
  match splitAt? Latex.expectation.toList e with
  | none => .error .expectation
  | some (before, inner) =>
      match splitAt? Latex.bar.toList inner with
      | none => .error .bar
      | some (inside, conditioned) =>
          match splitAt? "]".toList conditioned with
          | none => .error .closingBracket
          | some (condition, after) =>
              match discounted? (trim inside) with
              | none => .error .discountedSum
              | some summand =>
                  .ok (before ++ expect Latex.nextReward.toList (trim condition) ++
                    (" + " ++ Latex.discount ++ Latex.thin).toList ++
                    expect summand (trim condition) ++ after)

/-- Recognises the right-hand side of the Bellman equation and completes the equation. The
result is the whole equation, so nothing may stand around the right-hand side. -/
def assemble (e : List Char) : Except Form (List Char) :=
  match rightSidePattern.read? (normalize e) with
  | some (_, []) => .ok Latex.bellmanEquation.toList
  | _ => .error .rightSide

/-- The next return expected from the present state, as a sum over the next state. -/
def conditionOnNext (m : List Char) : List Char :=
  (Latex.stateSum ++ " " ++ Latex.transition ++ Latex.thin ++ Latex.expectation).toList ++
    normalize (futureInside m) ++ Latex.givenNextState.toList

/-- A rule of the catalog. Its test never breaks down, and what it rewrites gets normal
spacing. -/
def rule (id name displayForm explanation : String) (offers : List Char → Bool)
    (rewrite : List Char → Except Form (List Char)) : Rule :=
  { id, name, explanation
    displayForm := some displayForm
    applies := fun e => .ok (offers e.toList)
    transform := fun e =>
      match rewrite e.toList with
      | .ok out => .ok (String.ofList (normalize out))
      | .error form => .error (.missing form) }

def defValue : Rule :=
  rule "def-value" "Definition of value"
    ("v(s)=" ++ Latex.expectation ++ Latex.presentReturn ++ Latex.givenState)
    "By definition, the value of state s is the expected return starting from s."
    valuePattern.occursIn
    (substitute valuePattern .value fun _ =>
      (Latex.expectation ++ Latex.presentReturn ++ Latex.givenState).toList)

def defReturn : Rule :=
  rule "def-return" "Expand return definition"
    (Latex.presentReturn ++ "=" ++ Latex.seriesHead ++ Latex.seriesFactor ++ " " ++
      Latex.seriesReward)
    "Return is the discounted sum of future rewards."
    (fun e => returnPattern.occursIn e && !holds Latex.seriesHead e)
    (substitute returnPattern .presentReturn fun _ => Latex.returnSeries.toList)

def recursiveReturn : Rule :=
  rule "recursive-return" "Recursive form of return"
    (Latex.presentReturn ++ " = " ++ Latex.nextReward ++ " + \\gamma " ++ Latex.nextReturn)
    "The return is the next reward plus the discounted return from the next step."
    returnPattern.occursIn
    (substitute returnPattern .presentReturn fun _ =>
      (Latex.nextReward ++ " + \\gamma " ++ Latex.nextReturn).toList)

def unrollReturn : Rule :=
  rule "unroll-return" "Unroll return"
    (Latex.seriesHead ++ Latex.seriesFactor ++ " " ++ Latex.seriesReward ++ " = " ++
      Latex.nextReward ++ " + \\gamma" ++ Latex.seriesHead ++ Latex.seriesFactor ++ " " ++
      Latex.shiftedReward)
    "Split the first reward from the discounted sum (index shift)."
    (fun e => holds Latex.seriesHead e || holds Latex.seriesReward e)
    (substitute seriesPattern .returnSeries fun _ =>
      (Latex.nextReward ++ " + \\gamma " ++ Latex.shiftedSeries).toList)

/-- The test looks for the parts of a discounted sum anywhere and in any order, and so
offers more than can be split. -/
def linearity : Rule :=
  rule "linearity" "Linearity of expectation"
    (Latex.expectation ++ "X+\\gamma Y\\mid Z]=" ++ Latex.expectation ++ "X\\mid Z]+\\gamma" ++
      Latex.expectation ++ "Y\\mid Z]")
    "Expectation is linear; split sums and pull out constants."
    (fun e => [Latex.expectation, Latex.nextReward, "+", Latex.discount, Latex.bar].all
      (holds · e))
    splitExpectation

def defineReward : Rule :=
  rule "define-r" "Define expected reward"
    ("r(s)=" ++ Latex.expectation ++ Latex.nextReward ++ Latex.givenState)
    "Define r(s) as the expected one-step reward from state s."
    rewardPattern.occursIn
    (substitute rewardPattern .expectedReward fun _ => "r(s)".toList)

def totalExpectation : Rule :=
  rule "total-expectation-next-state" "Law of total expectation over next state"
    (Latex.expectation ++ "f(" ++ Latex.nextState ++ ")" ++ Latex.givenState ++ "=" ++
      Latex.stateSum ++ Latex.transition ++ "f(s')")
    ("Condition on " ++ Latex.nextState ++ " using the law of total expectation " ++
      "(Markov chain transitions).")
    offersFuture
    (substitute futureGivenStatePattern .futureGivenState conditionOnNext)

def valueSubstitution : Rule :=
  rule "value-substitution" "Substitute value at next state"
    (Latex.expectation ++ Latex.nextReturn ++ Latex.givenNextState ++ "=v(s')")
    "Recognize the expected future return from the next state as v(s')."
    (fun e => holds Latex.expectation e && nextConditionPattern.occursIn e)
    (substitute futureGivenNextPattern .futureGivenNextState fun _ => "v(s')".toList)

/-- The test looks for the reward and the sum over states only; whether the whole is a
right-hand side is left to the transform. -/
def assembleBellman : Rule :=
  rule "assemble-bellman" "Assemble Bellman expectation equation"
    ("v(s)=r(s)+\\gamma" ++ Latex.stateSum ++ Latex.transition ++ "v(s')")
    "This is the Bellman expectation equation for an MRP."
    (fun e => holds "r(s)" e && holds Latex.stateSum e)
    assemble

/-- All rules, in the order in which they are offered. -/
def rules : List Rule :=
  [defValue, defReturn, recursiveReturn, unrollReturn, linearity, defineReward,
    totalExpectation, valueSubstitution, assembleBellman]

/-- The rules of the lecture's derivation, in order. The recursive form of the return is
not among them: it is another way to the same place. -/
def suggestedPath : List Rule :=
  [defValue, defReturn, unrollReturn, linearity, defineReward, totalExpectation,
    valueSubstitution, assembleBellman]

def startStep : Step :=
  { expression := "v(s)"
    ruleName := some "Start"
    explanation := some "Start from the value function for a state s." }

end Bellman.Catalog
