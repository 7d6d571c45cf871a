import Bellman.Latex
import Bellman.Text.Quoted

/-!
# Rules and steps

A derivation goes from step to step, and each step holds an expression and how it came
about. A rule tells whether it applies to an expression and rewrites it; both may fail.
A rule whose test fails counts as one that does not apply, so one broken rule hides none
of the others.
-/

namespace Bellman

/-- One entry of a derivation: an expression and how it was produced. A step names a
rule by its id only if that rule made it; the first step, edits and recorded failures
have none. -/
structure Step where
  expression : String
  ruleId : Option String := none
  ruleName : Option String := none
  explanation : Option String := none
deriving DecidableEq, Repr

/-- What an expression lacks when a rule of the catalog cannot rewrite it. -/
inductive Form where
  | value
  | presentReturn
  | returnSeries
  | expectation
  | bar
  | closingBracket
  | discountedSum
  | expectedReward
  | futureGivenState
  | futureGivenNextState
  | rightSide
deriving DecidableEq, Repr

def Form.message : Form → String
  | .value => "Expected the value function v(s) or v_\\pi(s)."
  | .presentReturn => "Expected the return G_t."
  | .returnSeries => "Expected the return sum in the form " ++ Latex.returnSeries
  | .expectation =>
      "Expected an expression starting with " ++ Latex.expectation ++ " ... ]"
  | .bar => "Expected a conditional bar \\mid inside the expectation."
  | .closingBracket => "Expected a closing ']' for " ++ Latex.expectation ++ " ... ]."
  | .discountedSum =>
      "Expected inside expectation: " ++ Latex.nextReward ++ " + \\gamma ( ... )"
  | .expectedReward =>
      "Expected " ++ Latex.expectation ++ Latex.nextReward ++ Latex.givenState
  | .futureGivenState =>
      "Expected " ++ Latex.expectation ++ Latex.nextReturn ++ Latex.givenState ++ " or " ++
        Latex.expectation ++ Latex.shiftedSeries ++ Latex.givenState
  | .futureGivenNextState =>
      "Expected " ++ Latex.expectation ++ Latex.nextReturn ++ Latex.givenNextState ++ " or " ++
        Latex.expectation ++ Latex.shiftedSeries ++ Latex.givenNextState
  | .rightSide =>
      "Expected r(s) + \\gamma " ++ Latex.stateSum ++ " " ++ Latex.transition ++ " v(s')"

/-- A breakdown inside a rule, named by the rule's author. The catalog's own rules never
break down, but others may stand beside them. -/
structure Fault where
  kind : String
  message : String
deriving DecidableEq, Repr

/-- A fault with its kind, as it is reported. -/
def Fault.describe (f : Fault) : String :=
  f.kind ++ "(" ++ Text.quoted f.message ++ ")"

/-- Why a rule did not rewrite an expression. -/
inductive RuleError where
  /-- The expression lacks the form that a rule of the catalog rewrites. -/
  | missing (form : Form)
  /-- Another rule refused the expression. -/
  | refused (message : String)
  /-- The rule broke down. -/
  | broken (fault : Fault)
deriving DecidableEq, Repr

/-- The text that a failed step shows. The kind of a fault is left out of it. -/
def RuleError.message : RuleError → String
  | .missing form => form.message
  | .refused message => message
  | .broken fault => fault.message

/-- A named way to rewrite an expression. The test only tells whether to offer the rule,
and the transform does not rely on it. -/
structure Rule where
  id : String
  name : String
  displayForm : Option String := none
  explanation : String
  applies : String → Except Fault Bool
  transform : String → Except RuleError String

structure UnknownRule where
  id : String
deriving DecidableEq, Repr

def UnknownRule.message (e : UnknownRule) : String :=
  "Unknown rule: " ++ Text.quoted e.id

namespace Rule

/-- A rule applies when its test says so. A test that breaks down says no, so one broken
rule hides none of the others. -/
def accepts (r : Rule) (expression : String) : Bool :=
  match r.applies expression with
  | .ok b => b
  | .error _ => false

/-- The rules that apply to an expression, in the order of the list. -/
def applicable (rules : List Rule) (expression : String) : List Rule :=
  rules.filter (·.accepts expression)

/-- The first rule with an id. Nothing keeps a list from having several. -/
def withId (rules : List Rule) (id : String) : Except UnknownRule Rule :=
  match rules.find? (·.id == id) with
  | some r => .ok r
  | none => .error ⟨id⟩

def stepTo (r : Rule) (expression : String) : Step :=
  { expression
    ruleId := some r.id
    ruleName := some r.name
    explanation := some r.explanation }

/-- Applies a rule without asking its test, so a rule that is not offered may still be
tried. -/
def apply (r : Rule) (expression : String) : Except RuleError Step :=
  (r.transform expression).map r.stepTo

/-- The step that records a failed rule. The expression is carried over, and the name of
the rule is told without its id, because the rule made nothing. -/
def failedStep (r : Rule) (expression : String) (e : RuleError) : Step :=
  { expression
    ruleName := some ("Rule failed: " ++ r.name)
    explanation := some e.message }

theorem mem_applicable {rules : List Rule} {expression : String} {r : Rule} :
    r ∈ applicable rules expression ↔ r ∈ rules ∧ r.applies expression = .ok true := by
  simp only [applicable, List.mem_filter, accepts]
  cases h : r.applies expression <;> simp

theorem id_of_withId {rules : List Rule} {id : String} {r : Rule}
    (h : withId rules id = .ok r) : r ∈ rules ∧ r.id = id := by
  unfold withId at h
  split at h
  next r' hr =>
    cases h
    exact ⟨List.mem_of_find?_eq_some hr, by simpa using List.find?_some hr⟩
  next => cases h

end Rule

end Bellman
