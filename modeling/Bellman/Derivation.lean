import Bellman.Rule.Catalog

/-!
# Derivations

A derivation is a line of steps with a cursor on one of them, the active step. It is
kept as the active step with the steps before it, nearest first, and the steps after
it, so the cursor always stands on a step. A new step is put after the active one and
replaces everything that stood there; there is no branching.

A rule that fails still makes a step, which says so and carries the expression over.
Only an unknown rule id and an index outside the line are errors, and they leave the
derivation as it was.
-/

namespace Bellman

/-- Steps with a cursor, the rules they are made by, and the step they begin with. Since
the active step is a field of its own, the line is never empty and the cursor never outside
it. -/
structure Derivation where
  rules : List Rule
  start : Step
  past : List Step
  active : Step
  future : List Step

namespace Derivation

/-- Why an action was refused. A rule that fails is not among the reasons, as it makes a
step that says so. -/
inductive Error where
  | unknownRule (e : UnknownRule)
  | outOfRange (index : Int) (last : Nat)
deriving DecidableEq, Repr

def Error.message : Error → String
  | .unknownRule e => e.message
  | .outOfRange index last =>
      "Step index " ++ toString index ++ " out of range (0.." ++ toString last ++ ")."

/-- What can be asked of a derivation. The last two only look at it. -/
inductive Action where
  | apply (ruleId : String)
  | edit (expression : String) (explanation : Option String)
  | advance (step : Step)
  | goTo (index : Int)
  | back
  | reset
  | applicable
  | steps
deriving DecidableEq, Repr

inductive Reply where
  | step (s : Step)
  | done
  | rules (rs : List Rule)
  | steps (ss : List Step)

def begin (rules : List Rule := Catalog.rules) (start : Step := Catalog.startStep) :
    Derivation :=
  { rules, start, past := [], active := start, future := [] }

def steps (d : Derivation) : List Step :=
  d.past.reverse ++ d.active :: d.future

def cursor (d : Derivation) : Nat :=
  d.past.length

def size (d : Derivation) : Nat :=
  d.past.length + 1 + d.future.length

/-- Puts a step after the active one, in place of all that stood there, and makes it
active. -/
def advance (d : Derivation) (s : Step) : Derivation :=
  { d with past := d.active :: d.past, active := s, future := [] }

/-- Returns to the first step and forgets the others. -/
def reset (d : Derivation) : Derivation :=
  begin d.rules d.start

/-- Makes the step before the active one active, if there is one. -/
def back (d : Derivation) : Derivation :=
  match d.past with
  | [] => d
  | s :: past => { d with past, active := s, future := d.active :: d.future }

/-- Makes the step at an index active. The steps on either side stay, so going back loses
nothing until a new step is put in. -/
def goTo (d : Derivation) (index : Int) : Except Error Derivation :=
  match index with
  | .ofNat i =>
      match d.steps.drop i with
      | s :: future => .ok { d with past := (d.steps.take i).reverse, active := s, future }
      | [] => .error (.outOfRange index (d.size - 1))
  | .negSucc _ => .error (.outOfRange index (d.size - 1))

/-- The step that a hand-edited expression makes. An empty explanation counts as none, and
a standing text takes its place. -/
def editStep (expression : String) (explanation : Option String) : Step :=
  { expression
    ruleName := some "Manual edit"
    explanation := some
      (match explanation with
        | none | some "" => "You edited the expression."
        | some text => text) }

/-- The step that a rule makes of an expression, failed or not: there always is one. -/
def ruleStep (r : Rule) (expression : String) : Step :=
  match r.apply expression with
  | .ok s => s
  | .error e => r.failedStep expression e

def apply (d : Derivation) (ruleId : String) : Except Error Derivation :=
  match Rule.withId d.rules ruleId with
  | .ok r => .ok (d.advance (ruleStep r d.active.expression))
  | .error e => .error (.unknownRule e)

def applicable (d : Derivation) : List Rule :=
  Rule.applicable d.rules d.active.expression

/-- Performs an action: the derivation after it, and the answer. -/
def perform (d : Derivation) : Action → Except Error (Derivation × Reply)
  | .apply ruleId => (d.apply ruleId).map fun d' => (d', .step d'.active)
  | .edit expression explanation =>
      let s := editStep expression explanation
      .ok (d.advance s, .step s)
  | .advance s => .ok (d.advance s, .step s)
  | .goTo index => (d.goTo index).map fun d' => (d', .done)
  | .back => .ok (d.back, .done)
  | .reset => .ok (d.reset, .done)
  | .applicable => .ok (d, .rules d.applicable)
  | .steps => .ok (d, .steps d.steps)

/-- The derivation after an action; a refused action changes nothing. -/
def after (d : Derivation) (a : Action) : Derivation :=
  match d.perform a with
  | .ok (d', _) => d'
  | .error _ => d

/-- The derivation after a run of actions. -/
def afterAll (d : Derivation) (as : List Action) : Derivation :=
  as.foldl after d

@[simp] theorem length_steps (d : Derivation) : d.steps.length = d.size := by
  simp [steps, size]; omega

@[simp] theorem steps_advance (d : Derivation) (s : Step) :
    (d.advance s).steps = d.steps.take (d.cursor + 1) ++ [s] := by
  have h : d.past.reverse.take (d.past.length + 1) = d.past.reverse :=
    List.take_of_length_le (by simp)
  simp [advance, steps, cursor, List.take_append, h]

@[simp] theorem cursor_advance (d : Derivation) (s : Step) :
    (d.advance s).cursor = d.cursor + 1 := rfl

@[simp] theorem steps_back (d : Derivation) : d.back.steps = d.steps := by
  unfold back
  split
  · rfl
  · next h => simp [steps, h]

@[simp] theorem cursor_back (d : Derivation) : d.back.cursor = d.cursor - 1 := by
  unfold back
  split
  · next h => simp [cursor, h]
  · next h => simp [cursor, h]

theorem cursor_lt_size (d : Derivation) : d.cursor < d.size := by
  simp only [cursor, size]; omega

theorem steps_cursor (d : Derivation) : d.steps[d.cursor]? = some d.active := by
  simp [steps, cursor]

end Derivation

end Bellman
