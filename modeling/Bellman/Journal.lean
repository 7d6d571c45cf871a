import Bellman.Derivation
import Bellman.Grid.Elimination
import Bellman.RewardProcess

/-!
# The journal

What the library does is written down in a journal, one entry for an event. Entries are
values: each activity has a function that gives the entries it writes, beside the
function that gives its result.
-/

namespace Bellman

inductive Level where
  | debug
  | info
  | warning
  | error
deriving DecidableEq, Repr

/-- The part of the library that writes an entry. -/
inductive Author where
  | rules
  | derivation
  | elimination
  | valueFunction
  | service
deriving DecidableEq, Repr

/-- One entry of the journal. When it was written is not part of it, so equal runs have
equal journals. -/
structure Entry where
  level : Level
  author : Author
  message : String
deriving DecidableEq, Repr

namespace Rule

/-- A rule whose test fails is passed over, and the failure noted. -/
def testEntries (r : Rule) (expression : String) : List Entry :=
  match r.applies expression with
  | .ok _ => []
  | .error fault =>
      [⟨.debug, .rules,
        "Predicate of rule " ++ Text.quoted r.id ++ " raised " ++ fault.describe ++ "; skipping"⟩]

def applicableEntries (rules : List Rule) (expression : String) : List Entry :=
  rules.flatMap (·.testEntries expression)

/-- The entries of applying a rule. One that fails writes none itself, because whoever
applied it says so. -/
def applyEntries (r : Rule) (expression : String) : List Entry :=
  match r.apply expression with
  | .ok _ => [⟨.info, .rules, "Applied rule " ++ Text.quoted r.id⟩]
  | .error _ => []

/-- The entries of applying a rule on behalf of an author who notes its failure. -/
def attemptEntries (author : Author) (r : Rule) (expression : String) : List Entry :=
  match r.apply expression with
  | .ok _ => r.applyEntries expression
  | .error e =>
      [⟨.warning, author, "Rule " ++ Text.quoted r.id ++ " failed: " ++ e.message⟩]

end Rule

namespace Derivation

def entries (d : Derivation) : Action → List Entry
  | .apply ruleId =>
      match Rule.withId d.rules ruleId with
      | .ok r => r.attemptEntries .derivation d.active.expression
      | .error _ => []
  | .applicable => Rule.applicableEntries d.rules d.active.expression
  | _ => []

end Derivation

namespace Elimination

def solvedEntry (n : Nat) : Entry :=
  ⟨.debug, .elimination, "Solved " ++ KernelError.sizeText n n ++ " system"⟩

def entries {α : Type} (n : Nat) : Except (KernelError α) (List α) → List Entry
  | .ok _ => [solvedEntry n]
  | .error _ => []

end Elimination

namespace RewardProcess

def solvedEntry (p : RewardProcess Binary64) : Entry :=
  let discount := ((Display.number p.discount).toOption).getD ""
  ⟨.info, .valueFunction,
    "Solved value function for " ++ toString p.states ++ " states (gamma=" ++ discount ++ ")"⟩

/-- The entries of solving a process: a system may be solved and its solution be too
large. -/
def solveEntries : Except Failure Solution → List Entry
  | .ok s => [Elimination.solvedEntry s.process.states, s.process.solvedEntry]
  | .error (.solutionOverflow n) => [Elimination.solvedEntry n]
  | .error _ => []

end RewardProcess

end Bellman
