import Bellman.Pattern
import Bellman.Rule

/-!
# Rules from simple parts

Rules beside the catalog are put together from a test, which is constant, looks for a
text or breaks down, and an edit, which keeps the expression, appends to it, replaces a
text everywhere, or fails. Their expressions keep their spacing.
-/

namespace Bellman.Rule

/-- When a simple rule applies. -/
inductive Test where
  | constant (answer : Bool)
  | contains (text : String)
  | breaks (fault : Fault)

/-- How a simple rule rewrites. -/
inductive Edit where
  | keep
  | append (text : String)
  | replace (old new : String)
  | fails (e : RuleError)

def Test.run (expression : String) : Test → Except Fault Bool
  | .constant answer => .ok answer
  | .contains text => .ok ((Pattern.exactly text).occursIn expression.toList)
  | .breaks fault => .error fault

/-- Replaces a text everywhere; the empty text stands before and after every character. -/
def replaceAll (old new expression : List Char) : List Char :=
  if old.isEmpty then new ++ expression.flatMap (· :: new)
  else (Pattern.text old).rewrite (fun _ => new) expression

def Edit.run (expression : String) : Edit → Except RuleError String
  | .keep => .ok expression
  | .append text => .ok (expression ++ text)
  | .replace old new => .ok (String.ofList (replaceAll old.toList new.toList expression.toList))
  | .fails e => .error e

def simple (id name explanation : String) (displayForm : Option String) (test : Test)
    (edit : Edit) : Rule :=
  { id, name, explanation, displayForm
    applies := fun e => test.run e
    transform := fun e => edit.run e }

end Bellman.Rule
