import Bellman.Json
import Bellman.Rule

/-!
# Rules and steps as JSON

A rule or a step is an object whose fields always stand in one order; what is absent is
null. The texts of a rule are there, its test and its transform are not.
-/

namespace Bellman

def Rule.toJson (r : Rule) : Json :=
  .object [("id", .text r.id), ("name", .text r.name),
    ("display_form", Json.ofOption r.displayForm), ("explanation", .text r.explanation)]

/-- A step as an object. Its fields are all there, so that a reader can tell a step without
a rule from one that was cut short. -/
def Step.toJson (s : Step) : Json :=
  .object [("expression", .text s.expression), ("rule_id", Json.ofOption s.ruleId),
    ("rule_name", Json.ofOption s.ruleName), ("explanation", Json.ofOption s.explanation)]

end Bellman
