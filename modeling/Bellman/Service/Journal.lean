import Bellman.Journal
import Bellman.Service

/-!
# The journal of the service

A request that is refused leaves no entries. A rule that fails is noted by the service
itself, and so is a process that fails for a reason without words.
-/

namespace Bellman.Service

def solveEntries (discount transitions rewards : String) : List Entry :=
  let solution := do (← RewardProcess.read discount transitions rewards).solve
  RewardProcess.solveEntries solution ++
    match RewardProcess.trailOf discount transitions rewards with
    | .ok _ => []
    | .error f =>
        match f.message? with
        | some _ => []
        | none => [⟨.error, .service, "Unexpected solver failure"⟩]

def applyEntries (expression ruleId : String) : List Entry :=
  match Rule.withId Catalog.rules ruleId with
  | .ok r => r.attemptEntries .service expression
  | .error _ => []

def answerEntries : Query → List Entry
  | .applicable expression => Rule.applicableEntries Catalog.rules expression
  | .apply expression ruleId => applyEntries expression ruleId
  | .solve discount transitions rewards => solveEntries discount transitions rewards
  | .health | .rules | .start => []

/-- The entries of a request. -/
def entries (t : Settings) (r : Request) : List Entry :=
  match accept t r with
  | .ok q => answerEntries q
  | .error _ => []

end Bellman.Service
