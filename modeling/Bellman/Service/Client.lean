import Bellman.Derivation
import Bellman.Service

/-!
# A client of the service

The service keeps nothing between two requests, so its client keeps the derivation. It
begins with the step that the service starts from and holds the steps as it got them, in
one list, with the index of the active one. To use a rule it sends the expression of the
active step. The answer is a step, which comes after the active one in place of all that
stood there; or it holds, as its detail, the step that records a failed rule; or it says
that there is no such rule, and then nothing changes.
-/

namespace Bellman.Service

def Endpoint.request (e : Endpoint) (body : Option Json := none) : Request :=
  { method := e.method, path := e.path, body }

/-- The detail of an answer that refuses something. -/
def Response.detail? (r : Response) : Option Json :=
  r.body.field? "detail"

/-- What a client holds: steps as JSON, just as they came, and the index of the active one.
What a client can do keeps the index inside the list; its form alone does not. -/
structure Client where
  steps : List Json
  cursor : Nat

namespace Client

inductive Action where
  | apply (ruleId : String)
  | edit (expression : String) (explanation : Option String)
  | goTo (index : Int)
  | back
deriving DecidableEq, Repr

/-- The same, asked of a derivation. -/
def Action.onDerivation : Action → Derivation.Action
  | .apply ruleId => .apply ruleId
  | .edit expression explanation => .edit expression explanation
  | .goTo index => .goTo index
  | .back => .back

variable (t : Settings)

/-- A client that has asked where a derivation starts. -/
def begin : Client :=
  ⟨[(respond t Endpoint.start.request).body], 0⟩

def expression? (c : Client) : Option String :=
  (c.steps[c.cursor]?).bind fun s => (s.field? "expression").bind Json.text?

/-- The answer to using the rule with an id on the active step. -/
def applyAnswer? (c : Client) (ruleId : String) : Option Response :=
  c.expression?.map fun e =>
    respond t (Endpoint.apply.request
      (some (.object [("expression", .text e), ("rule_id", .text ruleId)])))

/-- The answer to asking for the rules that apply to the active step. -/
def applicableAnswer? (c : Client) : Option Response :=
  c.expression?.map fun e =>
    respond t (Endpoint.applicable.request (some (.object [("expression", .text e)])))

/-- Drops the steps after the active one, appends a step and makes it active. -/
def advance (c : Client) (s : Json) : Client :=
  let kept := c.steps.take (c.cursor + 1)
  ⟨kept ++ [s], kept.length⟩

/-- Keeps the step that an answer brings, if it brings one. -/
def receive (c : Client) (r : Response) : Client :=
  if r.status = 200 then c.advance r.body
  else if r.status = 422 then (r.detail?.map c.advance).getD c
  else c

/-- The client after an action. An index outside the list changes nothing. -/
def after (c : Client) : Action → Client
  | .apply ruleId => ((c.applyAnswer? t ruleId).map c.receive).getD c
  | .edit expression explanation =>
      c.advance (Derivation.editStep expression explanation).toJson
  | .goTo index =>
      if 0 ≤ index ∧ index < c.steps.length then { c with cursor := index.toNat } else c
  | .back => { c with cursor := c.cursor - 1 }

def afterAll (c : Client) (as : List Action) : Client :=
  as.foldl (after t) c

/-- A client that has begun and then done what its user asked. -/
def run (as : List Action) : Client :=
  (begin t).afterAll t as

/-- The derivation by the catalog of which the same was asked. -/
def derivation (as : List Action) : Derivation :=
  Derivation.begin.afterAll (as.map Action.onDerivation)

end Client

end Bellman.Service
