import Bellman.RewardProcess.Trail
import Bellman.Rule.Catalog
import Bellman.Rule.Encoding
import Bellman.Settings

/-!
# The service

The service answers requests over HTTP. It keeps nothing between two requests: whoever
rewrites an expression holds the derivation, and sends the active expression with every
request.

A request is refused for its path, then for its method, then for its body. A body is an
object with text fields; all its faults are reported together, in the order of the
fields. The texts of a process that a request leaves out are those of the settings.
-/

namespace Bellman.Service

structure Request where
  method : String
  path : String
  body : Option Json := none

structure Response where
  status : Nat
  body : Json

/-! ## Endpoints -/

/-- What the service can be asked. -/
inductive Endpoint where
  /-- Whether it is there. -/
  | health
  /-- The catalog of rules. -/
  | rules
  /-- Where a derivation starts. -/
  | start
  /-- The rules that apply to an expression. -/
  | applicable
  /-- The step that a rule makes. -/
  | apply
  /-- The trail of a process. -/
  | solve
deriving DecidableEq, Repr

namespace Endpoint

def all : List Endpoint :=
  [health, rules, start, applicable, apply, solve]

def path : Endpoint → String
  | health => "/health"
  | rules => "/api/rules"
  | start => "/api/start"
  | applicable => "/api/rules/applicable"
  | apply => "/api/apply"
  | solve => "/api/solve"

def method : Endpoint → String
  | health | rules | start => "GET"
  | applicable | apply | solve => "POST"

/-- The path of a request without its query and without slashes at its end, so that both
ways to write a path lead to one endpoint. -/
def cleanPath (path : String) : String :=
  let cs := path.toList.takeWhile fun c => c != '?' && c != '#'
  String.ofList (cs.reverse.dropWhile (· == '/')).reverse

def ofPath? (path : String) : Option Endpoint :=
  all.find? (·.path == cleanPath path)

@[simp] theorem ofPath?_path (e : Endpoint) : ofPath? e.path = some e := by
  cases e <;> decide +kernel

end Endpoint

/-! ## Bodies -/

/-- What is wrong with a body. -/
inductive BodyFault where
  | missing (location : List String)
  | notText (location : List String)
  | notObject
deriving DecidableEq, Repr

def bodyLocation : List String := ["body"]

def BodyFault.kind : BodyFault → String
  | .missing _ => "missing"
  | .notText _ => "string_type"
  | .notObject => "model_attributes_type"

def BodyFault.location : BodyFault → List String
  | .missing l => l
  | .notText l => l
  | .notObject => bodyLocation

def BodyFault.toJson (f : BodyFault) : Json :=
  .object [("type", .text f.kind), ("loc", .list (f.location.map .text))]

/-- A value, or all that is wrong with what it was to be read from. -/
abbrev Reading (α : Type) := Except (List BodyFault) α

namespace Reading

/-- Two values, or what is wrong with either. Faults are collected, so that one refusal
tells all that is wrong with a body. -/
def both {α β : Type} : Reading α → Reading β → Reading (α × β)
  | .ok a, .ok b => .ok (a, b)
  | .ok _, .error fs => .error fs
  | .error fs, .ok _ => .error fs
  | .error fs, .error gs => .error (fs ++ gs)

/-- The object that a body has to be. Null is no body at all. -/
def object : Option Json → Reading Json
  | none => .error [.missing bodyLocation]
  | some .null => .error [.missing bodyLocation]
  | some (.object fields) => .ok (.object fields)
  | some _ => .error [.notObject]

/-- The text of a field, or the text that stands in for it. -/
def text (body : Json) (name : String) (default? : Option String := none) : Reading String :=
  match body.field? name, default? with
  | some (.text s), _ => .ok s
  | some _, _ => .error [.notText (bodyLocation ++ [name])]
  | none, some s => .ok s
  | none, none => .error [.missing (bodyLocation ++ [name])]

end Reading

inductive Query where
  | health
  | rules
  | start
  | applicable (expression : String)
  | apply (expression ruleId : String)
  | solve (discount transitions rewards : String)
deriving DecidableEq, Repr

/-- The question that a body puts to an endpoint. -/
def readQuery (t : Settings) (body : Option Json) : Endpoint → Reading Query
  | .health => .ok .health
  | .rules => .ok .rules
  | .start => .ok .start
  | .applicable => do
      let b ← Reading.object body
      return .applicable (← Reading.text b "expression")
  | .apply => do
      let b ← Reading.object body
      let (expression, ruleId) ←
        Reading.both (Reading.text b "expression") (Reading.text b "rule_id")
      return .apply expression ruleId
  | .solve => do
      let b ← Reading.object body
      let (discount, transitions, rewards) ←
        Reading.both (Reading.text b Setting.gamma.name t.gamma.asText)
          (Reading.both (Reading.text b Setting.transitionMatrix.name t.transitionMatrix.asText)
            (Reading.text b Setting.rewards.name t.rewards.asText))
      return .solve discount transitions rewards

/-! ## Answers -/

def refusal (status : Nat) (detail : Json) : Response :=
  ⟨status, .object [("detail", detail)]⟩

def rulesBody (rs : List Rule) : Json :=
  .list (rs.map Rule.toJson)

/-- The answer to applying the rule with an id to an expression. A rule that fails gives
the step that records the failure. -/
def applyAnswer (expression ruleId : String) : Response :=
  match Rule.withId Catalog.rules ruleId with
  | .error e => refusal 404 (.text e.message)
  | .ok r =>
      match r.apply expression with
      | .ok s => ⟨200, s.toJson⟩
      | .error e => refusal 422 (r.failedStep expression e).toJson

/-- The answer to solving a process. What went wrong is told, except where there is no
word for it. -/
def solveAnswer (discount transitions rewards : String) : Response :=
  match RewardProcess.trailOf discount transitions rewards with
  | .ok t => ⟨200, t.toJson⟩
  | .error f =>
      match f.message? with
      | some message => refusal 400 (.text message)
      | none => refusal 500 (.text "Solver error")

def answer : Query → Response
  | .health => ⟨200, .object [("status", .text "ok"), ("rules", .int Catalog.rules.length)]⟩
  | .rules => ⟨200, rulesBody Catalog.rules⟩
  | .start => ⟨200, Catalog.startStep.toJson⟩
  | .applicable expression => ⟨200, rulesBody (Rule.applicable Catalog.rules expression)⟩
  | .apply expression ruleId => applyAnswer expression ruleId
  | .solve discount transitions rewards => solveAnswer discount transitions rewards

/-- The question that a request puts, or the answer that refuses the request. The path is
looked at first, then the method, and the body only where both are right. -/
def accept (t : Settings) (r : Request) : Except Response Query :=
  match Endpoint.ofPath? r.path with
  | none => .error (refusal 404 (.text "Not Found"))
  | some e =>
      if Text.upper r.method ≠ e.method then .error (refusal 405 (.text "Method Not Allowed"))
      else
        match readQuery t r.body e with
        | .ok q => .ok q
        | .error faults => .error (refusal 422 (.list (faults.map BodyFault.toJson)))

/-- The answer to a request. -/
def respond (t : Settings) (r : Request) : Response :=
  match accept t r with
  | .ok q => answer q
  | .error refused => refused

end Bellman.Service
