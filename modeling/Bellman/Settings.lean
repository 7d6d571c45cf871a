import Bellman.Json.Literal
import Bellman.Text.Integer
import Bellman.Text.UpperCase

/-!
# Settings

There are six settings. Each has a default, over which a variable of the environment
goes, over which a value given by the caller goes. Variables are texts: that of the
network port must be a whole number, and in that of the matrix a semicolon ends a row. A
caller may give values of any kind, and null to give none. The level of logging is put
into upper case wherever it comes from.

A variable that cannot be read is reported even where the caller gives another value, and
before any name that the caller gives and that is not a setting.
-/

namespace Bellman

/-- The settings, in the order in which they are read and shown. -/
inductive Setting where
  | gamma
  | transitionMatrix
  | rewards
  | logLevel
  | host
  | port
deriving DecidableEq, Repr

inductive SettingsError where
  /-- The variable of the network port holds no whole number. -/
  | portNotInteger (raw : String)
  /-- Names that are not settings, in order. -/
  | unknownNames (names : List String)
deriving DecidableEq, Repr

namespace Setting

def all : List Setting :=
  [gamma, transitionMatrix, rewards, logLevel, host, port]

def name : Setting → String
  | gamma => "gamma"
  | transitionMatrix => "transition_matrix"
  | rewards => "rewards"
  | logLevel => "log_level"
  | host => "host"
  | port => "port"

/-- The variable of the environment that holds a setting. -/
def variableName (s : Setting) : String :=
  "BELLMAN_" ++ Text.upper s.name

def default : Setting → Json
  | gamma => .text "0.9"
  | transitionMatrix => .text "0.5,0.5\n0.2,0.8"
  | rewards => .text "1,0"
  | logLevel => .text "INFO"
  | host => .text "127.0.0.1"
  | port => .int 8100

/-- Semicolons as line breaks, because it is hard to put a line break into a variable. -/
def breakRows (raw : String) : String :=
  String.ofList (raw.toList.map fun c => if c = ';' then '\n' else c)

/-- Reads a setting from the text of its variable. Only the port is looked at; whether the
others make sense is found out where they are used. -/
def read : Setting → String → Except SettingsError Json
  | port, raw =>
      match Text.readInteger? raw with
      | some n => .ok (.int n)
      | none => .error (.portNotInteger raw)
  | transitionMatrix, raw => .ok (.text (breakRows raw))
  | _, raw => .ok (.text raw)

theorem mem_all (s : Setting) : s ∈ all := by
  cases s <;> decide

end Setting

def SettingsError.message : SettingsError → String
  | .portNotInteger raw =>
      "Setting " ++ Setting.port.variableName ++ " must be an integer, got '" ++ raw ++ "'."
  | .unknownNames names => "Unknown settings: " ++ ", ".intercalate names

/-- The variables that are set. -/
abbrev Environment := Setting → Option String

/-- All settings in force. A caller may give values of any kind, and only the level of
logging is made a text at once. -/
structure Settings where
  gamma : Json
  transitionMatrix : Json
  rewards : Json
  logLevel : String
  host : Json
  port : Json

namespace Settings

/-- The value that the environment gives to a setting, or else its default. -/
def ofEnvironment (env : Environment) (s : Setting) : Except SettingsError Json :=
  match env s with
  | some raw => s.read raw
  | none => .ok s.default

/-- The value that a caller gives to a setting. Null gives none, so no setting can be set
to null. -/
def override? (overrides : Json) (s : Setting) : Option Json :=
  match overrides.field? s.name with
  | some .null => none
  | v => v

/-- The names that a caller gives and that are not settings, in order and each once. -/
def unknownNames (overrides : Json) : List String :=
  match overrides with
  | .object fields =>
      ((fields.map (·.1)).filter
        fun name => !(Setting.all.map Setting.name).contains name).eraseDups.mergeSort
          (fun a b => decide (a ≤ b))
  | _ => []

/-- The settings in an environment, with what a caller gives. All variables are read first:
one that cannot be read is reported whatever the caller gives in its place. -/
def effective (env : Environment) (overrides : Json) : Except SettingsError Settings := do
  let gamma ← ofEnvironment env .gamma
  let transitionMatrix ← ofEnvironment env .transitionMatrix
  let rewards ← ofEnvironment env .rewards
  let logLevel ← ofEnvironment env .logLevel
  let host ← ofEnvironment env .host
  let port ← ofEnvironment env .port
  let unknown := unknownNames overrides
  if !unknown.isEmpty then throw (.unknownNames unknown)
  let choose := fun s v => (override? overrides s).getD v
  return {
    gamma := choose .gamma gamma
    transitionMatrix := choose .transitionMatrix transitionMatrix
    rewards := choose .rewards rewards
    logLevel := Text.upper (choose .logLevel logLevel).asText
    host := choose .host host
    port := choose .port port }

def value (t : Settings) : Setting → Json
  | .gamma => t.gamma
  | .transitionMatrix => t.transitionMatrix
  | .rewards => t.rewards
  | .logLevel => .text t.logLevel
  | .host => t.host
  | .port => t.port

def defaults : Settings where
  gamma := Setting.gamma.default
  transitionMatrix := Setting.transitionMatrix.default
  rewards := Setting.rewards.default
  logLevel := Setting.logLevel.default.asText
  host := Setting.host.default
  port := Setting.port.default

def toJson (t : Settings) : Json :=
  .object (Setting.all.map fun s => (s.name, t.value s))

theorem ofEnvironment_of_unset {env : Environment} {s : Setting} (h : env s = none) :
    ofEnvironment env s = .ok s.default := by
  simp [ofEnvironment, h]

end Settings

end Bellman
