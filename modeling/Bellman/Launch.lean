import Bellman.CommandLine
import Bellman.Settings

/-!
# Launching the service

The service is launched with the settings of the environment, over which the command line
goes. The level of logging must have one of the known names; two of the levels have two
names each.
-/

namespace Bellman

/-- How important a message must be to be logged. -/
inductive Threshold where
  | notset
  | debug
  | info
  | warning
  | error
  | critical
deriving DecidableEq, Repr

namespace Threshold

/-- The names of the levels; the first name of a level is the one that is shown. -/
def names : List (String × Threshold) :=
  [("NOTSET", notset), ("DEBUG", debug), ("INFO", info), ("WARNING", warning),
    ("WARN", warning), ("ERROR", error), ("CRITICAL", critical), ("FATAL", critical)]

def ofName? (name : String) : Option Threshold :=
  (names.find? (·.1 == name)).map (·.2)

def name (t : Threshold) : String :=
  ((names.find? (·.2 == t)).map (·.1)).getD ""

end Threshold

structure Launch where
  /-- The application that is served. -/
  target : String
  host : Json
  port : Json
  reload : Bool
  logLevel : String
  /-- The level below which nothing is logged. -/
  rootLevel : Threshold

inductive LaunchError where
  | stopped (s : CommandLine.Stop)
  | settings (e : SettingsError)
  | unknownLevel (name : String)
deriving DecidableEq, Repr

/-- The reason in words; a request for help has none. -/
def LaunchError.message? : LaunchError → Option String
  | .stopped .help => none
  | .stopped (.refused e) => some e.message
  | .settings e => some e.message
  | .unknownLevel name => some ("Unknown level: " ++ Text.quoted name)

namespace Launch

def application : String := "backend.app.main:app"

/-- What a command line gives to the settings. An option that is not there gives null, and
so leaves the setting to the environment. -/
def overrides (a : CommandLine.Arguments) : Json :=
  .object [(Setting.host.name, a.host), (Setting.port.name, a.port),
    (Setting.logLevel.name, a.logLevel)]

/-- The launch that a command line asks for in an environment. The words are read before
the variables, and the level is looked up last, so a fault of the command line hides one of
the environment. -/
def plan (env : Environment) (words : List String) : Except LaunchError Launch := do
  let a ← (CommandLine.read words).mapError .stopped
  let t ← (Settings.effective env (overrides a)).mapError .settings
  match Threshold.ofName? t.logLevel with
  | none => throw (.unknownLevel t.logLevel)
  | some level =>
      return {
        target := application
        host := t.host
        port := t.port
        reload := a.reload
        logLevel := Text.lowerAscii t.logLevel
        rootLevel := level }

end Launch

end Bellman
