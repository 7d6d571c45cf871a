import Bellman.Launch

/-!
# The program

Reads the environment and the command line, and says where the service is launched. Help
ends with the code zero, and a command line that is refused with the code two.
-/

namespace Bellman.Main

def usage : String :=
  "usage: bellman [-h] [--host HOST] [--port PORT]\n" ++
    "               [--log-level \x7bDEBUG,INFO,WARNING,ERROR\x7d] [--reload]"

/-- The variables of the settings that are set. -/
def readEnvironment : IO Environment := do
  let found ← Setting.all.filterMapM fun s => do
    return (← IO.getEnv s.variableName).map (s, ·)
  return fun s => (found.find? (·.1 == s)).map (·.2)

def announce (l : Launch) : IO Unit := do
  IO.println ("Serving " ++ l.target ++ " on " ++ l.host.asText ++ ":" ++ l.port.asText)
  IO.println ("Log level " ++ l.rootLevel.name)
  if l.reload then IO.println "Reloading on changes"

end Bellman.Main

def main (words : List String) : IO UInt32 := do
  match Bellman.Launch.plan (← Bellman.Main.readEnvironment) words with
  | .ok l =>
      Bellman.Main.announce l
      return 0
  | .error (.stopped .help) =>
      IO.println Bellman.Main.usage
      return 0
  | .error e =>
      let message := e.message?.getD ""
      match e with
      | .stopped _ =>
          IO.eprintln Bellman.Main.usage
          IO.eprintln ("bellman: error: " ++ message)
          return 2
      | _ =>
          IO.eprintln message
          return 1
