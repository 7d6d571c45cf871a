import Bellman.Json
import Bellman.Text.Blank
import Bellman.Text.Integer
import Bellman.Text.Quoted
import Bellman.Text.UpperCase

/-!
# The command line

A command line is a list of words. First every word is classified by itself: an option by
its full name or by a beginning that no other option shares, perhaps with a value attached
by an equals sign; a word that only looks like an option; or plain text. A word of two
dashes makes all that follow plain. Then the words are taken in order: an option that
needs a value takes it from its own word or from the plain word that follows.

Plain words and unknown options that no option takes are refused at the end, so any fault
of an option comes before them, and a request for help comes before all faults that stand
after it. An ambiguous beginning is found while classifying, before any option is taken.
-/

namespace Bellman.CommandLine

inductive Flag where
  | help
  | host
  | port
  | logLevel
  | reload
deriving DecidableEq, Repr

/-- The names of the options, in order. A message on an ambiguous word lists them in this
order. -/
def spellings : List (String × Flag) :=
  [("-h", .help), ("--help", .help), ("--host", .host), ("--port", .port),
    ("--log-level", .logLevel), ("--reload", .reload)]

/-- The levels that the command line takes. The environment may name others. -/
def levelChoices : List String :=
  ["DEBUG", "INFO", "WARNING", "ERROR"]

namespace Flag

/-- The option as messages name it. -/
def title : Flag → String
  | help => "-h/--help"
  | host => "--host"
  | port => "--port"
  | logLevel => "--log-level"
  | reload => "--reload"

def takesValue : Flag → Bool
  | help => false
  | host => true
  | port => true
  | logLevel => true
  | reload => false

end Flag

/-- Why a command line is refused. -/
inductive UsageError where
  /-- The beginning of several options. -/
  | ambiguous (word : String) (candidates : List String)
  /-- No value follows an option that needs one. -/
  | missingValue (flag : Flag)
  /-- A value is attached to an option that takes none. -/
  | surplusValue (flag : Flag) (value : String)
  /-- The value is no whole number. -/
  | notInteger (flag : Flag) (value : String)
  /-- The value is none of the levels. -/
  | notAChoice (flag : Flag) (value : String)
  /-- Words that no option takes. -/
  | unrecognized (words : List String)
deriving DecidableEq, Repr

/-- The reason in words, without blanks at its end. -/
def UsageError.message (e : UsageError) : String :=
  let about (flag : Flag) (text : String) := "argument " ++ flag.title ++ ": " ++ text
  let text :=
    match e with
    | .ambiguous word candidates =>
        "ambiguous option: " ++ word ++ " could match " ++ ", ".intercalate candidates
    | .missingValue flag => about flag "expected one argument"
    | .surplusValue flag value =>
        about flag ("ignored explicit argument " ++ Text.quoted value)
    | .notInteger flag value => about flag ("invalid int value: " ++ Text.quoted value)
    | .notAChoice flag value =>
        about flag ("invalid choice: " ++ Text.quoted value ++ " (choose from " ++
          ", ".intercalate (levelChoices.map Text.quoted) ++ ")")
    | .unrecognized words => "unrecognized arguments: " ++ " ".intercalate words
  String.ofList (Text.trimRight text.toList)

/-- Why a command line starts nothing. -/
inductive Stop where
  /-- Help was asked for. -/
  | help
  | refused (e : UsageError)
deriving DecidableEq, Repr

inductive Word where
  /-- An option under the name that was recognised, and the value attached to it. -/
  | option (spelling : String) (flag : Flag) (value : Option String)
  /-- It looks like an option but is none. -/
  | unknown (text : String)
  /-- Two dashes. -/
  | dashes
  | plain (text : String)
deriving DecidableEq, Repr

/-- The parts of a word before and after its first equals sign. -/
def splitAtEquals? (cs : List Char) : Option (List Char × List Char) :=
  match cs.dropWhile (· != '=') with
  | _ :: value => some (cs.takeWhile (· != '='), value)
  | [] => none

/-- A minus and digits of any script, with at most one point that digits follow; a line
break may end it. A word like this is plain, so it can be the value of an option. -/
def isNegativeNumber (cs : List Char) : Bool :=
  let isDigit := fun c => (Text.digitValue? c).isSome
  match cs with
  | '-' :: rest =>
      let body := if rest.getLast? = some '\n' then rest.dropLast else rest
      match body.dropWhile isDigit with
      | [] => !body.isEmpty
      | '.' :: part => !part.isEmpty && part.all isDigit
      | _ => false
  | _ => false

/-- The options whose names begin with a word, together with the value attached to the
word. A word with one dash may also be a one-letter option with its value. -/
def candidates (cs : List Char) : List (String × Flag × Option String) :=
  match cs with
  | '-' :: '-' :: _ =>
      let (start, value) :=
        match splitAtEquals? cs with
        | some (start, value) => (start, some (String.ofList value))
        | none => (cs, none)
      (spellings.filter fun s => start.isPrefixOf s.1.toList).map fun (name, flag) =>
        (name, flag, value)
  | '-' :: c :: value =>
      (spellings.filter fun s => s.1 == String.ofList ['-', c]).map fun (name, flag) =>
        (name, flag, some (String.ofList value))
  | _ => []

/-- Classifies a word that is not just two dashes. -/
def classifyWord (word : String) : Except UsageError Word :=
  let cs := word.toList
  let byName := fun name value =>
    (spellings.find? (·.1 == name)).map fun (name, flag) => Word.option name flag value
  let exact :=
    byName word none <|>
      (splitAtEquals? cs).bind fun (name, value) =>
        byName (String.ofList name) (some (String.ofList value))
  match cs, exact with
  | '-' :: _ :: _, some w => .ok w
  | '-' :: _ :: _, none =>
      match candidates cs with
      | [(name, flag, value)] => .ok (.option name flag value)
      | [] => .ok (if isNegativeNumber cs || cs.contains ' ' then .plain word else .unknown word)
      | several => .error (.ambiguous word (several.map (·.1)))
  | _, _ => .ok (.plain word)

/-- Classifies all words before any of them is taken. Behind two dashes nothing is an
option. -/
def classify : List String → Except UsageError (List Word)
  | [] => .ok []
  | word :: words => do
      if word == "--" then return .dashes :: words.map .plain
      let w ← classifyWord word
      return w :: (← classify words)

/-- What a command line asks for; a value that is not given is null. -/
structure Arguments where
  host : Json := .null
  port : Json := .null
  logLevel : Json := .null
  reload : Bool := false

namespace Arguments

/-- Takes the value of an option. A level is put into upper case before it is looked for
among the choices. -/
def accept (a : Arguments) (flag : Flag) (value : String) : Except UsageError Arguments :=
  match flag with
  | .host => .ok { a with host := .text value }
  | .port =>
      match Text.readInteger? value with
      | some n => .ok { a with port := .int n }
      | none => .error (.notInteger .port value)
  | .logLevel =>
      let level := Text.upper value
      if levelChoices.contains level then .ok { a with logLevel := .text level }
      else .error (.notAChoice .logLevel level)
  | .help | .reload => .error (.surplusValue flag value)

/-- Takes a value that is attached by an equals sign. Two dashes are no value, and the
option then has the empty list. -/
def acceptAttached (a : Arguments) (flag : Flag) (value : String) :
    Except UsageError Arguments :=
  if value == "--" then
    match flag with
    | .host => .ok { a with host := .list [] }
    | .port => .ok { a with port := .list [] }
    | .logLevel => .ok { a with logLevel := .list [] }
    | .help | .reload => .error (.surplusValue flag value)
  else a.accept flag value

end Arguments

/-- An option that needs no value, with letters attached to it. After one dash the
letters are further options, of which there is only the one for help. -/
def attachedLetters (spelling : String) (flag : Flag) (value : String) : Stop :=
  if spelling == "-h" && value != "" then
    match value.toList.dropWhile (· == 'h') with
    | [] => .help
    | rest => .refused (.surplusValue flag (String.ofList rest))
  else .refused (.surplusValue flag value)

/-- Takes the words in order. Those that no option took are kept to be reported together,
after the faults of all options. -/
def take (a : Arguments) : List Word → Except Stop (Arguments × List String)
  | [] => .ok (a, [])
  | .plain text :: ws => do
      let (a, rest) ← take a ws
      return (a, text :: rest)
  | .unknown text :: ws => do
      let (a, rest) ← take a ws
      return (a, text :: rest)
  | .dashes :: ws => do
      let (a, rest) ← take a ws
      return (a, "--" :: rest)
  | .option spelling flag (some value) :: ws => do
      if flag.takesValue then
        take (← (a.acceptAttached flag value).mapError .refused) ws
      else throw (attachedLetters spelling flag value)
  | .option _ .help none :: _ => .error .help
  | .option _ .reload none :: ws => take { a with reload := true } ws
  | .option _ flag none :: .plain value :: ws => do
      take (← (a.accept flag value).mapError .refused) ws
  | .option _ flag none :: _ => .error (.refused (.missingValue flag))

def read (words : List String) : Except Stop Arguments := do
  let ws ← (classify words).mapError .refused
  let (a, rest) ← take {} ws
  if rest.isEmpty then return a else throw (.refused (.unrecognized rest))

end Bellman.CommandLine
