import Bellman.Decimal.Shortest
import Bellman.Json
import Bellman.Text.Quoted

/-!
# JSON values as texts

Where a text is asked for and another value is given, the value is written out. A string
stands for itself; inside a list or an object it is quoted.
-/

namespace Bellman.Json

mutual

/-- A value written out, with its strings quoted. -/
def literal : Json → String
  | .null => "None"
  | .bool b => if b then "True" else "False"
  | .int n => toString n
  | .number x => Decimal.shortestText x
  | .text s => Text.quoted s
  | .list items => "[" ++ ", ".intercalate (literals items) ++ "]"
  | .object fields => "\x7b" ++ ", ".intercalate (fieldLiterals fields) ++ "\x7d"

def literals : List Json → List String
  | [] => []
  | v :: vs => v.literal :: literals vs

def fieldLiterals : List (String × Json) → List String
  | [] => []
  | (name, v) :: fields => (Text.quoted name ++ ": " ++ v.literal) :: fieldLiterals fields

end

/-- The text that a value gives where a text is asked for. A string stands for itself here,
so it may look like the text of another value. -/
def asText : Json → String
  | .text s => s
  | v => v.literal

end Bellman.Json
