import Bellman.Binary64

/-!
# JSON values

The values that requests and settings carry. Whole numbers are exact and of any size;
numbers with a point or an exponent are doubles. An object keeps its fields in order.
-/

namespace Bellman

/-- A JSON value. Whole numbers are kept apart from those with a point, so that one of any
size stays exact. -/
inductive Json where
  | null
  | bool (b : Bool)
  | int (n : Int)
  | number (x : Binary64)
  | text (s : String)
  | list (items : List Json)
  | object (fields : List (String × Json))
deriving Inhabited

namespace Json

/-- The last field of a name; a field that comes again replaces the earlier one. -/
def field? (name : String) : Json → Option Json
  | .object fields => (fields.reverse.find? (·.1 == name)).map (·.2)
  | _ => none

def text? : Json → Option String
  | .text s => some s
  | _ => none

def ofOption : Option String → Json
  | none => .null
  | some s => .text s

end Json

end Bellman
