/-!
# Lines and cells

A text is read as lines and a line as cells. A line ends at any of the Unicode line
breaks; carriage return and line feed together are one break, and a break at the very
end of the text opens no further line. A comma always separates two cells, so a line
has one cell more than it has commas.
-/

namespace Bellman.Text

/-- A character that ends a line. Of the four separators of information the last, which
stands between units, does not. -/
def isLineBreak (c : Char) : Bool :=
  [0x0A, 0x0B, 0x0C, 0x0D, 0x1C, 0x1D, 0x1E, 0x85, 0x2028, 0x2029].contains c.toNat

/-- The lines of a text, without their breaks. -/
def lines : List Char → List (List Char)
  | [] => []
  | '\r' :: '\n' :: cs => [] :: lines cs
  | c :: cs =>
      if isLineBreak c then [] :: lines cs
      else
        match lines cs with
        | [] => [[c]]
        | l :: ls => (c :: l) :: ls

/-- The cells of a line, without the commas between them. The empty line has one cell,
which is empty. -/
def cells : List Char → List (List Char)
  | [] => [[]]
  | c :: cs =>
      if c = ',' then [] :: cells cs
      else
        match cells cs with
        | [] => [[c]]
        | l :: ls => (c :: l) :: ls

theorem cells_ne_nil (cs : List Char) : cells cs ≠ [] := by
  cases cs with
  | nil => simp [cells]
  | cons c cs => unfold cells; split <;> (try split) <;> simp

end Bellman.Text
