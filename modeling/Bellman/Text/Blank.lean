/-!
# Blank characters and the normal spacing of a text

A blank is a character that only separates. `normalize` gives a text its normal
spacing: every run of blanks becomes one space and no blank is left at either end.
The words of a text are its maximal runs of characters that are not blank; they are
what spacing cannot change.
-/

namespace Bellman.Text

/-- The control characters and Unicode spaces that count as blank. Those without any width
are not among them, since they do not set words apart. -/
def blankCodes : List Nat :=
  [0x09, 0x0A, 0x0B, 0x0C, 0x0D, 0x1C, 0x1D, 0x1E, 0x1F, 0x20, 0x85, 0xA0, 0x1680,
   0x2000, 0x2001, 0x2002, 0x2003, 0x2004, 0x2005, 0x2006, 0x2007, 0x2008, 0x2009, 0x200A,
   0x2028, 0x2029, 0x202F, 0x205F, 0x3000]

/-- A character that separates words. -/
def isBlank (c : Char) : Bool :=
  blankCodes.contains c.toNat

def trimLeft (cs : List Char) : List Char :=
  cs.dropWhile isBlank

def trimRight (cs : List Char) : List Char :=
  (trimLeft cs.reverse).reverse

def trim (cs : List Char) : List Char :=
  trimRight (trimLeft cs)

/-- A blank that another blank follows is dropped, and the last blank of a run becomes
a space. -/
def collapse : List Char → List Char
  | [] => []
  | c :: cs =>
      if isBlank c then
        if cs.head?.any isBlank then collapse cs else ' ' :: collapse cs
      else c :: collapse cs

/-- The normal spacing of a text. After runs have become single spaces there is at most one
left to trim at either end. -/
def normalize (cs : List Char) : List Char :=
  trim (collapse cs)

def normalSpacing (s : String) : String :=
  String.ofList (normalize s.toList)

private def consWord (c : Char) : List (List Char) → List (List Char)
  | [] => [[c]]
  | w :: ws => (c :: w) :: ws

/-- The maximal runs of characters that are not blank, in order. -/
def words : List Char → List (List Char)
  | [] => []
  | c :: cs =>
      if isBlank c then words cs
      else if cs.head?.all isBlank then [c] :: words cs
      else consWord c (words cs)

@[simp] theorem isBlank_space : isBlank ' ' = true := by decide

@[simp] theorem collapse_nil : collapse [] = [] := rfl

@[simp] theorem normalize_nil : normalize [] = [] := rfl

@[simp] theorem words_nil : words [] = [] := rfl

end Bellman.Text
