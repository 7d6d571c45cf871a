import Bellman.Proofs.Text.Spacing

/-!
# The lexemes of LaTeX

A text of LaTeX is made of commands, which are a backslash with all the letters behind it, of
symbols, which are a backslash with one other character, and of single characters. Blanks only
separate, but for the one behind a backslash: that makes the control space, and so does the
end of the text. Normal spacing keeps the lexemes.

Reading goes from left to right and remembers whether a command stands open. Two texts are
read like one where nothing open goes on: `Parted` says so of a text and the one behind it.
-/

namespace Bellman.Text

/-- What LaTeX reads as one. -/
inductive Lexeme where
  /-- A backslash and letters. -/
  | command (letters : List Char)
  /-- A backslash and another character. -/
  | symbol (c : Char)
  /-- A character by itself. -/
  | single (c : Char)
deriving DecidableEq, Repr

/-- What stands open while a text is read. -/
inductive Mode where
  | plain
  | backslash
  | command (letters : List Char)
deriving DecidableEq, Repr

namespace Mode

/-- What is open after a character where nothing was open, and the lexeme it makes. -/
def start (c : Char) : List Lexeme × Mode :=
  if c = '\\' then ([], backslash)
  else if isBlank c then ([], plain)
  else ([.single c], plain)

/-- What is open after a character, and the lexemes that end with it. -/
def step : Mode → Char → List Lexeme × Mode
  | plain, c => start c
  | backslash, c =>
      if c.isAlpha then ([], command [c])
      else if isBlank c then ([.symbol ' '], plain)
      else ([.symbol c], plain)
  | command letters, c =>
      if c.isAlpha then ([], command (letters ++ [c]))
      else (.command letters :: (start c).1, (start c).2)

/-- The lexeme that ends with the text. -/
def finish : Mode → List Lexeme
  | plain => []
  | backslash => [.symbol ' ']
  | command letters => [.command letters]

/-- The lexemes of a text behind what is open. -/
def read : Mode → List Char → List Lexeme
  | mode, [] => mode.finish
  | mode, c :: cs => (mode.step c).1 ++ read (mode.step c).2 cs

/-- The lexemes that end inside a text. -/
def emitted : Mode → List Char → List Lexeme
  | _, [] => []
  | mode, c :: cs => (mode.step c).1 ++ emitted (mode.step c).2 cs

/-- What is open after a text. -/
def after : Mode → List Char → Mode
  | mode, [] => mode
  | mode, c :: cs => after (mode.step c).2 cs

end Mode

/-- The lexemes of a text. -/
def lexemes (cs : List Char) : List Lexeme :=
  Mode.plain.read cs

example : lexemes "\\gamma r(s)\\,".toList =
    [.command "gamma".toList, .single 'r', .single '(', .single 's', .single ')', .symbol ','] := by
  decide

variable {mode : Mode} {a b cs : List Char} {c : Char}

namespace Mode

@[simp] theorem read_nil (mode : Mode) : mode.read [] = mode.finish := rfl

@[simp] theorem after_nil (mode : Mode) : mode.after [] = mode := rfl

theorem read_cons (mode : Mode) (c : Char) (cs : List Char) :
    mode.read (c :: cs) = (mode.step c).1 ++ (mode.step c).2.read cs := rfl

theorem read_append (mode : Mode) (a b : List Char) :
    mode.read (a ++ b) = mode.emitted a ++ (mode.after a).read b := by
  induction a generalizing mode with
  | nil => rfl
  | cons c a ih =>
      rw [List.cons_append, read_cons, ih, emitted, after, List.append_assoc]

theorem read_eq (mode : Mode) (a : List Char) :
    mode.read a = mode.emitted a ++ (mode.after a).finish := by
  have h := mode.read_append a []
  rwa [List.append_nil] at h

theorem after_append (mode : Mode) (a b : List Char) :
    mode.after (a ++ b) = (mode.after a).after b := by
  induction a generalizing mode with
  | nil => rfl
  | cons c a ih => exact ih _

theorem not_isAlpha_of_blank (h : isBlank c = true) : c.isAlpha = false := by
  have hall : ∀ n ∈ blankCodes, (Char.ofNat n).isAlpha = false := by decide
  have hc := hall c.toNat (List.contains_iff_mem.mp h)
  rwa [Char.ofNat_toNat] at hc

/-- A blank ends what is open. -/
theorem step_blank (h : isBlank c = true) (mode : Mode) : mode.step c = (mode.finish, plain) := by
  have halpha : c.isAlpha = false := not_isAlpha_of_blank h
  have hslash : c ≠ '\\' := by
    rintro rfl
    exact absurd h (by decide)
  cases mode with
  | plain => simp [step, start, hslash, h, finish]
  | backslash => simp [step, halpha, h, finish]
  | command letters => simp [step, start, halpha, hslash, h, finish]

theorem read_blank (h : isBlank c = true) (mode : Mode) (cs : List Char) :
    mode.read (c :: cs) = mode.finish ++ plain.read cs := by
  rw [read_cons, step_blank h]

/-- Blanks end what is open and make no lexeme themselves. -/
theorem read_blanks (h : ∀ c ∈ b, isBlank c = true) (mode : Mode) :
    mode.read b = mode.finish := by
  induction b generalizing mode with
  | nil => rfl
  | cons c b ih =>
      rw [read_blank (h c List.mem_cons_self), ih fun d hd => h d (List.mem_cons_of_mem c hd)]
      exact List.append_nil _

/-- Of a run of blanks one is enough. -/
theorem read_collapse (mode : Mode) (cs : List Char) : mode.read (collapse cs) = mode.read cs := by
  induction cs generalizing mode with
  | nil => rfl
  | cons c cs ih =>
      rw [collapse]
      by_cases hc : isBlank c = true
      · rw [if_pos hc, read_blank hc]
        split
        next hnext =>
          cases cs with
          | nil => cases hnext
          | cons d cs =>
              have hd : isBlank d = true := hnext
              rw [ih, read_blank hd, read_blank hd]
              rfl
        next => rw [read_blank isBlank_space, ih]
      · rw [if_neg hc, read_cons, read_cons, ih]

end Mode

@[simp] theorem lexemes_normalize (cs : List Char) : lexemes (normalize cs) = lexemes cs := by
  have hleft (ds : List Char) : lexemes (trimLeft ds) = lexemes ds := by
    induction ds with
    | nil => rfl
    | cons d ds ih =>
        rw [trimLeft, List.dropWhile_cons]
        split
        next hd =>
          rw [lexemes, lexemes, Mode.read_blank hd]
          exact ih
        next => rfl
  have hright (ds : List Char) : lexemes (trimRight ds) = lexemes ds := by
    have hblank : ∀ c ∈ ds.rtakeWhile isBlank, isBlank c = true :=
      fun _ => List.mem_rtakeWhile_imp
    have hds : trimRight ds ++ ds.rtakeWhile isBlank = ds := List.rdropWhile_append_rtakeWhile
    conv_rhs => rw [← hds, lexemes, Mode.read_append, Mode.read_blanks hblank, ← Mode.read_eq]
    rfl
  rw [normalize, trim, hright, hleft]
  exact Mode.read_collapse .plain cs

/-- Nothing that stands open in the first text goes on in the second one: no backslash, and a
command only before something other than a letter. -/
def Parted (a b : List Char) : Prop :=
  match Mode.plain.after a with
  | .plain => True
  | .backslash => False
  | .command _ => b.head?.any Char.isAlpha = false

namespace Mode

/-- A command may go on, and ends with a lexeme of its own. -/
private theorem exists_read_command (letters cs : List Char) :
    ∃ more rest, (command letters).read cs = .command (letters ++ more) :: rest := by
  induction cs generalizing letters with
  | nil => exact ⟨[], [], by simp [finish]⟩
  | cons c cs ih =>
      rw [read_cons, step]
      split
      next =>
        obtain ⟨more, rest, hread⟩ := ih (letters ++ [c])
        exact ⟨c :: more, rest, by simp [hread]⟩
      next => exact ⟨[], (start c).1 ++ read (start c).2 cs, by simp⟩

/-- A text ends what is open before it, or is taken into it. -/
private theorem read_eq_finish_append_iff (hc : isBlank c = false) (mode : Mode) (cs : List Char)
    (rest : List Lexeme) : mode.read (c :: cs) = mode.finish ++ rest ↔
      (match mode with
        | plain => True
        | backslash => False
        | command _ => c.isAlpha = false) ∧ plain.read (c :: cs) = rest := by
  cases mode with
  | plain => simp [finish]
  | backslash =>
      refine iff_of_false (fun h => ?_) fun h => h.1
      rw [read_cons, step] at h
      split at h
      next =>
        obtain ⟨more, rest', hread⟩ := exists_read_command [c] cs
        simp [hread, finish] at h
      next =>
        rw [hc] at h
        obtain ⟨hspace, -⟩ : c = ' ' ∧ plain.read cs = rest := by simpa [finish] using h
        rw [hspace] at hc
        exact absurd hc (by decide)
  | command letters =>
      by_cases halpha : c.isAlpha = true
      · refine iff_of_false (fun h => ?_) fun h => by simp [halpha] at h
        rw [read_cons, step, if_pos halpha] at h
        obtain ⟨more, rest', hread⟩ := exists_read_command (letters ++ [c]) cs
        simp [hread, finish] at h
      · rw [read_cons, step, if_neg halpha]
        simp [halpha, finish, read_cons, step]

/-- Where a text ends with a character that neither is a letter nor a backslash, nothing is
open. -/
theorem after_concat (halpha : c.isAlpha = false) (hslash : c ≠ '\\') (mode : Mode)
    (a : List Char) : mode.after (a ++ [c]) = plain := by
  have hstart : (start c).2 = plain := by
    simp only [start, if_neg hslash]
    split <;> rfl
  rw [after_append]
  cases mode.after a with
  | plain => exact hstart
  | backslash =>
      by_cases hc : isBlank c = true
      · simp [after, step, halpha, hc]
      · simp [after, step, halpha, hc]
  | command letters => simpa [after, step, halpha] using hstart

end Mode

/-- The lexemes of a text are the first ones of a longer text exactly if nothing goes on. -/
theorem lexemes_append_iff (hc : isBlank c = false) (a cs : List Char) (rest : List Lexeme) :
    lexemes (a ++ c :: cs) = lexemes a ++ rest ↔ Parted a (c :: cs) ∧ lexemes (c :: cs) = rest := by
  rw [lexemes, lexemes, Mode.read_append, Mode.read_eq .plain a, List.append_assoc,
    List.append_cancel_left_eq, Mode.read_eq_finish_append_iff hc]
  rfl

/-- Only the first character of the second text matters. -/
theorem parted_cons_append (a : List Char) (c : Char) (cs b : List Char) :
    Parted a (c :: cs ++ b) ↔ Parted a (c :: cs) :=
  Iff.rfl

/-- Behind a text at the end of which nothing is open a text is read by itself. -/
theorem lexemes_append (h : Mode.plain.after a = .plain) (b : List Char) :
    lexemes (a ++ b) = lexemes a ++ lexemes b := by
  rw [lexemes, Mode.read_append, lexemes, Mode.read_eq .plain a, h]
  simp [lexemes, Mode.finish]

end Bellman.Text
