import Bellman.Text.Blank
import Bellman.Text.WordChar

/-!
# Patterns of text

A pattern describes a piece of text up to spacing: fixed text, runs of blanks, text that
may be absent, and alternatives. Reading is greedy and never reconsiders: a run of
blanks takes every blank there is, and optional text is taken whenever it is there.
That loses nothing for patterns in which no run of blanks is followed by a blank and no
optional text by something that begins alike.

`pieces` cuts a text at the occurrences of a pattern, from left to right and without
overlap; everything that rewrites by a pattern is a function of the pieces.
-/

namespace Bellman

open Text

/-- What a piece of text looks like. Nothing but blanks repeats, so a pattern is read
without a search for the number of repetitions. -/
inductive Pattern where
  /-- Exactly these characters. -/
  | text (s : List Char)
  /-- A run of blanks, possibly empty. -/
  | blanks
  /-- These characters or nothing. -/
  | optional (s : List Char)
  /-- Nothing, where no word character comes next. -/
  | wordEnd
  /-- One pattern after another. -/
  | andThen (p q : Pattern)
  /-- The first pattern, or else the second. -/
  | orElse (p q : Pattern)

/-- What a pattern finds in a text: kept characters, and occurrences. -/
inductive Piece where
  | kept (c : Char)
  | found (m : List Char)

namespace Pattern

def exactly (s : String) : Pattern :=
  .text s.toList

/-- The patterns of a list one after another, with any blanks between them. -/
def spaced : List Pattern → Pattern
  | [] => .text []
  | [p] => p
  | p :: ps => .andThen p (.andThen .blanks (spaced ps))

/-- Reads a pattern at the start of a text and gives what it covers and what follows.
Optional text or an alternative that was taken is not given back, even where what comes
after it then cannot be read. -/
def read? : Pattern → List Char → Option (List Char × List Char)
  | .text s, cs => if s.isPrefixOf cs then some (s, cs.drop s.length) else none
  | .blanks, cs => some (cs.takeWhile isBlank, cs.dropWhile isBlank)
  | .optional s, cs => if s.isPrefixOf cs then some (s, cs.drop s.length) else some ([], cs)
  | .wordEnd, cs => if cs.head?.any isWordChar then none else some ([], cs)
  | .andThen p q, cs =>
      match p.read? cs with
      | none => none
      | some (m, rest) =>
          match q.read? rest with
          | none => none
          | some (m', rest') => some (m ++ m', rest')
  | .orElse p q, cs =>
      match p.read? cs with
      | none => q.read? cs
      | some r => some r

/-- What a pattern means: `m` is an instance of the pattern where `rest` follows it. This
says nothing of how an instance is found or which of several is read. -/
def Matches : Pattern → List Char → List Char → Prop
  | .text s, m, _ => m = s
  | .blanks, m, _ => ∀ c ∈ m, isBlank c = true
  | .optional s, m, _ => m = s ∨ m = []
  | .wordEnd, m, rest => m = [] ∧ rest.head?.any isWordChar = false
  | .andThen p q, m, rest => ∃ a b, m = a ++ b ∧ p.Matches a (b ++ rest) ∧ q.Matches b rest
  | .orElse p q, m, rest => p.Matches m rest ∨ q.Matches m rest

/-- Some place of a text where a pattern can be read. -/
def occursIn (p : Pattern) : List Char → Bool
  | [] => (p.read? []).isSome
  | c :: cs => (p.read? (c :: cs)).isSome || p.occursIn cs

/-- Cuts a text at the occurrences of a pattern, after leaving out `skip` characters, which
an occurrence before them has covered. An occurrence covers at least one character. -/
def piecesAfter (p : Pattern) : Nat → List Char → List Piece
  | _, [] => []
  | skip + 1, _ :: cs => p.piecesAfter skip cs
  | 0, c :: cs =>
      match p.read? (c :: cs) with
      | some (m :: ms, _) => .found (m :: ms) :: p.piecesAfter ms.length cs
      | _ => .kept c :: p.piecesAfter 0 cs

def pieces (p : Pattern) (cs : List Char) : List Piece :=
  p.piecesAfter 0 cs

/-- A text with every occurrence of a pattern replaced. What is written is not looked at
again, so a replacement may hold the pattern itself. -/
def rewrite (p : Pattern) (replacement : List Char → List Char) (cs : List Char) : List Char :=
  (p.pieces cs).flatMap fun
    | .kept c => [c]
    | .found m => replacement m

/-- The text before the first occurrence of `s`, and the text after it. -/
def splitAt? (s : List Char) : List Char → Option (List Char × List Char)
  | [] => if s.isEmpty then some ([], []) else none
  | c :: cs =>
      if s.isPrefixOf (c :: cs) then some ([], (c :: cs).drop s.length)
      else (splitAt? s cs).map fun (before, after) => (c :: before, after)

private theorem isPrefixOf_split {s cs : List Char} (h : s.isPrefixOf cs = true) :
    cs = s ++ cs.drop s.length := by
  obtain ⟨t, rfl⟩ := List.isPrefixOf_iff_prefix.1 h
  simp

/-- Reading takes a text apart and loses nothing. -/
theorem append_of_read? {p : Pattern} {cs m rest : List Char}
    (h : p.read? cs = some (m, rest)) : cs = m ++ rest := by
  induction p generalizing cs m rest with
  | text s =>
      simp only [read?] at h
      split at h <;> simp at h
      next hp => obtain ⟨rfl, rfl⟩ := h; exact isPrefixOf_split hp
  | blanks =>
      simp only [read?, Option.some.injEq, Prod.mk.injEq] at h
      obtain ⟨rfl, rfl⟩ := h
      exact List.takeWhile_append_dropWhile.symm
  | optional s =>
      simp only [read?] at h
      split at h
      next hp =>
        simp at h
        obtain ⟨rfl, rfl⟩ := h
        exact isPrefixOf_split hp
      next => simp at h; obtain ⟨rfl, rfl⟩ := h; rfl
  | wordEnd =>
      simp only [read?] at h
      split at h <;> simp at h
      obtain ⟨rfl, rfl⟩ := h
      rfl
  | andThen p q ihp ihq =>
      simp only [read?] at h
      split at h
      next => simp at h
      next a r hp =>
        split at h
        next => simp at h
        next b r' hq =>
          simp at h
          obtain ⟨rfl, rfl⟩ := h
          rw [ihp hp, ihq hq, List.append_assoc]
  | orElse p q ihp ihq =>
      simp only [read?] at h
      split at h
      next => exact ihq h
      next r hp => exact ihp (hp.trans h)

/-- What is read is an instance of the pattern. -/
theorem matches_of_read? {p : Pattern} {cs m rest : List Char}
    (h : p.read? cs = some (m, rest)) : p.Matches m rest := by
  induction p generalizing cs m rest with
  | text s =>
      simp only [read?] at h
      split at h <;> simp at h
      exact h.1.symm
  | blanks =>
      simp only [read?, Option.some.injEq, Prod.mk.injEq] at h
      obtain ⟨rfl, -⟩ := h
      intro c hc
      exact List.all_eq_true.1 List.all_takeWhile c hc
  | optional s =>
      simp only [read?] at h
      split at h <;> simp at h
      · exact .inl h.1.symm
      · exact .inr h.1
  | wordEnd =>
      simp only [read?] at h
      split at h
      next => simp at h
      next hw =>
        simp at h
        obtain ⟨rfl, rfl⟩ := h
        exact ⟨rfl, by simpa using hw⟩
  | andThen p q ihp ihq =>
      simp only [read?] at h
      split at h
      next => simp at h
      next a r hp =>
        split at h
        next => simp at h
        next b r' hq =>
          simp at h
          obtain ⟨rfl, rfl⟩ := h
          exact ⟨a, b, rfl, append_of_read? hq ▸ ihp hp, ihq hq⟩
  | orElse p q ihp ihq =>
      simp only [read?] at h
      split at h
      next => exact .inr (ihq h)
      next r hp => exact .inl (ihp (hp.trans h))

end Pattern

end Bellman
