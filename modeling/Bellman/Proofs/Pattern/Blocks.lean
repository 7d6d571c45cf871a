import Bellman.Proofs.Pattern.Instances

/-!
# Kept and found text

A pattern cuts a text into blocks: kept text and what is found behind it, over and over, and
at the end the text that nothing is found in any more. Rewriting keeps the one and replaces
the other.
-/

namespace Bellman.Pattern

open Text

/-- Kept text, and what is found behind it. -/
structure Block where
  kept : List Char
  found : List Char
deriving DecidableEq, Repr

/-- The blocks of a text, and the text behind the last one. -/
structure Cut where
  blocks : List Block
  rest : List Char
deriving DecidableEq, Repr

namespace Cut

/-- Puts a kept character in front of the first block. -/
def keep (c : Char) : Cut → Cut
  | ⟨[], rest⟩ => ⟨[], c :: rest⟩
  | ⟨b :: bs, rest⟩ => ⟨⟨c :: b.kept, b.found⟩ :: bs, rest⟩

/-- The text of the blocks with everything found rewritten. -/
def text (f : List Char → List Char) (cut : Cut) : List Char :=
  cut.blocks.flatMap (fun b => b.kept ++ f b.found) ++ cut.rest

/-- The cut that pieces make. -/
def ofPieces : List Piece → Cut
  | [] => ⟨[], []⟩
  | .kept c :: ps => (ofPieces ps).keep c
  | .found m :: ps => ⟨⟨[], m⟩ :: (ofPieces ps).blocks, (ofPieces ps).rest⟩

theorem text_keep (f : List Char → List Char) (c : Char) (cut : Cut) :
    (cut.keep c).text f = c :: cut.text f := by
  obtain ⟨bs, rest⟩ := cut
  cases bs with
  | nil => rfl
  | cons b bs => simp [keep, text]

theorem text_ofPieces (f : List Char → List Char) (ps : List Piece) :
    (ofPieces ps).text f = ps.flatMap fun
      | .kept c => [c]
      | .found m => f m := by
  induction ps with
  | nil => rfl
  | cons piece ps ih =>
      cases piece with
      | kept c =>
          rw [ofPieces, text_keep, ih]
          rfl
      | found m =>
          rw [List.flatMap_cons, ← ih]
          simp [ofPieces, text]

theorem found_mem_of_block {b : Block} {ps : List Piece} (h : b ∈ (ofPieces ps).blocks) :
    .found b.found ∈ ps := by
  induction ps generalizing b with
  | nil => cases h
  | cons piece ps ih =>
      cases piece with
      | kept c =>
          rw [ofPieces] at h
          cases hcut : ofPieces ps with
          | mk bs rest =>
              rw [hcut] at h ih
              cases bs with
              | nil => cases h
              | cons b' bs =>
                  obtain rfl | hmem := List.mem_cons.mp h
                  · exact List.mem_cons_of_mem _ (ih (b := b') List.mem_cons_self)
                  · exact List.mem_cons_of_mem _ (ih (List.mem_cons_of_mem _ hmem))
      | found m =>
          obtain rfl | hmem := List.mem_cons.mp h
          · exact List.mem_cons_self
          · exact List.mem_cons_of_mem _ (ih hmem)

end Cut

/-- The blocks into which a pattern cuts a text. -/
def cut (p : Pattern) (cs : List Char) : Cut :=
  Cut.ofPieces (p.pieces cs)

variable {p : Pattern} {cs : List Char}

theorem rewrite_eq_text (p : Pattern) (replacement : List Char → List Char) (cs : List Char) :
    p.rewrite replacement cs = (p.cut cs).text replacement :=
  (Cut.text_ofPieces replacement (p.pieces cs)).symm

/-- The blocks make up the text. -/
theorem Solid.text_cut (solid : p.Solid) (cs : List Char) : (p.cut cs).text id = cs := by
  obtain ⟨n, hn, -⟩ := solid.replaces_rewrite id cs
  rw [← rewrite_eq_text]
  exact hn.eq_of_same fun _ _ h => h.2.2

theorem matches_of_block {b : Block} (h : b ∈ (p.cut cs).blocks) :
    ∃ rest, p.Matches b.found rest :=
  matches_of_mem_pieces (Cut.found_mem_of_block h)

end Bellman.Pattern
