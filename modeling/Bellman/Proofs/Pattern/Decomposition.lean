import Bellman.Proofs.Pattern.Blocks

/-!
# A text and the instances in it

What a scan finds is said here without the scan: the instances stand where the cut says, and
no other instance begins anywhere in the text, neither between them nor inside of them. So
rewriting by a pattern replaces all its instances and nothing else.
-/

namespace Bellman.Pattern

open Text

variable {p : Pattern} {m rest cs : List Char}

/-- An instance of a pattern stands somewhere in a text. -/
def Stands (p : Pattern) (cs : List Char) : Prop :=
  ∃ before m after, cs = before ++ (m ++ after) ∧ p.Matches m after

theorem Determined.occursIn_iff_stands (determined : p.Determined) :
    p.occursIn cs = true ↔ p.Stands cs := by
  refine ⟨exists_matches_of_occursIn, ?_⟩
  rintro ⟨before, m, after, rfl, hm⟩
  exact determined.occursIn before hm

/-- No instance of a pattern begins in a text that stands before `rest`. -/
def Clear (p : Pattern) (u rest : List Char) : Prop :=
  ∀ a b, u = a ++ b → b ≠ [] → ∀ m after, b ++ rest = m ++ after → ¬ p.Matches m after

theorem clear_nil (p : Pattern) (rest : List Char) : p.Clear [] rest := by
  intro a b h hb
  exact absurd (List.append_eq_nil_iff.mp h.symm).2 hb

theorem Clear.cons {c : Char} {u : List Char}
    (start : ∀ m after, c :: (u ++ rest) = m ++ after → ¬ p.Matches m after)
    (h : p.Clear u rest) : p.Clear (c :: u) rest := by
  intro a b hu hb
  cases a with
  | nil =>
      obtain rfl : c :: u = b := hu
      exact start
  | cons d a => exact h a b (List.cons.inj hu).2 hb

/-- Where a pattern is not read, no instance of it begins. -/
theorem Determined.not_matches (determined : p.Determined) (hread : p.read? cs = none)
    {after : List Char} (hcs : cs = m ++ after) : ¬ p.Matches m after := by
  intro hm
  rw [hcs, determined m after hm] at hread
  cases hread

/-- No instance begins in a text in which no form of the pattern begins. -/
theorem Solid.clear_of_avoids (solid : p.Solid) (determined : p.Determined) {u : List Char}
    (avoids : ∀ w ∈ p.forms, Avoids w (visible u)) (rest : List Char) : p.Clear u rest := by
  induction u with
  | nil => exact clear_nil p rest
  | cons c u ih =>
      have hread := solid.read?_eq_none_of_avoids avoids rest
      exact (ih (avoids_tail avoids)).cons fun _ _ => determined.not_matches hread

/-- The blocks of a cut hold instances of a pattern, each at its place in the text, and no
other instance begins in the text. -/
def Exhibits (p : Pattern) (rest : List Char) : List Block → Prop
  | [] => p.Clear rest []
  | b :: bs =>
      p.Clear b.kept (b.found ++ Cut.text id ⟨bs, rest⟩) ∧
        p.Matches b.found (Cut.text id ⟨bs, rest⟩) ∧
          p.Clear b.found.tail (Cut.text id ⟨bs, rest⟩) ∧ p.Exhibits rest bs

theorem cut_cons {c : Char} (h : p.read? (c :: cs) = none) :
    p.cut (c :: cs) = (p.cut cs).keep c := by
  rw [cut, pieces_cons h]
  rfl

theorem cut_append (ne : m ≠ []) (h : p.read? (m ++ rest) = some (m, rest)) :
    p.cut (m ++ rest) = ⟨⟨[], m⟩ :: (p.cut rest).blocks, (p.cut rest).rest⟩ := by
  rw [cut, pieces_append ne h]
  rfl

/-- A character at which no instance begins is kept in front of the first block. -/
theorem Exhibits.keep {c : Char} {cut : Cut}
    (start : ∀ m after, c :: cut.text id = m ++ after → ¬ p.Matches m after)
    (h : p.Exhibits cut.rest cut.blocks) :
    p.Exhibits (cut.keep c).rest (cut.keep c).blocks := by
  obtain ⟨blocks, rest⟩ := cut
  cases blocks with
  | nil =>
      refine Clear.cons (fun m after hm => start m after ?_) h
      simpa [Cut.text] using hm
  | cons b bs =>
      obtain ⟨hkept, hlater⟩ := h
      refine ⟨hkept.cons fun m after hm => start m after ?_, hlater⟩
      simpa [Cut.text, Cut.keep] using hm

/-- The cut of a text shows all the instances in it, if none begins inside of another. -/
theorem Solid.exhibits_cut (solid : p.Solid) (determined : p.Determined)
    (inside : ∀ v ∈ p.forms, ∀ w ∈ p.forms, Avoids v w.tail) (cs : List Char) :
    p.Exhibits (p.cut cs).rest (p.cut cs).blocks := by
  induction cs using solid.scan with
  | nil => exact clear_nil p []
  | found m rest hm hmatches hread ih =>
      obtain ⟨c, u, rfl, hc⟩ := solid m rest hmatches
      have htail : (visible (c :: u)).tail = visible u := by simp [visible_cons, hc]
      rw [cut_append hm hread]
      have htext : Cut.text id ⟨(p.cut rest).blocks, (p.cut rest).rest⟩ = rest :=
        solid.text_cut rest
      refine ⟨clear_nil p _, ?_, ?_, ih⟩
      · rwa [htext]
      · refine solid.clear_of_avoids determined (u := u) (fun v hv => ?_) _
        rw [← htail]
        exact inside v hv _ (visible_mem_forms hmatches)
  | kept c cs hread ih =>
      rw [cut_cons hread]
      refine ih.keep fun m after hm => determined.not_matches hread ?_
      rwa [solid.text_cut] at hm

/-- A text in which an instance stands has a block. -/
theorem Solid.blocks_ne_nil (solid : p.Solid) (determined : p.Determined) (h : p.Stands cs) :
    (p.cut cs).blocks ≠ [] := by
  rw [← determined.occursIn_iff_stands] at h
  induction cs using solid.scan with
  | nil => simp [solid.occursIn_nil] at h
  | found m rest hm _ hread ih => simp [cut_append hm hread]
  | kept c cs hread ih =>
      have hlater : p.occursIn cs = true := by simpa [occursIn, hread] using h
      rw [cut_cons hread]
      cases hcut : p.cut cs with
      | mk blocks rest =>
          cases blocks with
          | nil => exact absurd (congrArg Cut.blocks hcut) (ih hlater)
          | cons b bs => exact List.cons_ne_nil _ _

end Bellman.Pattern
