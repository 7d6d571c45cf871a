import Bellman.Proofs.Pattern.Blocks
import Bellman.Proofs.Rule.Substitution
import Bellman.Proofs.Text.Lexeme

/-!
# Rules and the lexemes of LaTeX

A substitution is meant to put the lexemes of its replacement in the place of those that it
finds. It does where nothing that stands open before an occurrence goes on: behind a backslash
an occurrence never is one, and behind a command neither what is found nor what is written may
begin with a letter.
-/

namespace Bellman.Catalog

open Text Pattern

/-- The lexemes of each block by itself, with what is found rewritten. -/
def blockLexemes (f : List Char → List Char) (cut : Cut) : List Lexeme :=
  cut.blocks.flatMap (fun b => lexemes b.kept ++ lexemes (f b.found)) ++ lexemes cut.rest

/-- A text that begins with a visible character and leaves nothing open. -/
structure Closed (g : List Char) : Prop where
  first : ∃ c cs, g = c :: cs ∧ isBlank c = false
  last : Mode.plain.after g = .plain

/-- A text is read block by block exactly if nothing goes on into what is found. -/
theorem lexemes_text_iff (f : List Char → List Char) (cut : Cut)
    (closed : ∀ b ∈ cut.blocks, Closed (f b.found)) :
    lexemes (cut.text f) = blockLexemes f cut ↔ ∀ b ∈ cut.blocks, Parted b.kept (f b.found) := by
  obtain ⟨blocks, rest⟩ := cut
  induction blocks with
  | nil => simp [Cut.text, blockLexemes]
  | cons b blocks ih =>
      obtain ⟨c, cs, hfound, hc⟩ := (closed b List.mem_cons_self).first
      have hlast := (closed b List.mem_cons_self).last
      have hlater := ih fun b' hb' => closed b' (List.mem_cons_of_mem b hb')
      have htext : Cut.text f ⟨b :: blocks, rest⟩ =
          b.kept ++ (f b.found ++ Cut.text f ⟨blocks, rest⟩) := by
        simp [Cut.text]
      have hblocks : blockLexemes f ⟨b :: blocks, rest⟩ =
          lexemes b.kept ++ (lexemes (f b.found) ++ blockLexemes f ⟨blocks, rest⟩) := by
        simp [blockLexemes]
      rw [htext, hblocks, List.forall_mem_cons]
      have hread := lexemes_append hlast (Cut.text f ⟨blocks, rest⟩)
      rw [hfound] at hread ⊢
      rw [List.cons_append, lexemes_append_iff hc, ← List.cons_append, parted_cons_append, hread,
        List.append_cancel_left_eq, hlater]

/-- The substitutions between lexemes. -/
def lexical : List Substitution :=
  [.expectedReturn, .unrolled, .reward, .nextState, .nextValue]

/-- The characters that end what these find and write. -/
def ends : List Char :=
  [')', ']', '\x7d']

theorem closes_of_mem_ends {d : Char} (hd : d ∈ ends) : d.isAlpha = false ∧ d ≠ '\\' := by
  simp only [ends, List.mem_cons, List.not_mem_nil, or_false] at hd
  obtain rfl | rfl | rfl := hd <;> exact ⟨rfl, by decide⟩

theorem closed_of_visible {g : List Char} {c : Char} (hfirst : g.head? = some c)
    (hc : isBlank c = false) (hlast : (visible g).getLast?.any (· ∈ ends)) : Closed g := by
  obtain ⟨cs, rfl⟩ := List.head?_eq_some_iff.mp hfirst
  obtain ⟨d, hlast, hd⟩ := (Option.any_eq_true _ _).mp hlast
  obtain ⟨hletter, hslash⟩ := closes_of_mem_ends (of_decide_eq_true hd)
  refine ⟨⟨c, cs, rfl, hc⟩, ?_⟩
  obtain ⟨xs, x, hx⟩ := (List.eq_nil_or_concat' (c :: cs)).resolve_left (List.cons_ne_nil c cs)
  rw [hx] at hlast ⊢
  -- Blanks at the end leave nothing open either.
  by_cases hblank : isBlank x = true
  · refine Mode.after_concat (Mode.not_isAlpha_of_blank hblank) ?_ .plain xs
    rintro rfl
    exact absurd hblank (by decide)
  · obtain rfl : x = d := by simpa [visible_cons, hblank] using hlast
    exact Mode.after_concat hletter hslash .plain xs

theorem Closed.head?_visible {g : List Char} (h : Closed g) : (visible g).head? = g.head? := by
  obtain ⟨c, cs, rfl, hc⟩ := h.first
  simp [visible_cons, hc]

namespace Substitution

variable {s : Substitution} {m rest : List Char}

theorem closed_of_matches (hs : s ∈ lexical) (h : s.pattern.Matches m rest) : Closed m := by
  have hends : ∀ s ∈ lexical, ∀ f ∈ s.pattern.forms, f.getLast?.any (· ∈ ends) := by
    decide
  obtain ⟨c, cs, rfl, hc⟩ := s.solid m rest h
  exact closed_of_visible rfl hc (hends s hs _ (visible_mem_forms h))

theorem closed_replacement (hs : s ∈ lexical) (m : List Char) : Closed (s.replacement m) := by
  have hends : ∀ s ∈ lexical, ∀ g ∈ s.outcomes, g.getLast?.any (· ∈ ends) := by
    decide
  obtain ⟨c, hc, hfirst⟩ := s.head_replacement m
  exact closed_of_visible hfirst (isBlank_of_mem_heads hc)
    (hends s hs _ (s.visible_replacement_mem m))

/-- Nothing stands open before an occurrence; only where what is found and what is written
both begin with a command may another command stand open. -/
def Fits (s : Substitution) (kept : List Char) : Prop :=
  Mode.plain.after kept = .plain ∨ s = .nextState ∧ Mode.plain.after kept ≠ .backslash

instance (s : Substitution) (kept : List Char) : Decidable (s.Fits kept) :=
  inferInstanceAs (Decidable (_ ∨ _ ∧ _))

theorem parted_iff_fits (hs : s ∈ lexical) (h : s.pattern.Matches m rest) (kept : List Char) :
    Parted kept m ∧ Parted kept (s.replacement m) ↔ s.Fits kept := by
  have hletters : ∀ s ∈ lexical, ∀ f ∈ s.pattern.forms, ∀ g ∈ s.outcomes,
      (f.head?.any Char.isAlpha = false ∧ g.head?.any Char.isAlpha = false) ↔ s = .nextState := by
    decide
  have hheads := hletters s hs _ (visible_mem_forms h) _ (s.visible_replacement_mem m)
  rw [(closed_of_matches hs h).head?_visible, (closed_replacement hs m).head?_visible] at hheads
  unfold Parted Fits
  cases Mode.plain.after kept with
  | plain => simp
  | backslash => simp
  | command letters => simpa using hheads

end Substitution

/-- A rule that substitutes between lexemes keeps the lexemes of a text, but for those of what
it finds, in whose place there are those of what it writes, exactly if every occurrence fits
to what stands before it. -/
theorem lexemes_replaced_iff {s : Substitution} (hs : s ∈ lexical) {e out : String}
    (h : s.rule.transform e = .ok out) :
    (lexemes e.toList = blockLexemes id (s.pattern.cut e.toList) ∧
      lexemes out.toList = blockLexemes s.replacement (s.pattern.cut e.toList)) ↔
    ∀ b ∈ (s.pattern.cut e.toList).blocks, s.Fits b.kept := by
  obtain ⟨-, rfl⟩ := s.transform_eq_ok.mp h
  rw [String.toList_ofList, lexemes_normalize, Substitution.rewrite, rewrite_eq_text]
  have hfound := lexemes_text_iff id (s.pattern.cut e.toList) fun b hb => by
    obtain ⟨rest, hm⟩ := matches_of_block hb
    exact Substitution.closed_of_matches hs hm
  have hwritten := lexemes_text_iff s.replacement (s.pattern.cut e.toList) fun b _ =>
    Substitution.closed_replacement hs b.found
  rw [s.solid.text_cut] at hfound
  rw [hfound, hwritten, ← forall₂_and]
  refine forall₂_congr fun b hb => ?_
  obtain ⟨rest, hm⟩ := matches_of_block hb
  exact Substitution.parted_iff_fits hs hm b.kept

/-- A space between a command and the reward keeps them apart. -/
theorem lexemes_of_spaced_reward :
    lexemes "\\gamma r(s)".toList =
      blockLexemes (fun _ => "r(s)".toList)
        (rewardPattern.cut "\\gamma \\mathbb\x7bE\x7d[R_\x7bt+1\x7d\\mid S_t=s]".toList) := by
  have hrun : defineReward.transform "\\gamma \\mathbb\x7bE\x7d[R_\x7bt+1\x7d\\mid S_t=s]" =
      .ok "\\gamma r(s)" := by
    decide
  exact ((lexemes_replaced_iff (s := .reward) (by decide) hrun).mpr (by decide)).2

/-- Behind a command the expected reward makes another command of it, and the value is found
inside of a command. -/
theorem lexemes_glued :
    (defineReward.transform "\\gamma\\mathbb\x7bE\x7d[R_\x7bt+1\x7d\\mid S_t=s]" =
        .ok "\\gammar(s)" ∧
      lexemes "\\gammar(s)".toList = .command "gammar".toList :: lexemes "(s)".toList ∧
      lexemes "\\gammar(s)".toList ≠ blockLexemes (fun _ => "r(s)".toList)
        (rewardPattern.cut "\\gamma\\mathbb\x7bE\x7d[R_\x7bt+1\x7d\\mid S_t=s]".toList)) ∧
    defValue.transform "\\nuv(s)" = .ok "\\nu\\mathbb\x7bE\x7d[G_t\\mid S_t=s]" ∧
      lexemes "\\nuv(s)".toList = .command "nuv".toList :: lexemes "(s)".toList ∧
      lexemes "\\nuv(s)".toList ≠ blockLexemes id (valuePattern.cut "\\nuv(s)".toList) := by
  decide

end Bellman.Catalog
