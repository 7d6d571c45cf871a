import Bellman.Proofs.Rule.Potential
import Bellman.Proofs.Rule.Written

/-!
# Expressions that block linearity

Splitting an expectation under a condition that is not the one on the present state leaves
the expected reward under this condition behind, which no rule ever rewrites. Linearity looks
at the first expectation only, so from then on it gets at nothing behind that, and in front
of it there are only expectations that rules have written themselves. Splitting one of these
is a move. So a blocked expression stays blocked, whatever rules do.
-/

namespace Bellman.Catalog

open Text Pattern

/-- The expected reward, up to its condition. -/
def wall : List Char :=
  Latex.expectation.toList ++ (Latex.nextReward.toList ++ Latex.bar.toList)

/-- An expression whose first expectation that is not written by rules is that of the reward,
and not from the present state. -/
inductive Blocked : List Char → Prop where
  | wall {cs : List Char} (other : ¬ "S_t=s]".toList <+: visible cs) : Blocked (wall ++ cs)
  | char (c : Char) {cs : List Char} (kept : ¬ Latex.expectation.toList <+: c :: cs)
      (rest : Blocked cs) : Blocked (c :: cs)
  | written (w : Written) {cs : List Char} (rest : Blocked cs) : Blocked (w.text ++ cs)

namespace Blocked

variable {c : Char} {a cs : List Char}

theorem mem (h : Blocked cs) : '[' ∈ cs := by
  have hwall : '[' ∈ Bellman.Catalog.wall := by decide
  induction h with
  | wall other => exact List.mem_append_left _ hwall
  | char c kept rest ih => exact List.mem_cons_of_mem c ih
  | written w rest ih => exact List.mem_append_right _ ih

theorem append_of_avoids (avoids : Avoids Latex.expectation.toList a) (h : Blocked cs) :
    Blocked (a ++ cs) := by
  induction a with
  | nil => exact h
  | cons c a ih =>
      refine .char c (fun hp => ?_) (ih avoids.2)
      exact avoids.1 (agree_of_prefix_append (g := c :: a) hp)

/-- A character at which no expectation opens does not matter. -/
theorem tail (kept : ¬ Latex.expectation.toList <+: c :: cs) (h : Blocked (c :: cs)) :
    Blocked cs := by
  generalize he : c :: cs = e at h
  cases h with
  | wall other =>
      refine absurd ?_ kept
      rw [he, Bellman.Catalog.wall, List.append_assoc]
      exact List.prefix_append _ _
  | char d _ rest =>
      obtain ⟨rfl, rfl⟩ := List.cons.inj he
      exact rest
  | written w rest =>
      refine absurd ?_ kept
      rw [he, w.text_eq, List.append_assoc]
      exact List.prefix_append _ _

theorem of_append (avoids : Avoids Latex.expectation.toList a) (h : Blocked (a ++ cs)) :
    Blocked cs := by
  induction a with
  | nil => exact h
  | cons c a ih =>
      refine ih avoids.2 (h.tail fun hp => ?_)
      exact avoids.1 (agree_of_prefix_append (g := c :: a) hp)

theorem firm_wall : Firm Bellman.Catalog.wall := by
  decide

private theorem visible_wall : visible Bellman.Catalog.wall = Bellman.Catalog.wall := by
  decide

theorem opening_visible : ∀ c ∈ Latex.expectation.toList, isBlank c = false := by
  have hall : Latex.expectation.toList.all (isBlank · = false) := by decide
  simpa using hall

theorem collapse (h : Blocked cs) : Blocked (Text.collapse cs) := by
  induction h with
  | wall other =>
      rw [firm_wall.collapse_append]
      exact .wall (by rwa [visible_collapse])
  | @char c cs kept rest ih =>
      have hkept : ¬ Latex.expectation.toList <+: Text.collapse (c :: cs) := by
        intro hp
        exact kept (prefix_of_collapse opening_visible hp)
      obtain heq | ⟨d, heq⟩ := collapse_cons_cases c cs
      · rwa [heq]
      · rw [heq] at hkept ⊢
        exact .char d hkept ih
  | written w rest ih =>
      rw [w.firm.collapse_append]
      exact .written w ih

theorem trimLeft (h : Blocked cs) : Blocked (Text.trimLeft cs) := by
  refine of_append (a := cs.takeWhile isBlank) ?_ (by rwa [Text.trimLeft,
    List.takeWhile_append_dropWhile])
  have hblank : visible (cs.takeWhile isBlank) = [] :=
    visible_eq_nil.mpr fun _ hc => List.mem_takeWhile_imp hc
  refine Avoids.of_visible (by decide) opening_visible ?_
  rw [hblank]
  trivial

/-- Nothing is trimmed at the right of a character before what stays. -/
private theorem trimRight_cons (h : Blocked cs) :
    Text.trimRight (c :: cs) = c :: Text.trimRight cs := by
  have hfirm : ∃ a t b, cs = a ++ (t ++ b) ∧ Firm t := by
    induction h with
    | wall other => exact ⟨[], _, _, rfl, firm_wall⟩
    | char d kept rest ih =>
        obtain ⟨a, t, b, rfl, ht⟩ := ih
        exact ⟨d :: a, t, b, rfl, ht⟩
    | written w rest ih => exact ⟨[], _, _, rfl, w.firm⟩
  obtain ⟨a, t, b, rfl, ht⟩ := hfirm
  rw [← List.cons_append, trimRight_around ht, trimRight_around ht]
  rfl

theorem trimRight (h : Blocked cs) : Blocked (Text.trimRight cs) := by
  induction h with
  | wall other =>
      rw [firm_wall.trimRight_append]
      exact .wall (by rwa [visible_trimRight])
  | @char c cs kept rest ih =>
      rw [rest.trimRight_cons]
      refine .char c (fun hp => kept (hp.trans ?_)) ih
      exact List.cons_prefix_cons.mpr ⟨rfl, List.rdropWhile_prefix isBlank cs⟩
  | written w rest ih =>
      rw [w.firm.trimRight_append]
      exact .written w ih

theorem normalize (h : Blocked cs) : Blocked (Text.normalize cs) :=
  h.collapse.trimLeft.trimRight

theorem append_afterText (s : Substitution) (w : Written) (h : Blocked cs) :
    Blocked (w.afterText s ++ cs) := by
  have havoids : ∀ s ∈ Substitution.all, ∀ w ∈ Written.all,
      Avoids Latex.expectation.toList (w.after s).1 := by
    decide
  rw [Written.afterText, List.append_assoc]
  refine append_of_avoids (havoids s s.mem_all w w.mem_all) ?_
  cases (w.after s).2 with
  | none => exact h
  | some w' => exact .written w' h

end Blocked

namespace Substitution

variable {m rest cs : List Char}

/-- Rewriting makes no beginning out of characters with which no replacement begins. -/
private theorem prefix_of_rewrite (s : Substitution) {w : List Char} (hw : heads.all (· ∉ w))
    (h : w <+: s.rewrite cs) : w <+: cs := by
  obtain ⟨n, hn, -⟩ := s.solid.replaces_rewrite s.replacement cs
  refine hn.prefix_of ?_ h
  rintro f g ⟨-, -, rfl⟩
  obtain ⟨c, hmem, hhead⟩ := s.head_replacement f
  exact ⟨c, hhead, of_decide_eq_true (List.all_eq_true.mp hw c hmem)⟩

private theorem prefix_of_visible_rewrite (s : Substitution) {w : List Char}
    (hw : heads.all (· ∉ w)) (h : w <+: visible (s.rewrite cs)) : w <+: visible cs := by
  obtain ⟨n, hn, -⟩ := s.solid.replaces_rewrite s.replacement cs
  have hvisible := hn.visible (Q := fun _ g => ∃ c ∈ heads, g.head? = some c) (by
    rintro f g ⟨-, -, rfl⟩
    obtain ⟨c, hmem, hhead⟩ := s.head_replacement f
    obtain ⟨tail, htail⟩ := List.head?_eq_some_iff.mp hhead
    exact ⟨c, hmem, by simp [htail, visible_cons, isBlank_of_mem_heads hmem]⟩)
  refine hvisible.prefix_of ?_ h
  rintro f g ⟨c, hmem, hhead⟩
  exact ⟨c, hhead, of_decide_eq_true (List.all_eq_true.mp hw c hmem)⟩

/-- What is found is an expectation, or it holds none and what is put in its place leaves
blocked what is blocked behind it. -/
private theorem found_cases (s : Substitution) (h : s.pattern.Matches m rest) :
    Latex.expectation.toList <+: m ∨
      Avoids Latex.expectation.toList m ∧ ∀ cs, Blocked cs → Blocked (s.replacement m ++ cs) := by
  have havoids : ∀ s ∈ [expectedReturn, series, recursion, unrolled], ∀ f ∈ s.pattern.forms,
      Avoids Latex.expectation.toList f := by
    decide
  have hfree (hs : s ∈ [expectedReturn, series, recursion, unrolled]) :
      Avoids Latex.expectation.toList m :=
    Avoids.of_visible (by decide) Blocked.opening_visible
      (havoids s hs _ (visible_mem_forms h))
  have hplain : ∀ s ∈ [series, recursion, unrolled],
      Avoids Latex.expectation.toList (s.replacement []) := by
    decide
  cases s with
  | expectedReturn =>
      have htext : replacement .expectedReturn [] = Written.ofReturn.text := by decide
      refine .inr ⟨hfree (by decide), fun cs hcs => ?_⟩
      change Blocked (replacement .expectedReturn [] ++ cs)
      rw [htext]
      exact .written .ofReturn hcs
  | series =>
      exact .inr ⟨hfree (by decide), fun _ hcs => hcs.append_of_avoids (hplain .series (by decide))⟩
  | recursion =>
      exact .inr
        ⟨hfree (by decide), fun _ hcs => hcs.append_of_avoids (hplain .recursion (by decide))⟩
  | unrolled =>
      exact .inr
        ⟨hfree (by decide), fun _ hcs => hcs.append_of_avoids (hplain .unrolled (by decide))⟩
  | reward =>
      obtain ⟨a, b, rfl, rfl, -⟩ := h
      exact .inl (List.prefix_append _ _)
  | nextState | nextValue =>
      obtain ⟨-, d, rfl, ⟨a, b, rfl, rfl, -⟩, -⟩ := h
      exact .inl ((List.prefix_append _ _).trans (List.prefix_append _ _))

/-- The wall falls under no substitution. -/
private theorem rewrite_wall (s : Substitution) (other : ¬ "S_t=s]".toList <+: visible cs) :
    s.rewrite (wall ++ cs) = wall ++ s.rewrite cs := by
  have hforms : ∀ s ∈ all, ∀ f ∈ s.pattern.forms,
      (Agree f wall → f = wall ++ "S_t=s]".toList) ∧ Avoids f (visible wall.tail) := by
    decide
  have hwall : wall = '\\' :: wall.tail := by decide
  have hnone : s.pattern.read? (wall ++ cs) = none := by
    by_contra hread
    obtain ⟨⟨m, rest⟩, hread⟩ := Option.ne_none_iff_exists'.mp hread
    obtain ⟨f, hf, hprefix⟩ := exists_form_of_read? hread
    rw [visible_append, Blocked.visible_wall] at hprefix
    have heq := (hforms s s.mem_all f hf).1 (agree_of_prefix_append hprefix)
    rw [heq] at hprefix
    exact other ((List.prefix_append_right_inj wall).mp hprefix)
  rw [hwall, List.cons_append] at hnone ⊢
  rw [Substitution.rewrite, rewrite_cons hnone, s.solid.rewrite_append_of_avoids fun f hf =>
    (hforms s s.mem_all f hf).2]
  rfl

end Substitution

namespace Blocked

variable {cs : List Char}

/-- Substituting leaves a blocked expression blocked. -/
theorem rewrite (s : Substitution) (h : Blocked cs) : Blocked (s.rewrite cs) := by
  induction hlength : cs.length using Nat.strong_induction_on generalizing cs with
  | h length ih =>
      cases h with
      | @wall cs other =>
          rw [s.rewrite_wall other]
          exact .wall fun hp => other (s.prefix_of_visible_rewrite (by decide) hp)
      | @char c cs kept rest =>
          rw [List.length_cons] at hlength
          cases hread : s.pattern.read? (c :: cs) with
          | none =>
              have hrest := ih cs.length (by omega) rest rfl
              rw [Substitution.rewrite, rewrite_cons hread]
              refine .char c (fun hp => kept ?_) hrest
              obtain ⟨hc, hp⟩ := List.cons_prefix_cons.mp hp
              exact List.cons_prefix_cons.mpr ⟨hc, s.prefix_of_rewrite (by decide) hp⟩
          | some found =>
              obtain ⟨m, tail⟩ := found
              obtain ⟨hm, hcs, hmatches⟩ := s.solid.of_read? hread
              have hopen : ¬ Latex.expectation.toList <+: m := by
                intro hp
                exact kept (hcs ▸ hp.trans (List.prefix_append m tail))
              obtain ⟨havoids, hreplaced⟩ := (s.found_cases hmatches).resolve_left hopen
              have hblocked : Blocked (c :: cs) := .char c kept rest
              rw [hcs] at hread hblocked ⊢
              have hpos : 0 < m.length := List.length_pos_iff.mpr hm
              have htotal : (c :: cs).length = m.length + tail.length := by simp [hcs]
              rw [List.length_cons] at htotal
              have htail := ih tail.length (by omega) (of_append havoids hblocked) rfl
              rw [Substitution.rewrite, rewrite_append hm hread]
              exact hreplaced _ htail
      | @written w cs rest =>
          have hpos : 0 < w.text.length := by
            obtain ⟨c, ds, htext, -⟩ := w.firm.exists_eq_cons
            simp [htext]
          rw [List.length_append] at hlength
          rw [w.rewrite_text_append]
          exact append_afterText s w (ih cs.length (by omega) rest rfl)

/-- An expectation before the wall is split under the condition on the present state. -/
theorem of_splitAs {before inside condition after summand : List Char} (h : Blocked cs)
    (hsplit : SplitAs cs before inside condition after summand) :
    visible condition = "S_t=s".toList ∧
      Blocked (before ++ (splitText condition summand ++ after)) := by
  induction h generalizing before with
  | wall other =>
      rw [Bellman.Catalog.wall, List.append_assoc, List.append_assoc] at hsplit
      obtain ⟨-, rfl, -⟩ := hsplit.of_opening (by decide)
      have hnone : discounted? (trim Latex.nextReward.toList) = none := by decide
      rw [hsplit.discounted] at hnone
      cases hnone
  | @char c cs kept rest ih =>
      obtain ⟨before, rfl, hlater⟩ := hsplit.of_cons kept
      obtain ⟨hcondition, hblocked⟩ := ih hlater
      refine ⟨hcondition, .char c (fun hp => kept ?_) hblocked⟩
      -- The expectation that is split opens where the one that is written does.
      obtain ⟨tail, htail⟩ := exists_splitText_eq condition summand
      rw [htail, List.append_assoc] at hp
      rw [hlater.eq]
      exact prefix_append_swap (a := c :: before) (Nat.le_refl _) hp _
  | @written w cs rest ih =>
      have hsign : Avoids Latex.expectation.toList Written.sign := by decide
      obtain ⟨w', hcondition, hwritten⟩ := Written.of_splitAs hsplit
      refine ⟨hcondition, ?_⟩
      rw [hwritten]
      exact .written .ofReward ((Blocked.written w' rest).append_of_avoids hsign)

end Blocked

/-- What stands before the first expectation has none. -/
private theorem blocked_before {before rest tail : List Char}
    (h : splitAt? Latex.expectation.toList (before ++ (Latex.expectation.toList ++ rest)) =
      some (before, rest))
    (hblocked : Blocked (Latex.expectation.toList ++ tail)) :
    Blocked (before ++ (Latex.expectation.toList ++ tail)) := by
  induction before with
  | nil => exact hblocked
  | cons c before ih =>
      have kept : ¬ Latex.expectation.toList <+:
          c :: (before ++ (Latex.expectation.toList ++ rest)) := by
        intro hp
        rw [List.cons_append, splitAt?, if_pos (List.isPrefixOf_iff_prefix.mpr hp)] at h
        cases (Prod.mk.inj (Option.some.inj h)).1
      rw [List.cons_append, splitAt?_cons kept, Option.map_eq_some_iff] at h
      obtain ⟨⟨b, a⟩, hb, heq⟩ := h
      obtain ⟨hbefore, rfl⟩ := Prod.mk.inj heq
      obtain rfl := (List.cons.inj hbefore).2
      refine .char c (fun hp => kept ?_) (ih hb)
      exact prefix_append_swap (a := c :: b) (Nat.le_refl _) hp _

/-- Splitting under any other condition blocks an expression. -/
theorem SplitAs.blocked {e before inside condition after summand : List Char}
    (h : SplitAs e before inside condition after summand)
    (hcondition : visible condition ≠ "S_t=s".toList) :
    Blocked (before ++ (splitText condition summand ++ after)) := by
  obtain ⟨rest, hrest⟩ := exists_splitText_eq condition summand
  have hopening := h.opening
  rw [h.eq] at hopening
  rw [hrest, List.append_assoc]
  refine blocked_before hopening ?_
  have hwall : Blocked (wall ++ (" ".toList ++ (trim condition ++ ("]".toList ++
      (rest ++ after))))) := by
    refine .wall fun hp => hcondition ?_
    -- The bracket is the first one in either text.
    have hspace : visible " ".toList = [] := by decide
    have hbracket : visible "]".toList = [']'] := by decide
    rw [visible_append, visible_append, visible_append, visible_trim, hspace, hbracket] at hp
    obtain ⟨tail, htail⟩ := hp
    have hnot : ']' ∉ visible condition := fun hmem =>
      h.closing_not_mem (mem_visible.mp hmem).1
    have hbefore : ']' ∉ "S_t=s".toList := by decide
    exact (eq_of_first hbefore hnot htail).1.symm
  simpa [wall] using hwall

end Bellman.Catalog
