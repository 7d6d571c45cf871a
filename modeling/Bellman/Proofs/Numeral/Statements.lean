import Bellman.Proofs.Numeral.Marks
import Mathlib.Order.Lattice.Nat

/-!
# Tokens, brackets and statements

The marks of a text become tokens and the tokens statements, and brackets are kept all the
way: a line break outside brackets ends a token and a statement alike. So the statements of
joined lines are those of the lines, one after another.
-/

namespace Bellman.Numeral

open Text

variable {c : Char} {cs bs : List Char} {depth : ℕ} {ms ns : List Mark} {ts us : List Token}

/-- The open brackets after a token. -/
def Token.depthAfter (depth : ℕ) : Token → ℕ
  | .opening => depth + 1
  | .closing => depth - 1
  | _ => depth

/-- Nothing is joined across a line break. -/
theorem tokens_append (ms ns : List Mark) :
    tokens (ms ++ .lineBreak :: ns) = tokens ms ++ .lineBreak :: tokens ns := by
  fun_induction tokens ms with
  | case1 => simp [tokens]
  | case2 l ms ih => simp [tokens, ih]
  | case3 ms ih => simp [tokens, ih]
  | case4 ms ih => simp [tokens, ih]
  | case5 ms ih => simp [tokens, ih]
  | case6 ms ih => simp [tokens, ih]
  | case7 name ms ih => simp [tokens, ih]
  | case8 c ms hstars hslashes hpoints hmember ih =>
      rw [List.cons_append, tokens, ih, List.cons_append]
      -- what follows the sign and could be joined with it stands in front of the break
      all_goals rcases ms with _ | ⟨m, _ | ⟨m', ms⟩⟩ <;> simp_all
  | case9 name ms ih => simp [tokens, ih]
  | case10 name ms hbracket ih =>
      rw [List.cons_append, tokens, ih, List.cons_append]
      cases ms <;> simp_all

theorem depthAfter_signToken (depth : ℕ) (c : Char) :
    Token.depthAfter depth (signToken c) = Numeral.depthAfter depth c := by
  unfold signToken Numeral.depthAfter
  split_ifs <;> simp_all [Token.depthAfter]

theorem depthAfter_nameToken (depth : ℕ) (name : List Char) (beforeBracket : Bool) :
    Token.depthAfter depth (nameToken name beforeBracket) = depth := by
  unfold nameToken
  split_ifs <;> rfl

theorem foldl_depthAfter_tokens (ms : List Mark) (depth : ℕ) :
    (tokens ms).foldl Token.depthAfter depth = ms.foldl Mark.depthAfter depth := by
  fun_induction tokens ms generalizing depth with
  | case8 c ms hstars hslashes hpoints hmember ih =>
      simp [ih, depthAfter_signToken, Mark.depthAfter]
  | case9 name ms ih =>
      have hopening : Token.depthAfter depth .opening = depth + 1 := rfl
      simp [ih, depthAfter_nameToken, hopening, Mark.depthAfter, Numeral.depthAfter]
  | case10 name ms hbracket ih => simp [ih, depthAfter_nameToken, Mark.depthAfter]
  | _ => simp_all [Token.depthAfter, Mark.depthAfter, Numeral.depthAfter]

theorem le_deepest (ts : List Token) (depth : ℕ) : depth ≤ deepest depth ts := by
  induction ts with
  | nil => exact le_rfl
  | cons t ts ih => cases t <;> simp [deepest, ih]

theorem deepest_append (ts us : List Token) (depth : ℕ) :
    deepest depth (ts ++ us) =
      max (deepest depth ts) (deepest (ts.foldl Token.depthAfter depth) us) := by
  induction ts generalizing depth with
  | nil => exact (max_eq_right (le_deepest us depth)).symm
  | cons t ts ih => cases t <;> simp [deepest, Token.depthAfter, ih, max_assoc]

theorem statementsFrom_ne_nil (depth : ℕ) (ts : List Token) : statementsFrom depth ts ≠ [] := by
  fun_induction statementsFrom depth ts with
  | case3 depth ts h ih => exact ih
  | _ => simp

/-- A token that is no line break is the first one of its statement. -/
theorem statementsFrom_cons {t : Token} {s : List Token} {ss : List (List Token)}
    (ht : t ≠ .lineBreak) (h : statementsFrom (Token.depthAfter depth t) ts = s :: ss) :
    statementsFrom depth (t :: ts) = (t :: s) :: ss := by
  cases t <;> simp_all [statementsFrom, Token.depthAfter]

theorem statementsFrom_append (h : ts.foldl Token.depthAfter depth = 0) (us : List Token) :
    statementsFrom depth (ts ++ .lineBreak :: us) =
      statementsFrom depth ts ++ statementsFrom 0 us := by
  induction ts generalizing depth with
  | nil =>
      obtain rfl : depth = 0 := h
      rfl
  | cons t ts ih =>
      by_cases ht : t = .lineBreak
      · subst ht
        by_cases hdepth : depth = 0
        · subst hdepth
          simpa [statementsFrom, Token.depthAfter] using ih h
        · simpa [statementsFrom, Token.depthAfter, hdepth] using ih h
      · obtain ⟨s, ss, hs⟩ := List.exists_cons_of_ne_nil
          (statementsFrom_ne_nil (Token.depthAfter depth t) ts)
        have hs' : statementsFrom (Token.depthAfter depth t) (ts ++ .lineBreak :: us) =
            statementsFrom (Token.depthAfter depth t) ts ++ statementsFrom 0 us := ih h
        rw [hs, List.cons_append] at hs'
        rw [List.cons_append, statementsFrom_cons ht hs', statementsFrom_cons ht hs,
          List.cons_append]

theorem statements_append (h : ts.foldl Token.depthAfter 0 = 0) (us : List Token) :
    statements (ts ++ .lineBreak :: us) = statements ts ++ statements us := by
  rw [statements, statementsFrom_append h, List.filter_append]
  rfl

/-- The statements of a text and of the lines after it stand side by side. -/
theorem readStatements_append (h : cs.foldl depthAfter 0 = 0) (bs : List Char) :
    readStatements (cs ++ '\n' :: bs) =
      (readStatements cs).bind fun ss =>
        if isIndented 0 bs then none else (readStatements bs).map (ss ++ ·) := by
  simp only [readStatements, marks_append h]
  cases hms : marks cs with
  | none => rfl
  | some ms =>
      have hdepth : (tokens ms).foldl Token.depthAfter 0 = 0 := by
        rw [foldl_depthAfter_tokens, foldl_depthAfter_of_marksFrom hms, h]
      by_cases hindent : isIndented 0 bs = true
      · simp [hindent]
      cases hns : marks bs with
      | none => simp [hindent]
      | some ns =>
          have hdeepest : deepest 0 (tokens ms ++ .lineBreak :: tokens ns) =
              max (deepest 0 (tokens ms)) (deepest 0 (tokens ns)) := by
            rw [deepest_append, hdepth]
            rfl
          by_cases hlimit : deepest 0 (tokens ms) ≤ nestingLimit <;>
            by_cases hlimit' : deepest 0 (tokens ns) ≤ nestingLimit <;>
            simp [hindent, tokens_append, hdeepest, hlimit, hlimit', statements_append hdepth]

/-- Marks that begin with no line break make tokens that do not. -/
theorem exists_tokens_cons {m : Mark} (hm : m ≠ .lineBreak) (ms : List Mark) :
    ∃ t ts, tokens (m :: ms) = t :: ts ∧ t ≠ .lineBreak := by
  have hname (name : List Char) (beforeBracket : Bool) :
      nameToken name beforeBracket ≠ .lineBreak := by
    unfold nameToken
    split_ifs <;> nofun
  have hsign (c : Char) : signToken c ≠ .lineBreak := by
    unfold signToken
    split_ifs <;> nofun
  generalize h : m :: ms = ns
  fun_cases tokens ns <;> simp_all

/-- A text that does not begin with a blank has a first statement. -/
theorem statements_ne_nil (hc : isBlank c = false) {ss : List (List Token)}
    (h : readStatements (c :: cs) = some ss) : ss ≠ [] := by
  rw [readStatements] at h
  cases hms : marks (c :: cs) with
  | none => simp [hms] at h
  | some ms =>
      rw [marks, List.length_cons, marksFrom_succ] at hms
      obtain ⟨⟨first, rest⟩, hnext, hrest⟩ := Option.bind_eq_some_iff.mp hms
      obtain ⟨others, -, rfl⟩ := Option.map_eq_some_iff.mp hrest
      obtain ⟨m, ns, rfl, hm⟩ := nextMarks_of_not_isBlank hc hnext
      obtain ⟨t, ts, hts, ht⟩ := exists_tokens_cons hm (ns ++ others)
      obtain ⟨s, us, hs⟩ := List.exists_cons_of_ne_nil
        (statementsFrom_ne_nil (Token.depthAfter 0 t) ts)
      have hstatements := statementsFrom_cons ht hs
      have hmarks : marks (c :: cs) = some (m :: ns ++ others) := by
        rw [marks, List.length_cons, marksFrom_succ, hms]
      simp only [hmarks, List.cons_append, hts] at h
      split_ifs at h
      cases h
      simp [statements, hstatements]

end Bellman.Numeral
