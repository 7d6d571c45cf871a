import Bellman.Numeral.Token
import Bellman.Text.Blank
import Mathlib.Data.List.TakeWhile

/-!
# One mark at a time

The marks of a text are found one after another, and each step looks at one character, at
what the mark takes of the rest, and at nothing else. What holds of a step therefore holds
of a text by induction: that more steps than characters change nothing, that marks open
and close the brackets of the text, and that a line break ends what came before it.
-/

namespace Bellman.Numeral

open Text (digitLimit)

variable {c : Char} {cs bs rest : List Char} {depth m n : ℕ} {ms ns : List Mark}

/-! ## A step -/

/-- The open brackets after a character. -/
def depthAfter (depth : ℕ) (c : Char) : ℕ :=
  if c = '(' then depth + 1 else if c = ')' then depth - 1 else depth

/-- The open brackets after a mark. -/
def Mark.depthAfter (depth : ℕ) : Mark → ℕ
  | .sign c => Numeral.depthAfter depth c
  | _ => depth

/-- What the first character of a text begins, and the text that follows it. -/
def nextMarks (depth : ℕ) (c : Char) (cs : List Char) : Option (List Mark × List Char) :=
  if isGap c then some ([], cs)
  else if c = '\n' then
    if depth = 0 && isIndented 0 cs then none else some ([.lineBreak], cs)
  else if c = '\r' then some ([.lineBreak], cs)
  else if c.isDigit || (c == '.' && cs.head?.any Char.isDigit) then
    let (l, rest) := readLiteral (c :: cs)
    if l.isWhole && decide (digitLimit < l.whole.length) then none
    else some ([.literal l], rest)
  else if isNameChar c then
    some ([.name (c :: cs.takeWhile isNameChar)], cs.dropWhile isNameChar)
  else if c = '^' then some ([.sign '*', .sign '*'], cs)
  else if isSign c then some ([.sign c], cs)
  else none

/-- The marks of a text are those of its first character and those of what follows. -/
theorem marksFrom_succ (n depth : ℕ) (c : Char) (cs : List Char) :
    marksFrom (n + 1) depth (c :: cs) =
      (nextMarks depth c cs).bind fun (ms, rest) =>
        (marksFrom n (ms.foldl Mark.depthAfter depth) rest).map (ms ++ ·) := by
  rw [marksFrom, nextMarks]
  by_cases hgap : isGap c = true
  · simp [hgap]
  rw [if_neg hgap, if_neg hgap]
  by_cases hnewline : c = '\n'
  · rw [if_pos hnewline, if_pos hnewline]
    split_ifs <;> rfl
  rw [if_neg hnewline, if_neg hnewline]
  by_cases hreturn : c = '\r'
  · rw [if_pos hreturn, if_pos hreturn]
    rfl
  rw [if_neg hreturn, if_neg hreturn]
  by_cases hliteral : (c.isDigit || (c == '.' && cs.head?.any Char.isDigit)) = true
  · rw [if_pos hliteral, if_pos hliteral]
    obtain ⟨l, rest⟩ := readLiteral (c :: cs)
    dsimp only
    split_ifs <;> rfl
  rw [if_neg hliteral, if_neg hliteral]
  by_cases hname : isNameChar c = true
  · rw [if_pos hname, if_pos hname]
    rfl
  rw [if_neg hname, if_neg hname]
  by_cases hcaret : c = '^'
  · rw [if_pos hcaret, if_pos hcaret]
    rfl
  rw [if_neg hcaret, if_neg hcaret]
  by_cases hopening : c = '('
  · subst hopening
    rfl
  by_cases hclosing : c = ')'
  · subst hclosing
    rfl
  rw [if_neg hopening, if_neg hclosing]
  by_cases hsign : isSign c = true
  · simp [hsign, hopening, hclosing, Mark.depthAfter, depthAfter]
  · simp [hsign]

/-! ## A line break ends what came before it -/

section Runs

variable {α : Type} {p : α → Bool} {xs ys : List α}

theorem takeWhile_append_of_head (h : ∀ y ∈ ys.head?, p y = false) :
    (xs ++ ys).takeWhile p = xs.takeWhile p := by
  induction xs with
  | nil =>
      cases ys with
      | nil => rfl
      | cons y ys => simp [h y rfl]
  | cons x xs ih => by_cases hx : p x = true <;> simp [hx, ih]

theorem dropWhile_append_of_head (h : ∀ y ∈ ys.head?, p y = false) :
    (xs ++ ys).dropWhile p = xs.dropWhile p ++ ys := by
  induction xs with
  | nil =>
      cases ys with
      | nil => rfl
      | cons y ys => simp [h y rfl]
  | cons x xs ih => by_cases hx : p x = true <;> simp [hx, ih]

end Runs

theorem takeWhile_append_newline {p : Char → Bool} (h : p '\n' = false) :
    (cs ++ '\n' :: bs).takeWhile p = cs.takeWhile p :=
  takeWhile_append_of_head (by simpa using h)

theorem dropWhile_append_newline {p : Char → Bool} (h : p '\n' = false) :
    (cs ++ '\n' :: bs).dropWhile p = cs.dropWhile p ++ '\n' :: bs :=
  dropWhile_append_of_head (by simpa using h)

/-- The digits of an exponent whose sign has been read. -/
def exponentDigits (negative : Bool) (cs : List Char) : Option ((Bool × List Char) × List Char) :=
  if (cs.takeWhile Char.isDigit).isEmpty then none
  else some ((negative, cs.takeWhile Char.isDigit), cs.dropWhile Char.isDigit)

theorem readExponent_minus (h : c = 'e' ∨ c = 'E') (cs : List Char) :
    readExponent (c :: '-' :: cs) = exponentDigits true cs := by
  simp only [readExponent, if_pos h]
  rfl

theorem readExponent_plus (h : c = 'e' ∨ c = 'E') (cs : List Char) :
    readExponent (c :: '+' :: cs) = exponentDigits false cs := by
  simp only [readExponent, if_pos h]
  rfl

theorem readExponent_unsigned (h : c = 'e' ∨ c = 'E') (hminus : cs.head? ≠ some '-')
    (hplus : cs.head? ≠ some '+') : readExponent (c :: cs) = exponentDigits false cs := by
  simp only [readExponent, if_pos h]
  split
  · simp at hminus
  · simp at hplus
  · rfl

theorem readExponent_eq_none (h : ∀ c ∈ cs.head?, c ≠ 'e' ∧ c ≠ 'E') : readExponent cs = none := by
  cases cs with
  | nil => rfl
  | cons c cs => simp only [readExponent, if_neg (not_or.mpr (h c rfl))]

theorem exponentDigits_append (negative : Bool) (cs bs : List Char) :
    exponentDigits negative (cs ++ '\n' :: bs) =
      (exponentDigits negative cs).map (Prod.map id (· ++ '\n' :: bs)) := by
  simp only [exponentDigits, takeWhile_append_newline (p := Char.isDigit) rfl,
    dropWhile_append_newline (p := Char.isDigit) rfl]
  split_ifs <;> rfl

theorem readExponent_append (cs bs : List Char) :
    readExponent (cs ++ '\n' :: bs) =
      (readExponent cs).map (Prod.map id (· ++ '\n' :: bs)) := by
  cases cs with
  | nil => rfl
  | cons c cs =>
      by_cases he : c = 'e' ∨ c = 'E'
      · by_cases hminus : cs.head? = some '-'
        · obtain ⟨r, rfl⟩ := List.head?_eq_some_iff.mp hminus
          simp only [List.cons_append, readExponent_minus he, exponentDigits_append]
        by_cases hplus : cs.head? = some '+'
        · obtain ⟨r, rfl⟩ := List.head?_eq_some_iff.mp hplus
          simp only [List.cons_append, readExponent_plus he, exponentDigits_append]
        have hhead (d : Char) (h : cs.head? ≠ some d) (hd : d ≠ '\n') :
            (cs ++ '\n' :: bs).head? ≠ some d := by
          cases cs <;> simp_all [eq_comm]
        rw [List.cons_append, readExponent_unsigned he hminus hplus,
          readExponent_unsigned he (hhead '-' hminus (by decide)) (hhead '+' hplus (by decide)),
          exponentDigits_append]
      · have hnone (r : List Char) : readExponent (c :: r) = none :=
          readExponent_eq_none (by simpa using not_or.mp he)
        rw [List.cons_append, hnone, hnone]
        rfl

theorem withExponent_append (whole : List Char) (fraction : Option (List Char))
    (cs bs : List Char) :
    withExponent whole fraction (cs ++ '\n' :: bs) =
      Prod.map id (· ++ '\n' :: bs) (withExponent whole fraction cs) := by
  rw [withExponent, withExponent, readExponent_append]
  cases readExponent cs <;> rfl

theorem readLiteral_of_point (h : cs.dropWhile Char.isDigit = '.' :: rest) :
    readLiteral cs = withExponent (cs.takeWhile Char.isDigit)
      (some (rest.takeWhile Char.isDigit)) (rest.dropWhile Char.isDigit) := by
  simp only [readLiteral, h]

theorem readLiteral_of_exponent {e : Bool × List Char}
    (hpoint : (cs.dropWhile Char.isDigit).head? ≠ some '.')
    (h : readExponent (cs.dropWhile Char.isDigit) = some (e, rest)) :
    readLiteral cs = (⟨cs.takeWhile Char.isDigit, none, some e⟩, rest) := by
  simp only [readLiteral]
  split
  · simp_all
  · rw [h]

theorem readLiteral_of_whole (hpoint : (cs.dropWhile Char.isDigit).head? ≠ some '.')
    (h : readExponent (cs.dropWhile Char.isDigit) = none) :
    readLiteral cs =
      if (cs.takeWhile Char.isDigit).head? = some '0' then
        (⟨(cs.takeWhile Char.isDigit).takeWhile (· == '0'), none, none⟩,
          (cs.takeWhile Char.isDigit).dropWhile (· == '0') ++ cs.dropWhile Char.isDigit)
      else (⟨cs.takeWhile Char.isDigit, none, none⟩, cs.dropWhile Char.isDigit) := by
  simp only [readLiteral]
  split
  · simp_all
  · rw [h]

theorem readLiteral_append (cs bs : List Char) :
    readLiteral (cs ++ '\n' :: bs) = Prod.map id (· ++ '\n' :: bs) (readLiteral cs) := by
  have htake : (cs ++ '\n' :: bs).takeWhile Char.isDigit = cs.takeWhile Char.isDigit :=
    takeWhile_append_newline rfl
  have hdrop : (cs ++ '\n' :: bs).dropWhile Char.isDigit =
      cs.dropWhile Char.isDigit ++ '\n' :: bs :=
    dropWhile_append_newline rfl
  by_cases hpoint : (cs.dropWhile Char.isDigit).head? = some '.'
  · obtain ⟨r, hr⟩ := List.head?_eq_some_iff.mp hpoint
    have hr' : (cs ++ '\n' :: bs).dropWhile Char.isDigit = '.' :: (r ++ '\n' :: bs) := by
      rw [hdrop, hr, List.cons_append]
    rw [readLiteral_of_point hr, readLiteral_of_point hr', htake,
      takeWhile_append_newline rfl, dropWhile_append_newline rfl, withExponent_append]
  · have hpoint' : ((cs ++ '\n' :: bs).dropWhile Char.isDigit).head? ≠ some '.' := by
      rw [hdrop]
      cases h : cs.dropWhile Char.isDigit <;> simp_all
    have hexponent := readExponent_append (cs.dropWhile Char.isDigit) bs
    rw [← hdrop] at hexponent
    cases h : readExponent (cs.dropWhile Char.isDigit) with
    | some r =>
        rw [h] at hexponent
        rw [readLiteral_of_exponent hpoint h, readLiteral_of_exponent hpoint' hexponent, htake]
        rfl
    | none =>
        rw [h] at hexponent
        rw [readLiteral_of_whole hpoint h, readLiteral_of_whole hpoint' hexponent, htake, hdrop]
        split_ifs
        · simp [Prod.map]
        · rfl

theorem isIndented_of_ne (column : ℕ) (hspace : c ≠ ' ') (htab : c ≠ '\t') (hfeed : c ≠ '\x0c')
    (hnewline : c ≠ '\n') (hreturn : c ≠ '\r') (cs : List Char) :
    isIndented column (c :: cs) = (column != 0) := by
  simp [isIndented, hspace, htab, hfeed, hnewline, hreturn]

theorem isIndented_append (column : ℕ) (cs bs : List Char) :
    isIndented column (cs ++ '\n' :: bs) = isIndented column cs := by
  fun_induction isIndented column cs with
  | case7 t column hspace htab hfeed hnewline hreturn hnil =>
      cases t with
      | nil => exact absurd rfl hnil
      | cons c cs =>
          refine isIndented_of_ne column ?_ ?_ ?_ ?_ ?_ (cs ++ '\n' :: bs) <;> rintro rfl
          exacts [hspace cs rfl, htab cs rfl, hfeed cs rfl, hnewline cs rfl, hreturn cs rfl]
  | _ => simp_all [isIndented]

theorem nextMarks_append (depth : ℕ) (c : Char) (cs bs : List Char) :
    nextMarks depth c (cs ++ '\n' :: bs) =
      (nextMarks depth c cs).map (Prod.map id (· ++ '\n' :: bs)) := by
  have hhead : (cs ++ '\n' :: bs).head?.any Char.isDigit = cs.head?.any Char.isDigit := by
    cases cs <;> rfl
  have hliteral : readLiteral (c :: (cs ++ '\n' :: bs)) =
      Prod.map id (· ++ '\n' :: bs) (readLiteral (c :: cs)) := readLiteral_append (c :: cs) bs
  simp only [nextMarks, isIndented_append, hhead, hliteral,
    takeWhile_append_newline (p := isNameChar) rfl, dropWhile_append_newline (p := isNameChar) rfl,
    apply_ite (Option.map _), Option.map_some, Option.map_none, Prod.map, id]

/-! ## What a step takes -/

/-- The text begins with characters that are no brackets, and `rest` is what follows. -/
def Takes (cs rest : List Char) : Prop :=
  ∃ taken, cs = taken ++ rest ∧ ∀ c ∈ taken, c ≠ '(' ∧ c ≠ ')'

namespace Takes

theorem refl (cs : List Char) : Takes cs cs :=
  ⟨[], rfl, by simp⟩

theorem trans {xs ys zs : List Char} (h : Takes xs ys) (h' : Takes ys zs) : Takes xs zs := by
  obtain ⟨taken, rfl, htaken⟩ := h
  obtain ⟨taken', rfl, htaken'⟩ := h'
  refine ⟨taken ++ taken', by simp, ?_⟩
  simp only [List.mem_append]
  rintro c (hc | hc)
  · exact htaken c hc
  · exact htaken' c hc

theorem cons (hc : c ≠ '(' ∧ c ≠ ')') (cs : List Char) : Takes (c :: cs) cs :=
  ⟨[c], rfl, by simpa using hc⟩

theorem append {xs ys : List Char} (h : Takes xs ys) (zs : List Char) :
    Takes (xs ++ zs) (ys ++ zs) := by
  obtain ⟨taken, rfl, htaken⟩ := h
  exact ⟨taken, by simp, htaken⟩

theorem dropWhile {p : Char → Bool} (hopening : p '(' = false) (hclosing : p ')' = false)
    (cs : List Char) : Takes cs (cs.dropWhile p) := by
  refine ⟨cs.takeWhile p, (List.takeWhile_append_dropWhile).symm, fun c hc => ?_⟩
  have hp := List.mem_takeWhile_imp hc
  constructor <;> rintro rfl <;> simp_all

theorem length_le (h : Takes cs rest) : rest.length ≤ cs.length := by
  obtain ⟨taken, rfl, -⟩ := h
  simp

theorem foldl_depthAfter (h : Takes cs rest) (depth : ℕ) :
    cs.foldl Numeral.depthAfter depth = rest.foldl Numeral.depthAfter depth := by
  obtain ⟨taken, rfl, htaken⟩ := h
  induction taken with
  | nil => rfl
  | cons c taken ih =>
      obtain ⟨hopening, hclosing⟩ := htaken c (by simp)
      simpa [Numeral.depthAfter, hopening, hclosing] using
        ih fun x hx => htaken x (List.mem_cons_of_mem c hx)

end Takes

theorem readExponent_takes {e : Bool × List Char} (h : readExponent cs = some (e, rest)) :
    Takes cs rest := by
  have hdigits {negative : Bool} {r : List Char} (hr : exponentDigits negative r = some (e, rest)) :
      Takes r rest := by
    rw [exponentDigits] at hr
    split_ifs at hr
    cases hr
    exact .dropWhile rfl rfl r
  cases cs with
  | nil => cases h
  | cons c cs =>
      by_cases he : c = 'e' ∨ c = 'E'
      · have hc : c ≠ '(' ∧ c ≠ ')' := by rcases he with rfl | rfl <;> decide
        refine .trans (.cons hc cs) ?_
        by_cases hminus : cs.head? = some '-'
        · obtain ⟨r, rfl⟩ := List.head?_eq_some_iff.mp hminus
          rw [readExponent_minus he] at h
          exact .trans (.cons (by decide) r) (hdigits h)
        by_cases hplus : cs.head? = some '+'
        · obtain ⟨r, rfl⟩ := List.head?_eq_some_iff.mp hplus
          rw [readExponent_plus he] at h
          exact .trans (.cons (by decide) r) (hdigits h)
        rw [readExponent_unsigned he hminus hplus] at h
        exact hdigits h
      · rw [readExponent_eq_none (by simpa using not_or.mp he)] at h
        cases h

theorem withExponent_takes (whole : List Char) (fraction : Option (List Char)) (cs : List Char) :
    Takes cs (withExponent whole fraction cs).2 := by
  rw [withExponent]
  cases h : readExponent cs with
  | none => exact .refl cs
  | some r => exact readExponent_takes h

/-- A literal takes its first character and no bracket. -/
theorem readLiteral_takes (h : c.isDigit = true ∨ c = '.') (cs : List Char) :
    Takes cs (readLiteral (c :: cs)).2 := by
  rcases h with hdigit | rfl
  · have hdrop : (c :: cs).dropWhile Char.isDigit = cs.dropWhile Char.isDigit := by simp [hdigit]
    have htake : (c :: cs).takeWhile Char.isDigit = c :: cs.takeWhile Char.isDigit := by
      simp [hdigit]
    have hdigits : Takes cs (cs.dropWhile Char.isDigit) := .dropWhile rfl rfl cs
    by_cases hpoint : ((c :: cs).dropWhile Char.isDigit).head? = some '.'
    · obtain ⟨r, hr⟩ := List.head?_eq_some_iff.mp hpoint
      rw [readLiteral_of_point hr]
      rw [← hdrop, hr] at hdigits
      exact hdigits.trans <| .trans (.cons (by decide) r) <|
        .trans (.dropWhile (p := Char.isDigit) rfl rfl r) (withExponent_takes _ _ _)
    cases hexponent : readExponent ((c :: cs).dropWhile Char.isDigit) with
    | some r =>
        rw [readLiteral_of_exponent hpoint hexponent]
        rw [← hdrop] at hdigits
        exact hdigits.trans (readExponent_takes hexponent)
    | none =>
        rw [readLiteral_of_whole hpoint hexponent, htake, hdrop]
        split_ifs with hzero
        · obtain rfl : c = '0' := by simpa using hzero
          have hzeros := Takes.dropWhile (p := (· == '0')) rfl rfl (cs.takeWhile Char.isDigit)
          simpa using hzeros.append (cs.dropWhile Char.isDigit)
        · exact hdigits
  · have hdrop : ('.' :: cs).dropWhile Char.isDigit = '.' :: cs := rfl
    rw [readLiteral_of_point hdrop]
    exact .trans (.dropWhile (p := Char.isDigit) rfl rfl cs) (withExponent_takes _ _ _)

/-- The marks of a step open and close what its first character does, and it takes no other
bracket. -/
theorem nextMarks_spec (h : nextMarks depth c cs = some (ms, rest)) :
    Takes cs rest ∧ ∀ d, ms.foldl Mark.depthAfter d = depthAfter d c := by
  have hkeep (hopening : c ≠ '(') (hclosing : c ≠ ')') (d : ℕ) : depthAfter d c = d := by
    simp [depthAfter, hopening, hclosing]
  rw [nextMarks] at h
  split_ifs at h with hgap hnewline hindent hreturn hliteral hname hcaret hsign
  · cases h
    refine ⟨.refl cs, fun d => (hkeep ?_ ?_ d).symm⟩ <;> rintro rfl <;> cases hgap
  · cases h
    subst hnewline
    exact ⟨.refl cs, fun d => rfl⟩
  · cases h
    subst hreturn
    exact ⟨.refl cs, fun d => rfl⟩
  · have hc : c.isDigit = true ∨ c = '.' ∧ cs.head?.any Char.isDigit = true := by
      simpa using hliteral
    have htakes := readLiteral_takes (hc.imp_right And.left) cs
    split at h
    split_ifs at h with hlong
    cases h
    rename_i l hread
    rw [hread] at htakes
    refine ⟨htakes, fun d => (hkeep ?_ ?_ d).symm⟩ <;> rintro rfl <;> simp at hc
  · cases h
    refine ⟨.dropWhile rfl rfl cs, fun d => (hkeep ?_ ?_ d).symm⟩ <;> rintro rfl <;> cases hname
  · cases h
    subst hcaret
    exact ⟨.refl cs, fun d => rfl⟩
  · cases h
    exact ⟨.refl cs, fun d => rfl⟩

/-- A step at a character that is not blank finds a mark, and no line break. -/
theorem nextMarks_of_not_isBlank (hc : Text.isBlank c = false)
    (h : nextMarks depth c cs = some (ms, rest)) :
    ∃ m ns, ms = m :: ns ∧ m ≠ .lineBreak := by
  have hgap : isGap c = false := by
    refine Bool.eq_false_iff.mpr fun hgap => ?_
    simp only [isGap, Bool.or_eq_true, beq_iff_eq] at hgap
    rcases hgap with (rfl | rfl) | rfl <;> revert hc <;> decide
  have hnewline : c ≠ '\n' := by rintro rfl; revert hc; decide
  have hreturn : c ≠ '\r' := by rintro rfl; revert hc; decide
  rw [nextMarks, if_neg (by simp [hgap]), if_neg hnewline, if_neg hreturn] at h
  split_ifs at h with hliteral hname hcaret hsign
  · split at h
    split_ifs at h
    cases h
    exact ⟨_, _, rfl, nofun⟩
  all_goals
    cases h
    exact ⟨_, _, rfl, nofun⟩

/-! ## The marks of a text -/

/-- More steps than characters change nothing. -/
theorem marksFrom_eq (hm : cs.length ≤ m) (hn : cs.length ≤ n) :
    marksFrom m depth cs = marksFrom n depth cs := by
  induction m generalizing n depth cs with
  | zero =>
      rw [List.length_eq_zero_iff.mp (Nat.le_zero.mp hm)]
      cases n <;> rfl
  | succ m ih =>
      cases cs with
      | nil => cases n <;> rfl
      | cons c cs =>
          obtain ⟨n, rfl⟩ : ∃ k, n = k + 1 := ⟨n - 1, by simp at hn; omega⟩
          rw [marksFrom_succ, marksFrom_succ]
          refine Option.bind_congr fun ⟨ms, rest⟩ hnext => ?_
          have hlen := (nextMarks_spec hnext).1.length_le
          simp only [List.length_cons] at hm hn
          exact congrArg (Option.map _) (ih (by omega) (by omega))

/-- Marks open and close the brackets of their text. -/
theorem foldl_depthAfter_of_marksFrom (h : marksFrom n depth cs = some ms) (d : ℕ) :
    ms.foldl Mark.depthAfter d = cs.foldl depthAfter d := by
  induction n generalizing depth cs ms d with
  | zero =>
      cases cs with
      | nil => cases h; rfl
      | cons c cs => cases h
  | succ n ih =>
      cases cs with
      | nil => cases h; rfl
      | cons c cs =>
          rw [marksFrom_succ] at h
          obtain ⟨⟨first, rest⟩, hnext, hrest⟩ := Option.bind_eq_some_iff.mp h
          obtain ⟨others, hothers, rfl⟩ := Option.map_eq_some_iff.mp hrest
          obtain ⟨htakes, hdepth⟩ := nextMarks_spec hnext
          rw [List.foldl_append, hdepth, ih hothers, List.foldl_cons, htakes.foldl_depthAfter]

/-- A line break outside brackets ends what came before it, and the next line must not be
indented. -/
theorem marksFrom_append (hdepth : cs.foldl depthAfter depth = 0)
    (hn : (cs ++ '\n' :: bs).length ≤ n) :
    marksFrom n depth (cs ++ '\n' :: bs) =
      (marksFrom cs.length depth cs).bind fun ms =>
        if isIndented 0 bs then none else (marks bs).map (ms ++ .lineBreak :: ·) := by
  induction n generalizing depth cs with
  | zero => simp at hn
  | succ n ih =>
      cases cs with
      | nil =>
          obtain rfl : depth = 0 := hdepth
          have hbs : marksFrom n 0 bs = marks bs := marksFrom_eq (by simpa using hn) (le_refl _)
          have hnext : nextMarks 0 '\n' bs =
              if isIndented 0 bs then none else some ([.lineBreak], bs) := rfl
          have hdepth' : [Mark.lineBreak].foldl Mark.depthAfter 0 = 0 := rfl
          rw [List.nil_append, marksFrom_succ, hnext, apply_ite (Option.bind · _)]
          simp only [Option.bind_none, Option.bind_some, hdepth', hbs]
          rfl
      | cons c cs =>
          rw [List.cons_append, List.length_cons, marksFrom_succ, marksFrom_succ, nextMarks_append]
          cases hnext : nextMarks depth c cs with
          | none => rfl
          | some first =>
              obtain ⟨first, rest⟩ := first
              obtain ⟨htakes, hfirst⟩ := nextMarks_spec hnext
              have hdepth' : rest.foldl depthAfter (first.foldl Mark.depthAfter depth) = 0 := by
                rw [hfirst, ← htakes.foldl_depthAfter]
                exact hdepth
              have hlen := htakes.length_le
              have hrest : (rest ++ '\n' :: bs).length ≤ n := by
                simp at hn ⊢
                omega
              simp only [Option.map_some, Option.bind_some, Prod.map, id, ih hdepth' hrest,
                marksFrom_eq hlen (le_refl rest.length), Option.map_bind, Option.bind_map]
              refine Option.bind_congr fun ms _ => ?_
              cases marks bs with
              | none => by_cases hindent : isIndented 0 bs = true <;> simp [hindent]
              | some ns => by_cases hindent : isIndented 0 bs = true <;> simp [hindent]

theorem marks_append (hdepth : cs.foldl depthAfter 0 = 0) (bs : List Char) :
    marks (cs ++ '\n' :: bs) =
      (marks cs).bind fun ms =>
        if isIndented 0 bs then none else (marks bs).map (ms ++ .lineBreak :: ·) :=
  marksFrom_append hdepth (le_refl _)

end Bellman.Numeral
