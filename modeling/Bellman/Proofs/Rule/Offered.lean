import Bellman.Proofs.Pattern.Matching
import Bellman.Proofs.Pattern.Occurrences
import Bellman.Proofs.Rule.Transform

/-!
# Rules that work are offered

What a rule offers to do is meant to be more than it can do. For seven of the nine rules it
is: where the transform finds its pattern, the test finds what it looks for, because the
pattern holds it. The return is expanded only while no series stands in the expression. And
the law of total expectation is looked for on one line, though its transform reads across
line breaks: it stays hidden where a line feed stands in every way from the next return to
the condition on the present state.
-/

namespace Bellman.Catalog

open Pattern Text

variable {e out : List Char}

/-- A text of the catalog begins with a character that is not blank. -/
private theorem plain {s : String} (h : s.toList.head?.any (!isBlank ·) = true) :
    (exactly s).Determined ∧ (exactly s).Solid :=
  ⟨determined_exactly s, solid_exactly h⟩

/-- Texts with blanks between them are read wherever they stand. -/
theorem determined_texts (s : String) (ss : List String)
    (h : ∀ t ∈ ss, t.toList.head?.any (!isBlank ·) = true) :
    (spaced (exactly s :: ss.map exactly)).Determined := by
  refine (determined_exactly s).spaced fun q hq => ?_
  obtain ⟨t, ht, rfl⟩ := List.mem_map.mp hq
  exact plain (h t ht)

theorem determined_givenStatePattern : givenStatePattern.Determined :=
  determined_texts Latex.bar ["S_t", "=", "s", "]"] (by decide)

theorem solid_givenStatePattern : givenStatePattern.Solid :=
  (solid_exactly (by decide)).spaced

theorem determined_nextConditionPattern : nextConditionPattern.Determined :=
  determined_texts Latex.bar [Latex.nextState, "=", "s'"] (by decide)

/-- The next return is read by its name or as a series, which begin differently. -/
theorem determined_futurePattern : futurePattern.Determined := by
  refine (determined_exactly _).orElse
    (determined_texts Latex.seriesHead [Latex.seriesFactor, Latex.shiftedReward] (by decide)) ?_
  rintro m rest ⟨a, b, rfl, rfl, -⟩
  rfl

theorem solid_futurePattern : futurePattern.Solid :=
  (solid_exactly (by decide)).orElse (solid_exactly (by decide)).spaced

theorem determined_futureStartPattern : futureStartPattern.Determined :=
  (determined_exactly _).spaced fun q hq => by
    obtain rfl := List.mem_singleton.mp hq
    exact ⟨determined_futurePattern, solid_futurePattern⟩

theorem holds_iff {fragment : String} : holds fragment e = true ↔ fragment.toList <:+: e :=
  exactly_occursIn

/-- A text among the parts of a pattern stands wherever the pattern occurs. -/
theorem holds_of_occursIn_spaced {ps : List Pattern} {fragment : String}
    (h : (spaced ps).occursIn e = true) (hp : exactly fragment ∈ ps) :
    holds fragment e = true := by
  obtain ⟨before, m, after, rfl, hm⟩ := exists_matches_of_occursIn h
  obtain ⟨a, b, hab⟩ := infix_of_matches_spaced hm hp
  rw [holds_iff]
  exact ⟨before ++ a, b ++ after, by rw [← hab]; simp⟩

/-- A determined part of a pattern occurs wherever the pattern occurs. -/
theorem occursIn_of_occursIn_spaced {ps : List Pattern} {p : Pattern} (determined : p.Determined)
    (h : (spaced ps).occursIn e = true) (hp : p ∈ ps) : p.occursIn e = true := by
  obtain ⟨before, m, after, rfl, hm⟩ := exists_matches_of_occursIn h
  obtain ⟨a, x, b, rfl, hx⟩ := exists_of_matches_spaced hm hp
  have hoccurs := determined.occursIn (before ++ a) hx
  simpa using hoccurs

/-- On one line a pattern occurs where no line feed stands before an occurrence. -/
theorem occursOnLine_iff {p : Pattern} {cs : List Char} :
    occursOnLine p cs = true ↔
      ∃ gap tail, cs = gap ++ tail ∧ '\n' ∉ gap ∧ (p.read? tail).isSome := by
  induction cs with
  | nil => simp [occursOnLine]
  | cons c cs ih =>
      rw [occursOnLine, Bool.or_eq_true, Bool.and_eq_true, ih]
      constructor
      · rintro (h | ⟨hc, gap, tail, rfl, hgap, h⟩)
        · exact ⟨[], c :: cs, rfl, List.not_mem_nil, h⟩
        · have hne : '\n' ≠ c := by
            rintro rfl
            cases hc
          exact ⟨c :: gap, tail, rfl, by simp [hne, hgap], h⟩
      · rintro ⟨gap, tail, hcs, hgap, h⟩
        cases gap with
        | nil =>
            left
            rwa [hcs]
        | cons d gap =>
            obtain ⟨rfl, rfl⟩ := List.cons.inj hcs
            rw [List.mem_cons, not_or] at hgap
            right
            exact ⟨bne_iff_ne.mpr (Ne.symm hgap.1), gap, tail, rfl, hgap.2, h⟩

/-- The text stands in an expression between an expected next return and the condition on
the present state. -/
def Between (e gap : List Char) : Prop :=
  ∃ before start condition after, e = before ++ (start ++ (gap ++ (condition ++ after))) ∧
    futureStartPattern.Matches start (gap ++ (condition ++ after)) ∧
    givenStatePattern.Matches condition after

private theorem offersFuture_iff_read? :
    offersFuture e = true ↔ ∃ before tail start rest, e = before ++ tail ∧
      futureStartPattern.read? tail = some (start, rest) ∧
      occursOnLine givenStatePattern rest = true := by
  induction e with
  | nil =>
      refine ⟨fun h => absurd h Bool.false_ne_true, ?_⟩
      rintro ⟨before, tail, start, rest, hnil, hread, -⟩
      obtain ⟨rfl, rfl⟩ := List.append_eq_nil_iff.mp hnil.symm
      cases hread
  | cons c cs ih =>
      rw [offersFuture, Bool.or_eq_true, ih]
      constructor
      · rintro (h | ⟨before, tail, start, rest, rfl, h⟩)
        · split at h
          next start rest hread => exact ⟨[], c :: cs, start, rest, rfl, hread, h⟩
          next => cases h
        · exact ⟨c :: before, tail, start, rest, rfl, h⟩
      · rintro ⟨before, tail, start, rest, hcs, hread, h⟩
        cases before with
        | nil =>
            obtain rfl : c :: cs = tail := hcs
            left
            rw [hread]
            exact h
        | cons d before =>
            obtain ⟨rfl, rfl⟩ := List.cons.inj hcs
            exact .inr ⟨before, tail, start, rest, rfl, hread, h⟩

/-- The law of total expectation is offered where no line feed stands in between. -/
theorem offersFuture_iff : offersFuture e = true ↔ ∃ gap, '\n' ∉ gap ∧ Between e gap := by
  rw [offersFuture_iff_read?]
  constructor
  · rintro ⟨before, tail, start, rest, rfl, hread, hline⟩
    obtain ⟨gap, tail', rfl, hgap, hsome⟩ := occursOnLine_iff.mp hline
    obtain ⟨condition, after, rfl, hcondition⟩ := exists_matches_of_isSome hsome
    refine ⟨gap, hgap, before, start, condition, after, ?_, matches_of_read? hread, hcondition⟩
    rw [append_of_read? hread]
  · rintro ⟨gap, hgap, before, start, condition, after, rfl, hstart, hcondition⟩
    have hread := determined_futureStartPattern _ _ hstart
    have hsome : (givenStatePattern.read? (condition ++ after)).isSome := by
      rw [determined_givenStatePattern _ _ hcondition]
      rfl
    exact ⟨before, _, start, _, rfl, hread, occursOnLine_iff.mpr ⟨gap, _, rfl, hgap, hsome⟩⟩

theorem offers_of_unroll (h : seriesPattern.occursIn e = true) :
    holds Latex.seriesHead e = true :=
  holds_of_occursIn_spaced h (by simp)

theorem offers_of_substitution (h : futureGivenNextPattern.occursIn e = true) :
    holds Latex.expectation e = true ∧ nextConditionPattern.occursIn e = true := by
  refine ⟨?_, occursIn_of_occursIn_spaced determined_nextConditionPattern h (by simp)⟩
  obtain ⟨before, m, after, rfl, hm⟩ := exists_matches_of_occursIn h
  obtain ⟨a, x, b, rfl, hx⟩ := exists_of_matches_spaced (p := futureStartPattern) hm (by simp)
  obtain ⟨c, d, hcd⟩ := infix_of_matches_spaced (s := Latex.expectation) hx (by simp)
  rw [holds_iff]
  exact ⟨before ++ (a ++ c), d ++ (b ++ after), by rw [← hcd]; simp⟩

/-- A right-hand side with normal spacing holds its two ends, which have no blanks. -/
theorem offers_of_assemble (h : assemble e = .ok out) :
    holds "r(s)" e = true ∧ holds Latex.stateSum e = true := by
  unfold assemble at h
  split at h
  next m hread =>
    have hm := matches_of_read? hread
    have hnormal : normalize e = m := by
      rw [append_of_read? hread, List.append_nil]
    rw [holds_iff, holds_iff]
    have hplain : ("r(s)".toList ++ Latex.stateSum.toList).all (!isBlank ·) = true := rfl
    simp only [List.all_append, Bool.and_eq_true, List.all_eq_true, Bool.not_eq_true'] at hplain
    constructor
    · exact infix_of_normalize hplain.1 (hnormal ▸ infix_of_matches_spaced hm (by simp))
    · exact infix_of_normalize hplain.2 (hnormal ▸ infix_of_matches_spaced hm (by simp))
  next => cases h

/-- An expectation that is split stands before a bar and has a discounted sum inside. -/
private theorem exists_of_splitExpectation (h : splitExpectation e = .ok out) :
    ∃ before inside after sum rest,
      e = before ++ (Latex.expectation.toList ++ (inside ++ (Latex.bar.toList ++ after))) ∧
        discountedSumPattern.read? (trim inside) = some (sum, rest) := by
  unfold splitExpectation at h
  split at h
  next => cases h
  next before inner hopen =>
    split at h
    next => cases h
    next inside conditioned hbar =>
      have he := append_of_splitAt? hopen
      rw [append_of_splitAt? hbar] at he
      split at h
      next => cases h
      next =>
        split at h
        next => cases h
        next summand hsum =>
          unfold discounted? at hsum
          split at hsum
          next => cases hsum
          next sum rest hread => exact ⟨before, inside, conditioned, sum, rest, he, hread⟩

/-- An expectation that is split holds all that the test looks for: its marks where it is
cut, and the reward, the sign and the discount in its inside. -/
theorem offers_of_split (h : splitExpectation e = .ok out) :
    ([Latex.expectation, Latex.nextReward, "+", Latex.discount, Latex.bar].all
      (holds · e)) = true := by
  obtain ⟨before, inside, after, sum, rest, he, hread⟩ := exists_of_splitExpectation h
  have hopen : Latex.expectation.toList <:+: e :=
    ⟨before, inside ++ (Latex.bar.toList ++ after), by simp [he]⟩
  have hbar : Latex.bar.toList <:+: e :=
    ⟨before ++ (Latex.expectation.toList ++ inside), after, by simp [he]⟩
  have hinside : trim inside <:+: e :=
    (isInfix_trim inside).trans
      ⟨before ++ Latex.expectation.toList, Latex.bar.toList ++ after, by simp [he]⟩
  obtain ⟨a, b, hsum, ha, -⟩ := matches_of_read? hread
  have hstart : a <:+: e :=
    List.IsInfix.trans ⟨[], b ++ rest, by rw [append_of_read? hread, hsum]; simp⟩ hinside
  have hpart (s : String)
      (hs : exactly s ∈ [exactly Latex.nextReward, exactly "+", exactly Latex.discount]) :
      s.toList <:+: e :=
    (infix_of_matches_spaced ha hs).trans hstart
  simp only [List.all_cons, List.all_nil, Bool.and_true, Bool.and_eq_true, holds_iff]
  exact ⟨hopen, hpart _ (by simp), hpart _ (by simp), hpart _ (by simp), hbar⟩

/-- The law of total expectation can be applied where blanks stand in between. -/
theorem futureGivenState_occursIn_iff :
    futureGivenStatePattern.occursIn e = true ↔
      ∃ gap, (∀ c ∈ gap, isBlank c = true) ∧ Between e gap := by
  constructor
  · intro h
    obtain ⟨before, m, after, rfl, a, b, rfl, ha, gap, c, rfl, hgap, hc⟩ :=
      exists_matches_of_occursIn h
    refine ⟨gap, hgap, before, a, c, after, by simp, ?_, hc⟩
    rwa [List.append_assoc] at ha
  · rintro ⟨gap, hgap, before, start, condition, after, rfl, hstart, hcondition⟩
    have determined : futureGivenStatePattern.Determined :=
      determined_futureStartPattern.spaced fun q hq => by
        obtain rfl := List.mem_singleton.mp hq
        exact ⟨determined_givenStatePattern, solid_givenStatePattern⟩
    have hm : futureGivenStatePattern.Matches (start ++ (gap ++ condition)) after := by
      refine ⟨start, gap ++ condition, rfl, ?_, gap, condition, rfl, hgap, hcondition⟩
      rwa [List.append_assoc]
    simpa using determined.occursIn before hm

/-- A rule that can rewrite an expression and is not offered: the return beside a series is
not expanded again, and the law of total expectation does not look across line feeds. -/
def Hidden (r : Rule) (e : String) : Prop :=
  r.id = defReturn.id ∧ Latex.seriesHead.toList <:+: e.toList ∨
    r.id = totalExpectation.id ∧ ∀ gap, Between e.toList gap → '\n' ∈ gap

/-- The test of the catalog's rules is a function of the characters. -/
private theorem applies_eq_ok_true {id name displayForm explanation : String}
    {offers : List Char → Bool} {rewrite : List Char → Except Form (List Char)} {e : String} :
    (rule id name displayForm explanation offers rewrite).applies e = .ok true ↔
      offers e.toList = true := by
  simp [rule]

/-- A rule of its own kind is offered and not hidden if its test holds wherever its
transform gives something. -/
private theorem applies_iff_of_offers {id name displayForm explanation : String}
    {offers : List Char → Bool} {rewrite : List Char → Except Form (List Char)} {e out : String}
    (hreturn : id ≠ defReturn.id) (htotal : id ≠ totalExpectation.id)
    (h : (rule id name displayForm explanation offers rewrite).transform e = .ok out)
    (hoffers : ∀ cs, rewrite e.toList = .ok cs → offers e.toList = true) :
    (rule id name displayForm explanation offers rewrite).applies e = .ok true ↔
      ¬ Hidden (rule id name displayForm explanation offers rewrite) e := by
  obtain ⟨cs, hcs, -⟩ := transform_rule_eq_ok.mp h
  refine iff_of_true (applies_eq_ok_true.mpr (hoffers cs hcs)) ?_
  rintro (⟨hid, -⟩ | ⟨hid, -⟩)
  · exact hreturn hid
  · exact htotal hid

theorem defReturn_applies_iff {e out : String} (h : defReturn.transform e = .ok out) :
    defReturn.applies e = .ok true ↔ ¬ Hidden defReturn e := by
  obtain ⟨cs, hcs, -⟩ := transform_rule_eq_ok.mp h
  have hoccurs := (substitute_eq_ok.mp hcs).1
  rw [defReturn, applies_eq_ok_true, Bool.and_eq_true, Bool.not_eq_true', ← Bool.not_eq_true,
    holds_iff]
  constructor
  · rintro ⟨-, hseries⟩ (⟨-, hholds⟩ | ⟨hid, -⟩)
    · exact hseries hholds
    · exact absurd hid (by decide)
  · intro hshown
    exact ⟨hoccurs, fun hholds => hshown (.inl ⟨rfl, hholds⟩)⟩

theorem totalExpectation_applies_iff {e : String} :
    totalExpectation.applies e = .ok true ↔ ¬ Hidden totalExpectation e := by
  rw [totalExpectation, applies_eq_ok_true, offersFuture_iff]
  constructor
  · rintro ⟨gap, hgap, hbetween⟩ (⟨hid, -⟩ | ⟨-, hall⟩)
    · exact absurd hid (by decide)
    · exact hgap (hall gap hbetween)
  · intro hshown
    by_contra hnone
    refine hshown (.inr ⟨rfl, fun gap hbetween => ?_⟩)
    by_contra hgap
    exact hnone ⟨gap, hgap, hbetween⟩

/-- In an expression of one line the law of total expectation is offered where it can be
applied: the blanks in between are a way without a line feed. -/
theorem totalExpectation_applies_of_one_line {e out : String} (hline : '\n' ∉ e.toList)
    (h : totalExpectation.transform e = .ok out) : totalExpectation.applies e = .ok true := by
  obtain ⟨cs, hcs, -⟩ := transform_rule_eq_ok.mp h
  obtain ⟨gap, -, hbetween⟩ := futureGivenState_occursIn_iff.mp (substitute_eq_ok.mp hcs).1
  rw [totalExpectation_applies_iff]
  rintro (⟨hid, -⟩ | ⟨-, hall⟩)
  · exact absurd hid (by decide)
  · have hfeed := hall gap hbetween
    obtain ⟨before, start, condition, after, he, -⟩ := hbetween
    exact hline (by simp [he, hfeed])

/-- A rule of the catalog that can rewrite an expression is offered for it, two cases aside:
the definition of the return beside a series, and the law of total expectation where a line
feed stands in every way from the next return to the condition on the present state. -/
theorem offered_iff_not_hidden {r : Rule} (hr : r ∈ rules) {e out : String}
    (h : r.transform e = .ok out) :
    (r.applies e = .ok true ↔ ¬ Hidden r e) ∧ (r ∈ Rule.applicable rules e ↔ ¬ Hidden r e) := by
  have happlies : r.applies e = .ok true ↔ ¬ Hidden r e := by
    simp only [rules, List.mem_cons, List.not_mem_nil, or_false] at hr
    obtain rfl | rfl | rfl | rfl | rfl | rfl | rfl | rfl | rfl := hr
    · exact applies_iff_of_offers (by decide) (by decide) h fun cs hcs =>
        (substitute_eq_ok.mp hcs).1
    · exact defReturn_applies_iff h
    · exact applies_iff_of_offers (by decide) (by decide) h fun cs hcs =>
        (substitute_eq_ok.mp hcs).1
    · refine applies_iff_of_offers (by decide) (by decide) h fun cs hcs => ?_
      rw [offers_of_unroll (substitute_eq_ok.mp hcs).1, Bool.true_or]
    · exact applies_iff_of_offers (by decide) (by decide) h fun cs hcs => offers_of_split hcs
    · exact applies_iff_of_offers (by decide) (by decide) h fun cs hcs =>
        (substitute_eq_ok.mp hcs).1
    · exact totalExpectation_applies_iff
    · refine applies_iff_of_offers (by decide) (by decide) h fun cs hcs => ?_
      obtain ⟨hopen, hnext⟩ := offers_of_substitution (substitute_eq_ok.mp hcs).1
      rw [hopen, hnext, Bool.and_true]
    · refine applies_iff_of_offers (by decide) (by decide) h fun cs hcs => ?_
      obtain ⟨hreward, hsum⟩ := offers_of_assemble hcs
      rw [hreward, hsum, Bool.and_true]
  refine ⟨happlies, ?_⟩
  rw [Rule.mem_applicable, and_iff_right hr, happlies]

/-- Line feeds inside the expectation, before the return and before the present state, hide
nothing: one reading has none of them in its gap. -/
theorem not_hidden_of_other_lines :
    ¬ Hidden totalExpectation "\\mathbb{E}[\nG_{t+1} \\mid\nS_t=s]" :=
  (offered_iff_not_hidden (r := totalExpectation) (by simp [rules])
    (show totalExpectation.transform "\\mathbb{E}[\nG_{t+1} \\mid\nS_t=s]" =
      .ok "\\sum_\x7bs'\x7d p(s'\\mid s)\\,\\mathbb{E}[G_{t+1}\\mid S_\x7bt+1\x7d=s']" by
        decide)).1.mp (by decide)

/-- A line feed in front of the bar hides the law of total expectation, which can still be
applied. -/
theorem totalExpectation_hidden_of_line :
    totalExpectation.transform "\\mathbb{E}[G_{t+1}\n\\mid S_t=s]" =
        .ok "\\sum_\x7bs'\x7d p(s'\\mid s)\\,\\mathbb{E}[G_{t+1}\\mid S_\x7bt+1\x7d=s']" ∧
      totalExpectation.applies "\\mathbb{E}[G_{t+1}\n\\mid S_t=s]" = .ok false ∧
      totalExpectation ∉ Rule.applicable rules "\\mathbb{E}[G_{t+1}\n\\mid S_t=s]" := by
  have happlies : totalExpectation.applies "\\mathbb{E}[G_{t+1}\n\\mid S_t=s]" = .ok false := by
    decide
  refine ⟨by decide, happlies, ?_⟩
  rw [Rule.mem_applicable, happlies]
  simp

end Bellman.Catalog
