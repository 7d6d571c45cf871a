import Bellman.Proofs.Rule.Regularity
import Bellman.Proofs.Rule.SplitForm
import Bellman.Proofs.Rule.Splitting

/-!
# Rules do not see spacing

A rule makes of an expression what it makes of the expression in normal spacing, be that a
new expression or the form that is missing. Substitutions are regular, and the equation is
recognised in normal spacing anyway. Splitting looks for its marks one after the other: every
mark is a firm text, so normal spacing has it at the same place, with the text before and the
text after spaced on their own.

What is offered does not depend on spacing either, but for the law of total expectation,
which is looked for on one line.
-/

namespace Bellman.Catalog

open Text Pattern

variable {before after inside remainder summand cs : List Char}

/-- A mark of the expectations: it stays as it is in any spacing, and its first character is
found nowhere else in it. -/
structure IsMark (w : List Char) : Prop where
  firm : Firm w
  visible : w.all (!isBlank ·) = true
  apart : ∃ d, w.head? = some d ∧ d ∉ w.tail

theorem isMark_expectation : IsMark Latex.expectation.toList :=
  ⟨by decide, by decide, '\\', by decide, by decide⟩

theorem isMark_bar : IsMark Latex.bar.toList :=
  ⟨by decide, by decide, '\\', by decide, by decide⟩

theorem isMark_closing : IsMark "]".toList :=
  ⟨by decide, by decide, ']', by decide, by decide⟩

namespace IsMark

variable {w : List Char}

theorem isBlank_of_mem (mark : IsMark w) : ∀ c ∈ w, isBlank c = false := by
  simpa using mark.visible

theorem firstIn_iff (mark : IsMark w) :
    FirstIn w cs before after ↔ cs = before ++ (w ++ after) ∧ ¬ w <:+: before := by
  obtain ⟨d, hd, htail⟩ := mark.apart
  exact Pattern.firstIn_iff hd htail

/-- In normal spacing the first place of a mark is where it was. -/
theorem firstIn_normalize (mark : IsMark w) (h : FirstIn w cs before after) :
    FirstIn w (normalize cs) (normalizeBefore before) (normalizeAfter after) := by
  obtain ⟨rfl, hfirst⟩ := mark.firstIn_iff.mp h
  refine mark.firstIn_iff.mpr ⟨normalize_around mark.firm before after, fun hinside => hfirst ?_⟩
  have hsuffix : normalizeBefore before <:+ collapse before := List.dropWhile_suffix isBlank
  exact infix_of_collapse mark.isBlank_of_mem (hinside.trans hsuffix.isInfix)

/-- The same behind something visible. -/
theorem firstIn_normalizeAfter (mark : IsMark w) (h : FirstIn w cs before after) :
    FirstIn w (normalizeAfter cs) (collapse before) (normalizeAfter after) := by
  obtain ⟨rfl, hfirst⟩ := mark.firstIn_iff.mp h
  have hspaced : normalizeAfter (before ++ (w ++ after)) =
      collapse before ++ (w ++ normalizeAfter after) := by
    rw [normalizeAfter, collapse_around mark.firm, trimRight_around mark.firm]
    rfl
  exact mark.firstIn_iff.mpr ⟨hspaced, fun hinside =>
    hfirst (infix_of_collapse mark.isBlank_of_mem hinside)⟩

/-- A mark that is missing is missing in any spacing. -/
theorem not_infix_normalizeAfter (mark : IsMark w) (h : ¬ w <:+: cs) :
    ¬ w <:+: normalizeAfter cs := by
  intro hinside
  have hprefix : normalizeAfter cs <+: collapse cs := List.rdropWhile_prefix isBlank _
  exact h (infix_of_collapse mark.isBlank_of_mem (hinside.trans hprefix.isInfix))

end IsMark

theorem trim_collapse (cs : List Char) : trim (collapse cs) = collapse (trim cs) :=
  (collapse_trim cs).symm

theorem collapse_eq_nil : collapse cs = [] ↔ cs = [] := by
  cases cs with
  | nil => simp
  | cons c cs =>
      have hhead := head?_collapse_cons c cs
      refine ⟨fun h => ?_, fun h => by cases h⟩
      rw [h] at hhead
      cases hhead

/-- A collapsed text is a discounted sum if the text is one, and what is discounted is
collapsed with it. -/
theorem discountedSum_collapse_iff : DiscountedSum (collapse inside) summand ↔
    ∃ remainder, DiscountedSum inside remainder ∧ summand = collapse remainder := by
  have compact : discountedSumPattern.Compact := by decide
  have hrest := compact.rest_collapse inside
  simp only [discountedSum_iff]
  constructor
  · rintro ⟨⟨sum, hread⟩, hne⟩
    rw [hread] at hrest
    obtain ⟨⟨sum', remainder⟩, hread', heq⟩ := Option.map_eq_some_iff.mp hrest.symm
    obtain rfl : collapse remainder = summand := heq
    exact ⟨remainder, ⟨⟨sum', hread'⟩, fun hnil => hne (collapse_eq_nil.mpr hnil)⟩, rfl⟩
  · rintro ⟨remainder, ⟨⟨sum, hread⟩, hne⟩, rfl⟩
    rw [hread] at hrest
    obtain ⟨⟨sum', rest⟩, hread', heq⟩ := Option.map_eq_some_iff.mp hrest
    obtain rfl : rest = collapse remainder := heq
    exact ⟨⟨sum', hread'⟩, fun hnil => hne (collapse_eq_nil.mp hnil)⟩

/-- The thin space in front of a remainder is no blank. -/
theorem Summand.collapse (h : Summand remainder summand) :
    Summand (Text.collapse remainder) (Text.collapse summand) := by
  have hall : Latex.thin.toList.all (!isBlank ·) = true := by decide
  have hthin : ∀ c ∈ Latex.thin.toList, isBlank c = false := by simpa using hall
  cases h with
  | @afterThin r hr =>
      rw [collapse_append_of_visible hthin, ← trim_collapse]
      refine .afterThin fun hnil => hr ?_
      rwa [trim_collapse, collapse_eq_nil] at hnil
  | @thinAlone r hr =>
      have hkept : Text.collapse Latex.thin.toList = Latex.thin.toList := by decide
      rw [collapse_append_of_visible hthin, hkept]
      exact .thinAlone (by rw [trim_collapse, hr, collapse_nil])
  | plain hplain =>
      rw [← trim_collapse]
      exact .plain fun hprefix => hplain (prefix_of_collapse hthin hprefix)

theorem collapse_expect {i i' c c' : List Char} (hi : collapse i = collapse i')
    (hc : collapse c = collapse c') : collapse (expect i c) = collapse (expect i' c') :=
  collapse_append_congr (collapse_append_congr (collapse_append_congr
    (collapse_append_congr (collapse_append_congr rfl hi) rfl) rfl) hc) rfl

/-- What is written for an expectation has the spacing of its parts. -/
theorem collapse_splitText (condition summand : List Char) :
    collapse (splitText (collapse condition) (collapse summand)) =
      collapse (splitText condition summand) := by
  have hcondition : collapse (trim (collapse condition)) = collapse (trim condition) := by
    rw [trim_collapse, collapse_collapse]
  exact collapse_append_congr (collapse_append_congr (collapse_expect rfl hcondition) rfl)
    (collapse_expect (collapse_collapse summand) hcondition)

theorem normalize_splitText (before condition summand after : List Char) :
    normalize (normalizeBefore before ++ (splitText (collapse condition) (collapse summand) ++
      normalizeAfter after)) = normalize (before ++ (splitText condition summand ++ after)) := by
  rw [normalizeBefore, normalizeAfter, normalize_trim_ends]
  exact normalize_congr (collapse_append_congr (collapse_collapse before)
    (collapse_append_congr (collapse_splitText condition summand) (collapse_collapse after)))

/-- The text around the parts, mark by mark. -/
theorem splitText_around (before condition summand after : List Char) :
    before ++ "\\mathbb\x7bE\x7d[R_\x7bt+1\x7d\\mid ".toList ++ trim condition ++
        "] + \\gamma\\,\\mathbb\x7bE\x7d[".toList ++ summand ++ "\\mid ".toList ++
        trim condition ++ "]".toList ++ after =
      before ++ (splitText condition summand ++ after) := by
  simp [splitText, expect]
  rfl

/-- A bracket behind a condition closes it in any spacing. -/
theorem closing_normalizeAfter {condition : List Char} (h : ']' ∉ condition) (after : List Char) :
    normalizeAfter (condition ++ ']' :: after) = collapse condition ++ ']' :: normalizeAfter after ∧
      ']' ∉ collapse condition := by
  have hclosing : FirstIn "]".toList (condition ++ ']' :: after) condition after :=
    isMark_closing.firstIn_iff.mpr ⟨rfl, by rwa [← List.singleton_infix_iff] at h⟩
  obtain ⟨heq, hfirst⟩ :=
    isMark_closing.firstIn_iff.mp (isMark_closing.firstIn_normalizeAfter hclosing)
  exact ⟨heq, by rwa [← List.singleton_infix_iff]⟩

/-- Normal spacing changes nothing about what becomes of an expression that is to be split. -/
theorem Split.normalize {e : List Char} {o : Except RuleError String} (h : Split e o) :
    Split (Text.normalize e) o := by
  cases h with
  | noExpectation hopening =>
      exact .noExpectation fun hinside =>
        hopening (infix_of_normalize isMark_expectation.isBlank_of_mem hinside)
  | noBar opening hbar =>
      exact .noBar (isMark_expectation.firstIn_normalize opening)
        (isMark_bar.not_infix_normalizeAfter hbar)
  | noBracket opening bar hclosing =>
      refine .noBracket (isMark_expectation.firstIn_normalize opening)
        (isMark_bar.firstIn_normalizeAfter bar) ?_
      rw [← List.singleton_infix_iff] at hclosing ⊢
      exact isMark_closing.not_infix_normalizeAfter hclosing
  | @otherInside _ _ _ condition after opening bar hcondition hsum =>
      obtain ⟨hspaced, hcondition'⟩ := closing_normalizeAfter hcondition after
      refine .otherInside (isMark_expectation.firstIn_normalize opening)
        (hspaced ▸ isMark_bar.firstIn_normalizeAfter bar) hcondition' fun r hr => ?_
      rw [trim_collapse] at hr
      obtain ⟨remainder, hremainder, -⟩ := discountedSum_collapse_iff.mp hr
      exact hsum remainder hremainder
  | @split before _ inside condition after remainder summand opening bar hcondition hsum
      hsummand =>
      obtain ⟨hspaced, hcondition'⟩ := closing_normalizeAfter hcondition after
      have hsum' : DiscountedSum (trim (collapse inside)) (collapse remainder) := by
        rw [trim_collapse]
        exact discountedSum_collapse_iff.mpr ⟨remainder, hsum, rfl⟩
      have hsplit := Split.split (isMark_expectation.firstIn_normalize opening)
        (hspaced ▸ isMark_bar.firstIn_normalizeAfter bar) hcondition' hsum' hsummand.collapse
      rw [splitText_around, normalize_splitText] at hsplit
      rwa [splitText_around]

theorem regular_exactly {s : String} (ne : s.toList ≠ [])
    (visible : s.toList.all (!isBlank ·) = true) : (exactly s).Regular where
  solid := solid_exactly (by
    obtain ⟨c, cs, hs⟩ := List.exists_cons_of_ne_nil ne
    simp_all)
  tight := tight_exactly (by
    obtain ⟨cs, c, hs⟩ := (List.eq_nil_or_concat' s.toList).resolve_left ne
    simp_all)
  compact := visible
  determined := determined_exactly s

/-- A fragment without blanks stands in a text in any spacing. -/
theorem holds_normalize {fragment : String} (ne : fragment.toList ≠ [])
    (visible : fragment.toList.all (!isBlank ·) = true) (cs : List Char) :
    holds fragment (normalize cs) = holds fragment cs :=
  (regular_exactly ne visible).occursIn_normalize cs

theorem regular_nextConditionPattern : nextConditionPattern.Regular where
  solid := (solid_exactly (by decide)).spaced
  tight := Tight.spaced rfl (tight_exactly (by decide))
  compact := by decide
  determined := determined_nextConditionPattern

variable {id name displayForm explanation : String} {offers : List Char → Bool}
  {rewrite : List Char → Except Form (List Char)}

theorem applies_rule_normalSpacing (h : ∀ cs, offers (normalize cs) = offers cs) (e : String) :
    (rule id name displayForm explanation offers rewrite).applies (normalSpacing e) =
      (rule id name displayForm explanation offers rewrite).applies e := by
  simp only [rule, normalSpacing, String.toList_ofList, h]

/-- Every rule but the law of total expectation is offered for an expression in any
spacing. -/
theorem applies_normalSpacing {r : Rule} (hr : r ∈ rules) (hid : r.id ≠ totalExpectation.id)
    (e : String) : r.applies (normalSpacing e) = r.applies e := by
  have hhead (cs : List Char) : holds Latex.seriesHead (normalize cs) = holds Latex.seriesHead cs :=
    holds_normalize (by decide) (by decide) cs
  have hopening (cs : List Char) :
      holds Latex.expectation (normalize cs) = holds Latex.expectation cs :=
    holds_normalize (by decide) (by decide) cs
  have occurs (s : Substitution) (cs : List Char) :
      s.pattern.occursIn (normalize cs) = s.pattern.occursIn cs := s.regular.occursIn_normalize cs
  simp only [rules, List.mem_cons, List.not_mem_nil, or_false] at hr
  obtain rfl | rfl | rfl | rfl | rfl | rfl | rfl | rfl | rfl := hr
  · exact applies_rule_normalSpacing (occurs .expectedReturn) e
  · refine applies_rule_normalSpacing (fun cs => ?_) e
    exact congrArg₂ (fun a b => a && !b) (occurs .series cs) (hhead cs)
  · exact applies_rule_normalSpacing (occurs .recursion) e
  · refine applies_rule_normalSpacing (fun cs => ?_) e
    rw [hhead, holds_normalize (by decide) (by decide)]
  · refine applies_rule_normalSpacing (fun cs => ?_) e
    have fragments : ∀ f ∈ [Latex.expectation, Latex.nextReward, "+", Latex.discount, Latex.bar],
        f.toList ≠ [] ∧ f.toList.all (!isBlank ·) = true := by decide
    rw [Bool.eq_iff_iff, List.all_eq_true, List.all_eq_true]
    refine forall₂_congr fun f hf => ?_
    obtain ⟨ne, visible⟩ := fragments f hf
    rw [holds_normalize ne visible]
  · exact applies_rule_normalSpacing (occurs .reward) e
  · exact absurd rfl hid
  · refine applies_rule_normalSpacing (fun cs => ?_) e
    rw [hopening, regular_nextConditionPattern.occursIn_normalize]
  · refine applies_rule_normalSpacing (fun cs => ?_) e
    rw [holds_normalize (by decide) (by decide), holds_normalize (by decide) (by decide)]

/-- Spacing does not matter to the rules: an expression and its normal spacing are rewritten
to the same expression, or lack the same form. They are offered the same rules, the law of
total expectation aside. -/
theorem same_in_normalSpacing {r : Rule} (hr : r ∈ rules) (e : String) :
    r.transform (normalSpacing e) = r.transform e ∧
      (r.id ≠ totalExpectation.id → r.applies (normalSpacing e) = r.applies e) := by
  refine ⟨?_, fun hid => applies_normalSpacing hr hid e⟩
  have hspaced : (normalSpacing e).toList = normalize e.toList := String.toList_ofList
  obtain ⟨s, rfl⟩ | rfl | rfl := mem_rules_cases hr
  · rw [s.transform_eq, s.transform_eq, hspaced, s.regular.occursIn_normalize,
      s.normalize_rewrite_normalize]
  · obtain ⟨o, ho⟩ := exists_split e.toList
    rw [ho.transform]
    exact Split.transform (hspaced ▸ ho.normalize)
  · simp only [assembleBellman, rule, hspaced, assemble, normalize_normalize]

/-- A sum over two lines inside an expectation, with blanks of several kinds. -/
theorem split_in_normalSpacing :
    (linearity ∈ rules ∧ linearity.id ≠ totalExpectation.id) ∧
      linearity.transform (Latex.expectation ++ "R_\x7bt+1\x7d\n+ \\gamma\u2003X\t\\mid Z]") =
        .ok (Latex.expectation ++ "R_\x7bt+1\x7d\\mid Z] + \\gamma\\," ++
          Latex.expectation ++ "X\\mid Z]") ∧
      linearity.transform (normalSpacing
          (Latex.expectation ++ "R_\x7bt+1\x7d\n+ \\gamma\u2003X\t\\mid Z]")) =
        .ok (Latex.expectation ++ "R_\x7bt+1\x7d\\mid Z] + \\gamma\\," ++
          Latex.expectation ++ "X\\mid Z]") ∧
      linearity.applies (normalSpacing
          (Latex.expectation ++ "R_\x7bt+1\x7d\n+ \\gamma\u2003X\t\\mid Z]")) = .ok true := by
  have hrule : linearity ∈ rules := by simp [rules]
  have hid : linearity.id ≠ totalExpectation.id := by decide
  have hrun : linearity.transform
      (Latex.expectation ++ "R_\x7bt+1\x7d\n+ \\gamma\u2003X\t\\mid Z]") =
        .ok (Latex.expectation ++ "R_\x7bt+1\x7d\\mid Z] + \\gamma\\," ++
          Latex.expectation ++ "X\\mid Z]") := by
    decide
  obtain ⟨htransform, happlies⟩ := same_in_normalSpacing hrule
    (Latex.expectation ++ "R_\x7bt+1\x7d\n+ \\gamma\u2003X\t\\mid Z]")
  exact ⟨⟨hrule, hid⟩, hrun, htransform.trans hrun, (happlies hid).trans (by decide)⟩

/-- The law of total expectation is offered once a line feed has given way to a space. -/
example : ∃ e, totalExpectation.applies e ≠ totalExpectation.applies (normalSpacing e) :=
  ⟨Latex.expectation ++ Latex.nextReturn ++ "\n" ++ Latex.givenState, by decide⟩

end Bellman.Catalog
