import Bellman.Proofs.Rule.Offered
import Bellman.Proofs.Rule.Written

/-!
# The lecture's derivation in context

The derivation from the value of a state to the right-hand side of the Bellman equation works
in any context without a backslash, a `v` or a `G`, with which every pattern begins: no rule
finds anything in the context, and nothing that begins in the derived text reaches into it.
Spacing the context once is enough, so each step of the derivation replaces one text by
another between the same two ends.
-/

namespace Bellman.Catalog

open Text Pattern

/-- The rules lead from the one expression to the other, each being offered in its turn. -/
inductive Leads : List Rule → String → String → Prop where
  | done (e : String) : Leads [] e e
  | step {r : Rule} {rs : List Rule} {e next out : String} (offered : r.applies e = .ok true)
      (rewritten : r.transform e = .ok next) (rest : Leads rs next out) : Leads (r :: rs) e out

theorem Leads.trans {rs qs : List Rule} {e next out : String} (h : Leads rs e next)
    (h' : Leads qs next out) : Leads (rs ++ qs) e out := by
  induction h with
  | done e => exact h'
  | step offered rewritten rest ih => exact .step offered rewritten (ih h')

theorem Leads.single {r : Rule} {e out : String} (offered : r.applies e = .ok true)
    (rewritten : r.transform e = .ok out) : Leads [r] e out :=
  .step offered rewritten (.done out)

/-- The characters with which patterns begin. -/
def marks : List Char :=
  ['\\', 'v', 'G']

/-- No pattern begins in the text. -/
def Plain (a : List Char) : Prop :=
  ∀ c ∈ marks, c ∉ a

/-- Two texts with normal spacing, in which no pattern begins. -/
structure Context where
  before : List Char
  after : List Char
  before_spaced : normalizeBefore before = before
  after_spaced : normalizeAfter after = after
  before_plain : Plain before
  after_plain : Plain after
  one_line : '\n' ∉ before ++ after

/-- A text in a context, as an expression. -/
def Context.around (k : Context) (t : List Char) : String :=
  String.ofList (k.before ++ (t ++ k.after))

@[simp] theorem Context.toList_around (k : Context) (t : List Char) :
    (k.around t).toList = k.before ++ (t ++ k.after) :=
  String.toList_ofList

theorem Context.normalize_around (k : Context) {t : List Char} (firm : Firm t) :
    normalize (k.before ++ (t ++ k.after)) = k.before ++ (t ++ k.after) := by
  rw [Text.normalize_around firm, k.before_spaced, k.after_spaced]

theorem mem_of_mem_normalizeBefore {c : Char} {a : List Char} (h : c ∈ normalizeBefore a) :
    c = ' ' ∨ c ∈ a ∧ isBlank c = false :=
  of_mem_collapse ((List.dropWhile_suffix _).mem h)

theorem mem_of_mem_normalizeAfter {c : Char} {b : List Char} (h : c ∈ normalizeAfter b) :
    c = ' ' ∨ c ∈ b ∧ isBlank c = false :=
  of_mem_collapse ((List.rdropWhile_prefix isBlank _).mem h)

/-- The context that two texts without marks make. -/
def Context.spaced (pre post : List Char) (hpre : Plain pre) (hpost : Plain post) : Context where
  before := normalizeBefore pre
  after := normalizeAfter post
  before_spaced := normalizeBefore_idem pre
  after_spaced := normalizeAfter_idem post
  before_plain := by
    intro c hc hmem
    obtain rfl | ⟨hmem, -⟩ := mem_of_mem_normalizeBefore hmem
    · exact absurd hc (by decide)
    · exact hpre c hc hmem
  after_plain := by
    intro c hc hmem
    obtain rfl | ⟨hmem, -⟩ := mem_of_mem_normalizeAfter hmem
    · exact absurd hc (by decide)
    · exact hpost c hc hmem
  one_line := by
    intro hmem
    obtain hmem | hmem := List.mem_append.mp hmem
    · obtain heq | ⟨-, hblank⟩ := mem_of_mem_normalizeBefore hmem
      · exact absurd heq (by decide)
      · exact absurd hblank (by decide)
    · obtain heq | ⟨-, hblank⟩ := mem_of_mem_normalizeAfter hmem
      · exact absurd heq (by decide)
      · exact absurd hblank (by decide)

namespace Substitution

variable {t t' : List Char}

/-- Wherever the one text stands, the substitution makes the other one of it. -/
def Takes (s : Substitution) (t t' : List Char) : Prop :=
  ∀ cs, s.rewrite (t ++ cs) = t' ++ s.rewrite cs

theorem takes_of_avoids (s : Substitution) (h : ∀ f ∈ s.pattern.forms, Avoids f (visible t)) :
    s.Takes t t :=
  fun cs => s.solid.rewrite_append_of_avoids h s.replacement cs

theorem takes_written (s : Substitution) (w : Written) : s.Takes w.text (w.afterText s) :=
  fun cs => w.rewrite_text_append s cs

theorem Takes.append {s : Substitution} {u u' : List Char} (h : s.Takes t t')
    (h' : s.Takes u u') : s.Takes (t ++ u) (t' ++ u') := by
  intro cs
  rw [List.append_assoc, h, h', List.append_assoc]

/-- Every pattern of a substitution begins with a mark. -/
theorem takes_plain (s : Substitution) {a : List Char} (plain : Plain a) : s.Takes a a := by
  have hmarks : ∀ s ∈ all, ∀ f ∈ s.pattern.forms, f.head?.any (· ∈ marks) := by
    decide
  refine s.takes_of_avoids fun f hf => ?_
  obtain ⟨c, hhead, hc⟩ := (Option.any_eq_true _ _).mp (hmarks s s.mem_all f hf)
  exact Avoids.of_head hhead fun hmem => plain c (of_decide_eq_true hc) (mem_visible.mp hmem).1

/-- Between plain texts a substitution does what it does to the text there. -/
theorem transform_between {s : Substitution} {a b : List Char} (h : s.Takes t t')
    (changes : t ≠ t') (firm : Firm t') (ha : Plain a) (hb : Plain b) :
    s.rule.transform (String.ofList (a ++ (t ++ b))) =
      .ok (String.ofList (normalizeBefore a ++ (t' ++ normalizeAfter b))) := by
  have hrewrite : s.rewrite (a ++ (t ++ b)) = a ++ (t' ++ b) := by
    have hb' := s.takes_plain hb []
    rw [List.append_nil] at hb'
    rw [s.takes_plain ha, h, hb']
    simp [Substitution.rewrite]
  refine s.transform_eq_ok.mpr ⟨?_, ?_⟩
  · rw [String.toList_ofList]
    by_contra hoccurs
    have hself : s.rewrite (a ++ (t ++ b)) = a ++ (t ++ b) :=
      rewrite_eq_self (Bool.eq_false_iff.mpr hoccurs)
    rw [hrewrite] at hself
    simp [changes.symm] at hself
  · rw [String.toList_ofList, hrewrite, normalize_around firm]

theorem transform_around {s : Substitution} (k : Context) (h : s.Takes t t')
    (changes : t ≠ t') (firm : Firm t') :
    s.rule.transform (k.around t) = .ok (k.around t') := by
  have htransform := transform_between h changes firm k.before_plain k.after_plain
  rwa [k.before_spaced, k.after_spaced] at htransform

/-- A substitution that works is offered, if the expansion of the return finds no series and
the law of total expectation no line feed. -/
theorem offered (s : Substitution) {e out : String} (h : s.rule.transform e = .ok out)
    (hseries : s = .series → ¬ Latex.seriesHead.toList <:+: e.toList)
    (hline : s = .nextState → '\n' ∉ e.toList) : s.rule.applies e = .ok true := by
  have hoccurs := (s.transform_eq_ok.mp h).1
  cases s with
  | expectedReturn => exact congrArg Except.ok hoccurs
  | series =>
      have hholds : holds Latex.seriesHead e.toList = false := by
        rw [Bool.eq_false_iff, ne_eq, holds_iff]
        exact hseries rfl
      have happlies : (returnPattern.occursIn e.toList && !holds Latex.seriesHead e.toList) =
          true := by
        rw [hholds, Bool.not_false, Bool.and_true]
        exact hoccurs
      exact congrArg Except.ok happlies
  | recursion => exact congrArg Except.ok hoccurs
  | unrolled =>
      have happlies : (holds Latex.seriesHead e.toList || holds Latex.seriesReward e.toList) =
          true := by
        rw [offers_of_unroll hoccurs, Bool.true_or]
      exact congrArg Except.ok happlies
  | reward => exact congrArg Except.ok hoccurs
  | nextState => exact totalExpectation_applies_of_one_line (hline rfl) h
  | nextValue =>
      obtain ⟨hopen, hnext⟩ := offers_of_substitution hoccurs
      have happlies : (holds Latex.expectation e.toList &&
          nextConditionPattern.occursIn e.toList) = true := by
        rw [hopen, hnext, Bool.and_true]
      exact congrArg Except.ok happlies

end Substitution

/-- The right-hand side of the equation, as the derivation comes to it. -/
def rightSide : String :=
  "r(s) + \\gamma\\,\\sum_\x7bs'\x7d p(s'\\mid s)\\,v(s')"

/-- The two ways to write the return as the sum of a reward and a rest. -/
inductive Way where
  | series
  | recursion
deriving DecidableEq

namespace Way

/-- The return as a sum. -/
def sum : Way → Written
  | series => .ofUnrolled
  | recursion => .ofRecursion

/-- The rest, from the present state. -/
def rest : Way → Written
  | series => .ofShifted
  | recursion => .ofNext

/-- The rest, from the next state. -/
def restFromNext : Way → Written
  | series => .shiftedFromNext
  | recursion => .nextFromNext

/-- The discounted sum over the next states. -/
def overNext : List Char :=
  Written.sign ++ (Latex.stateSum ++ " " ++ Latex.transition ++ Latex.thin).toList

/-- The lines of the derivation between the sum and the right-hand side. -/
def split (way : Way) : List Char :=
  Written.ofReward.text ++ (Written.sign ++ way.rest.text)

def rewarded (way : Way) : List Char :=
  "r(s)".toList ++ (Written.sign ++ way.rest.text)

def conditioned (way : Way) : List Char :=
  "r(s)".toList ++ (overNext ++ way.restFromNext.text)

theorem firm (way : Way) : Firm way.split ∧ Firm way.rewarded ∧ Firm way.conditioned := by
  cases way <;> decide

theorem firm_rightSide : Firm rightSide.toList := by
  decide

/-- What the rules behind splitting find nothing in. -/
private theorem takes_fixed (s : Substitution) : s.Takes "r(s)".toList "r(s)".toList ∧
    s.Takes Written.sign Written.sign ∧ s.Takes overNext overNext := by
  have havoids : ∀ s ∈ Substitution.all, ∀ f ∈ s.pattern.forms, Avoids f "r(s)".toList ∧
      Avoids f (visible Written.sign) ∧ Avoids f (visible overNext) := by
    decide
  exact ⟨s.takes_of_avoids fun f hf => (havoids s s.mem_all f hf).1,
    s.takes_of_avoids fun f hf => (havoids s s.mem_all f hf).2.1,
    s.takes_of_avoids fun f hf => (havoids s s.mem_all f hf).2.2⟩

private theorem takes_reward (way : Way) :
    Substitution.reward.Takes way.split way.rewarded := by
  have hreward := Substitution.reward.takes_written .ofReward
  have hrest := Substitution.reward.takes_written way.rest
  have hnothing : Written.afterText .reward .ofReward = "r(s)".toList := List.append_nil _
  have hsame : Written.afterText .reward way.rest = way.rest.text := by cases way <;> rfl
  rw [hnothing] at hreward
  rw [hsame] at hrest
  exact hreward.append ((takes_fixed _).2.1.append hrest)

private theorem takes_nextState (way : Way) :
    Substitution.nextState.Takes way.rewarded way.conditioned := by
  have hrest := Substitution.nextState.takes_written way.rest
  have hline : way.conditioned =
      "r(s)".toList ++ (Written.sign ++ Written.afterText .nextState way.rest) := by
    rw [conditioned, overNext, List.append_assoc]
    cases way <;> rfl
  rw [hline]
  exact (takes_fixed _).1.append ((takes_fixed _).2.1.append hrest)

private theorem takes_nextValue (way : Way) :
    Substitution.nextValue.Takes way.conditioned rightSide.toList := by
  have hrest := Substitution.nextValue.takes_written way.restFromNext
  have hline : rightSide.toList =
      "r(s)".toList ++ (overNext ++ Written.afterText .nextValue way.restFromNext) := by
    cases way <;> decide
  rw [hline]
  exact (takes_fixed _).1.append ((takes_fixed _).2.2.append hrest)

end Way

/-- Splitting works in a context. -/
theorem linearity_around (k : Context) (way : Way) :
    Leads [linearity] (k.around way.sum.text) (k.around way.split) := by
  have hmark : '\\' ∉ k.before := k.before_plain _ (by decide)
  have hsummand : way.sum.summand = some way.rest := by cases way <;> rfl
  obtain ⟨inside, condition, summand, hsplit, hwritten⟩ :=
    Written.splitAs_of_summand hsummand k.after
  have hout := (hsplit.append hmark).splitExpectation_eq
  rw [List.append_nil, hwritten, ← Context.toList_around] at hout
  refine Leads.single (congrArg Except.ok (offers_of_split hout))
    (linearity_eq_ok.mpr ⟨_, hout, ?_⟩)
  rw [← Way.split, k.normalize_around way.firm.1]
  rfl

/-- From the sum the derivation comes to the right-hand side. -/
theorem leads_of_sum (k : Context) (way : Way) :
    Leads [linearity, defineReward, totalExpectation, valueSubstitution]
      (k.around way.sum.text) (k.around rightSide.toList) := by
  have hchanges : way.split ≠ way.rewarded ∧ way.rewarded ≠ way.conditioned ∧
      way.conditioned ≠ rightSide.toList := by
    cases way <;> decide
  have hline : '\n' ∉ (k.around way.rewarded).toList := by
    have hrewarded : '\n' ∉ way.rewarded := by cases way <;> decide
    have hcontext := k.one_line
    simp only [Context.toList_around, List.mem_append, not_or] at hcontext ⊢
    exact ⟨hcontext.1, hrewarded, hcontext.2⟩
  have hreward := Substitution.transform_around k way.takes_reward hchanges.1 way.firm.2.1
  have htotal := Substitution.transform_around k way.takes_nextState hchanges.2.1 way.firm.2.2
  have hvalue := Substitution.transform_around k way.takes_nextValue hchanges.2.2
    Way.firm_rightSide
  refine (linearity_around k way).trans (.step ?_ hreward (.step ?_ htotal (.single ?_ hvalue)))
  · exact Substitution.reward.offered hreward (by simp) (by simp)
  · exact Substitution.nextState.offered htotal (by simp) fun _ => hline
  · exact Substitution.nextValue.offered hvalue (by simp) (by simp)

/-- No series stands in the expectation of the return or in the context. -/
private theorem seriesHead_not_infix (k : Context) :
    ¬ Latex.seriesHead.toList <:+: (k.around Written.ofReturn.text).toList := by
  have avoids_plain {a : List Char} (ha : Plain a) : Avoids Latex.seriesHead.toList a :=
    Avoids.of_head (c := '\\') (by decide) (ha _ (by decide))
  have avoids_text : Avoids Latex.seriesHead.toList Written.ofReturn.text := by decide
  intro h
  rw [Context.toList_around, ← List.append_nil k.after] at h
  have hnil := (avoids_plain k.after_plain).stands_behind
    (avoids_text.stands_behind ((avoids_plain k.before_plain).stands_behind h))
  exact absurd (List.infix_nil.mp hnil) (by decide)

theorem leads_of_return_series (k : Context) :
    Leads [defReturn, unrollReturn] (k.around Written.ofReturn.text)
      (k.around Way.series.sum.text) := by
  have hseries := Substitution.transform_around k (Substitution.series.takes_written .ofReturn)
    (by decide) (Written.firm .ofSeries)
  have hunrolled := Substitution.transform_around k
    (Substitution.unrolled.takes_written .ofSeries) (by decide) (Written.firm .ofUnrolled)
  refine .step ?_ hseries (.single ?_ hunrolled)
  · exact Substitution.series.offered hseries (fun _ => seriesHead_not_infix k) (by simp)
  · exact Substitution.unrolled.offered hunrolled (by simp) (by simp)

theorem leads_of_return_recursion (k : Context) :
    Leads [recursiveReturn] (k.around Written.ofReturn.text)
      (k.around Way.recursion.sum.text) := by
  have hrecursion := Substitution.transform_around k
    (Substitution.recursion.takes_written .ofReturn) (by decide)
    (Written.firm .ofRecursion)
  exact .single (Substitution.recursion.offered hrecursion (by simp) (by simp)) hrecursion

/-- The value is expanded where it stands, which spaces the context. -/
theorem leads_of_value {pre post : String} (hpre : Plain pre.toList) (hpost : Plain post.toList) :
    Leads [defValue] (pre ++ "v(s)" ++ post)
      ((Context.spaced pre.toList post.toList hpre hpost).around Written.ofReturn.text) := by
  have htakes : Substitution.expectedReturn.Takes "v(s)".toList Written.ofReturn.text := by
    intro cs
    have hread : valuePattern.read? ("v(s)".toList ++ cs) = some ("v(s)".toList, cs) := rfl
    have hrewrite := Substitution.expectedReturn.solid.rewrite_around (a := [])
      (by simp [Avoids]) hread Substitution.expectedReturn.replacement
    have htext : Substitution.expectedReturn.replacement "v(s)".toList =
        Written.ofReturn.text := by
      decide
    rwa [htext] at hrewrite
  have hvalue := Substitution.transform_between htakes (by decide)
    (Written.firm .ofReturn) hpre hpost
  have hstart : String.ofList (pre.toList ++ ("v(s)".toList ++ post.toList)) =
      pre ++ "v(s)" ++ post := by
    simp only [String.ofList_append, String.ofList_toList, String.append_assoc]
  rw [hstart] at hvalue
  exact .single (Substitution.expectedReturn.offered hvalue (by simp) (by simp)) hvalue

/-- The equation is completed in an empty context only: what is read as a right-hand side has
no more visible characters than this one. -/
theorem assembleBellman_around (k : Context) :
    assembleBellman.transform (k.around rightSide.toList) =
      if k.before = [] ∧ k.after = [] then .ok Latex.bellmanEquation
      else .error (.missing .rightSide) := by
  split
  next hempty =>
    have halone : k.around rightSide.toList = rightSide := by
      rw [Context.around, hempty.1, hempty.2, List.nil_append, List.append_nil,
        String.ofList_toList]
    rw [halone]
    exact assembleBellman_eq_ok.mpr
      ⟨Latex.bellmanEquation.toList, by decide, by decide⟩
  next hcontext =>
    have hlength : ∀ f ∈ rightSidePattern.forms,
        f.length ≤ (visible rightSide.toList).length := by
      decide
    have hnone : assemble (k.around rightSide.toList).toList = .error .rightSide := by
      unfold assemble
      split
      next m hread =>
        have hform := hlength _ (visible_mem_forms (matches_of_read? hread))
        have hm := append_of_read? hread
        rw [Context.toList_around, k.normalize_around Way.firm_rightSide, List.append_nil] at hm
        rw [← hm, visible_append, visible_append, List.length_append, List.length_append] at hform
        refine absurd ⟨?_, ?_⟩ hcontext
        · rw [← k.before_spaced, normalizeBefore_eq_nil]
          exact visible_eq_nil.mp (List.length_eq_zero_iff.mp (by omega))
        · rw [← k.after_spaced, normalizeAfter_eq_nil]
          exact visible_eq_nil.mp (List.length_eq_zero_iff.mp (by omega))
      next => rfl
    simp only [assembleBellman, rule, hnone]

/-- The lecture's derivation works in any context in which no pattern begins: up to the last
rule every rule is offered and rewrites, and what it comes to is the right-hand side in the
spaced context. So it does on the way by the recursion of the return. The last rule completes
the equation if the context is blank, and refuses otherwise. -/
theorem lecture_in_context {pre post : String} (hpre : ∀ c ∈ marks, c ∉ pre.toList)
    (hpost : ∀ c ∈ marks, c ∉ post.toList) :
    (∃ path, suggestedPath = path ++ [assembleBellman] ∧
      Leads path (pre ++ "v(s)" ++ post) (normalSpacing (pre ++ rightSide ++ post))) ∧
    Leads [defValue, recursiveReturn, linearity, defineReward, totalExpectation,
      valueSubstitution] (pre ++ "v(s)" ++ post) (normalSpacing (pre ++ rightSide ++ post)) ∧
    assembleBellman.transform (normalSpacing (pre ++ rightSide ++ post)) =
      if (pre.toList ++ post.toList).all isBlank then .ok Latex.bellmanEquation
      else .error (.missing .rightSide) := by
  have hout : normalSpacing (pre ++ rightSide ++ post) =
      (Context.spaced pre.toList post.toList hpre hpost).around rightSide.toList := by
    rw [normalSpacing, String.toList_append, String.toList_append, List.append_assoc,
      normalize_around Way.firm_rightSide]
    rfl
  have hblank : (normalizeBefore pre.toList = [] ∧ normalizeAfter post.toList = []) ↔
      (pre.toList ++ post.toList).all isBlank = true := by
    rw [normalizeBefore_eq_nil, normalizeAfter_eq_nil, List.all_eq_true, List.forall_mem_append]
  have hvalue := leads_of_value hpre hpost
  rw [hout]
  refine ⟨⟨[defValue] ++ ([defReturn, unrollReturn] ++ [linearity, defineReward,
    totalExpectation, valueSubstitution]), rfl, ?_⟩, ?_, ?_⟩
  · exact hvalue.trans ((leads_of_return_series _).trans (leads_of_sum _ .series))
  · exact hvalue.trans ((leads_of_return_recursion _).trans (leads_of_sum _ .recursion))
  · rw [assembleBellman_around]
    exact if_congr hblank rfl rfl

/-- In brackets over two lines the derivation stops before the last rule. -/
theorem lecture_in_brackets :
    (∀ c ∈ marks, c ∉ "[2 +\n".toList) ∧ (∀ c ∈ marks, c ∉ " ]".toList) ∧
      Leads [defValue, recursiveReturn, linearity, defineReward, totalExpectation,
        valueSubstitution] "[2 +\nv(s) ]"
        "[2 + r(s) + \\gamma\\,\\sum_\x7bs'\x7d p(s'\\mid s)\\,v(s') ]" ∧
      assembleBellman.transform
        "[2 + r(s) + \\gamma\\,\\sum_\x7bs'\x7d p(s'\\mid s)\\,v(s') ]" =
          .error (.missing .rightSide) := by
  have hpre : ∀ c ∈ marks, c ∉ "[2 +\n".toList := by simp [marks]
  have hpost : ∀ c ∈ marks, c ∉ " ]".toList := by simp [marks]
  obtain ⟨-, hleads, hlast⟩ := lecture_in_context hpre hpost
  have hout : normalSpacing ("[2 +\n" ++ rightSide ++ " ]") =
      "[2 + r(s) + \\gamma\\,\\sum_\x7bs'\x7d p(s'\\mid s)\\,v(s') ]" := by
    decide
  rw [hout] at hleads hlast
  rw [if_neg (by decide)] at hlast
  exact ⟨hpre, hpost, hleads, hlast⟩

end Bellman.Catalog
