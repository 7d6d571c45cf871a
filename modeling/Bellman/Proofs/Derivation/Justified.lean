import Bellman.Derivation
import Mathlib.Data.List.Chain

/-!
# Every step of a derivation is justified

A step that a user did not put in as it stands is a hand edit, what the first rule with
some id makes of the step before it, or the record of such a rule failing on that step.
The invariant is about neighbours in the line of steps: only the active step and a new
step ever become neighbours, and a new step is justified by the active one, so cutting
the line, moving the cursor and starting again keep it.
-/

namespace Bellman

/-- The rule is in the list, and none before it has its id. -/
def Rule.FirstWithId (rules : List Rule) (r : Rule) : Prop :=
  ∃ earlier later, rules = earlier ++ r :: later ∧ ∀ q ∈ earlier, q.id ≠ r.id

theorem Rule.firstWithId_of_withId {rules : List Rule} {id : String} {r : Rule}
    (h : withId rules id = .ok r) : FirstWithId rules r := by
  have hid := (id_of_withId h).2
  unfold withId at h
  split at h
  next q hq =>
    cases h
    obtain ⟨-, earlier, later, rfl, hearlier⟩ := List.find?_eq_some_iff_append.mp hq
    refine ⟨earlier, later, rfl, fun q hq heq => ?_⟩
    have hne := hearlier q hq
    simp [heq, hid] at hne
  next => cases h

namespace Derivation

/-- The step that comes next is accounted for by the rules and by the step before it. -/
inductive Justified (rules : List Rule) (s t : Step) : Prop where
  /-- The user edited the expression. -/
  | edited (ruleId : t.ruleId = none) (ruleName : t.ruleName = some "Manual edit")
  /-- A rule rewrote the expression. -/
  | rewritten (r : Rule) (first : r.FirstWithId rules)
      (expression : r.transform s.expression = .ok t.expression)
      (ruleId : t.ruleId = some r.id) (ruleName : t.ruleName = some r.name)
      (explanation : t.explanation = some r.explanation)
  /-- A rule failed, and the expression was carried over. -/
  | failed (r : Rule) (first : r.FirstWithId rules) (e : RuleError)
      (transform : r.transform s.expression = .error e)
      (expression : t.expression = s.expression) (ruleId : t.ruleId = none)
      (ruleName : t.ruleName = some ("Rule failed: " ++ r.name))
      (explanation : t.explanation = some e.message)

/-- Where the transform gives an expression, the step is the one to it. -/
theorem ruleStep_of_ok {r : Rule} {expression out : String}
    (h : r.transform expression = .ok out) :
    r.apply expression = .ok (r.stepTo out) ∧ ruleStep r expression = r.stepTo out := by
  simp [ruleStep, Rule.apply, h, Except.map]

/-- Where the transform fails, the step records it. -/
theorem ruleStep_of_error {r : Rule} {expression : String} {e : RuleError}
    (h : r.transform expression = .error e) :
    r.apply expression = .error e ∧ ruleStep r expression = r.failedStep expression e := by
  simp [ruleStep, Rule.apply, h, Except.map]

theorem justified_ruleStep {rules : List Rule} {r : Rule} (h : r.FirstWithId rules)
    (s : Step) : Justified rules s (ruleStep r s.expression) := by
  cases htransform : r.transform s.expression with
  | ok out =>
      rw [(ruleStep_of_ok htransform).2]
      exact .rewritten r h htransform rfl rfl rfl
  | error e =>
      rw [(ruleStep_of_error htransform).2]
      exact .failed r h e htransform rfl rfl rfl rfl

variable {d d' : Derivation} {a : Action}

/-- Moving the cursor leaves the steps as they are. -/
theorem steps_goTo {index : Int} (h : d.goTo index = .ok d') :
    d'.steps = d.steps ∧ d'.rules = d.rules ∧ d'.start = d.start := by
  cases index with
  | negSucc i => cases h
  | ofNat i =>
      simp only [goTo] at h
      split at h
      next s future hdrop =>
        cases h
        refine ⟨?_, rfl, rfl⟩
        change (d.steps.take i).reverse.reverse ++ s :: future = d.steps
        rw [List.reverse_reverse, ← hdrop, List.take_append_drop]
      next => cases h

/-- The step that an action puts after the active one, if it does. -/
inductive Adds (d : Derivation) : Action → Step → Prop where
  | apply {ruleId : String} {r : Rule} (h : Rule.withId d.rules ruleId = .ok r) :
      Adds d (.apply ruleId) (ruleStep r d.active.expression)
  | edit (expression : String) (explanation : Option String) :
      Adds d (.edit expression explanation) (editStep expression explanation)
  | advance (s : Step) : Adds d (.advance s) s

/-- All that an action can do: it keeps the line of steps, begins it again, or puts one
step after the active one in place of what stood there. -/
theorem after_cases (d : Derivation) (a : Action) :
    ((d.after a).steps = d.steps ∧ (d.after a).rules = d.rules ∧
      (d.after a).start = d.start) ∨
    (a = .reset ∧ d.after a = begin d.rules d.start) ∨
    ∃ s, Adds d a s ∧ d.after a = d.advance s := by
  cases a with
  | apply ruleId =>
      cases h : Rule.withId d.rules ruleId with
      | ok r => exact .inr (.inr ⟨_, .apply h, by simp [after, perform, apply, h, Except.map]⟩)
      | error e => exact .inl (by simp [after, perform, apply, h, Except.map])
  | edit expression explanation => exact .inr (.inr ⟨_, .edit .., rfl⟩)
  | advance s => exact .inr (.inr ⟨s, .advance s, rfl⟩)
  | goTo index =>
      left
      cases h : d.goTo index with
      | ok d' => simpa [after, perform, h, Except.map] using steps_goTo h
      | error e => simp [after, perform, h, Except.map]
  | back =>
      refine .inl ⟨steps_back d, ?_⟩
      change d.back.rules = _ ∧ d.back.start = _
      unfold back
      split <;> exact ⟨rfl, rfl⟩
  | reset => exact .inr (.inl ⟨rfl, rfl⟩)
  | applicable => exact .inl ⟨rfl, rfl, rfl⟩
  | steps => exact .inl ⟨rfl, rfl, rfl⟩

/-- The line begins with the start step, and every step justifies the next. -/
structure Sound (rules : List Rule) (start : Step) (d : Derivation) : Prop where
  rules_eq : d.rules = rules
  start_eq : d.start = start
  head : d.steps.head? = some start
  justified : d.steps.IsChain (Justified rules)

theorem sound_begin (rules : List Rule) (start : Step) :
    Sound rules start (begin rules start) :=
  ⟨rfl, rfl, rfl, .singleton _⟩

variable {rules : List Rule} {start : Step}

/-- The steps up to the active one, which a new step is put after. -/
theorem take_cursor_eq (d : Derivation) :
    d.steps.take (d.cursor + 1) = d.past.reverse ++ [d.active] := by
  have hpast : d.past.reverse.take (d.past.length + 1) = d.past.reverse :=
    List.take_of_length_le (by simp)
  simp [steps, cursor, List.take_append, hpast]

/-- A step that the active one justifies may follow it. -/
theorem Sound.advance (h : Sound rules start d) {s : Step}
    (hs : Justified rules d.active s) : Sound rules start (d.advance s) := by
  refine ⟨h.rules_eq, h.start_eq, ?_, ?_⟩
  · rw [steps_advance, List.head?_append_of_ne_nil, List.head?_take, h.head]
    · simp
    · simp [take_cursor_eq]
  · rw [steps_advance]
    refine (h.justified.take _).append (.singleton s) fun x hx y hy => ?_
    rw [take_cursor_eq, List.getLast?_concat] at hx
    cases hx
    cases hy
    exact hs

/-- An action that does not hand in a step of its own keeps all steps justified. -/
theorem Sound.after (h : Sound rules start d) (ha : ∀ s, a ≠ .advance s) :
    Sound rules start (d.after a) := by
  rcases after_cases d a with ⟨hsteps, hrules, hstart⟩ | ⟨-, hbegin⟩ | ⟨s, hadds, hafter⟩
  · exact ⟨hrules.trans h.rules_eq, hstart.trans h.start_eq, hsteps ▸ h.head,
      hsteps ▸ h.justified⟩
  · rw [hbegin, h.rules_eq, h.start_eq]
    exact sound_begin rules start
  · rw [hafter]
    apply h.advance
    cases hadds with
    | apply hr =>
        rw [h.rules_eq] at hr
        exact justified_ruleStep (Rule.firstWithId_of_withId hr) d.active
    | edit => exact .edited rfl rfl
    | advance => exact absurd rfl (ha s)

/-- What one action keeps, a run of actions keeps. -/
theorem Sound.afterAll {as : List Action} (h : Sound rules start d)
    (has : ∀ a ∈ as, ∀ s, a ≠ .advance s) : Sound rules start (d.afterAll as) := by
  induction as generalizing d with
  | nil => exact h
  | cons a as ih =>
      exact ih (h.after (has a List.mem_cons_self)) fun b hb => has b (List.mem_cons_of_mem _ hb)

/-- Whatever the rules do, and whatever a user asks for short of handing in a step, the
line of steps begins where it should and each of its steps is a hand edit, the work of
the first rule with its id on the step before, or the record of such a rule failing
there. -/
theorem steps_justified (rules : List Rule) (start : Step) (as : List Action)
    (has : ∀ a ∈ as, ∀ s, a ≠ .advance s) :
    ((begin rules start).afterAll as).steps[0]? = some start ∧
      ∀ i s t, ((begin rules start).afterAll as).steps[i]? = some s →
        ((begin rules start).afterAll as).steps[i + 1]? = some t → Justified rules s t := by
  have hsound := (sound_begin rules start).afterAll has
  refine ⟨List.head?_eq_getElem? ▸ hsound.head, fun i s t hs ht => ?_⟩
  obtain ⟨hi, rfl⟩ := List.getElem?_eq_some_iff.mp hs
  obtain ⟨hi', rfl⟩ := List.getElem?_eq_some_iff.mp ht
  exact List.isChain_iff_getElem.mp hsound.justified i hi'

/-- A run with a failing rule, an unknown one and an index outside the line; the failure
was cut away and is not among the steps. -/
theorem steps_justified_of_run :
    (∀ a ∈ [Action.apply "linearity", .apply "?", .back, .apply "def-value", .goTo 9],
      ∀ s, a ≠ .advance s) ∧
    Justified Catalog.rules Catalog.startStep
      (Catalog.defValue.stepTo "\\mathbb\x7bE\x7d[G_t\\mid S_t=s]") := by
  have has : ∀ a ∈ [Action.apply "linearity", .apply "?", .back, .apply "def-value", .goTo 9],
      ∀ s, a ≠ .advance s := by simp
  have h := (steps_justified Catalog.rules Catalog.startStep _ has).2 0
  exact ⟨has, h _ _ (by decide +kernel) (by decide +kernel)⟩

end Derivation

end Bellman
