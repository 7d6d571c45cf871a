import Bellman.Proofs.Derivation.History
import Bellman.Service.Client

/-!
# A client of the service holds a derivation

The service looks rules up and records failures on its own, and keeps nothing; a derivation
does both itself and keeps everything. That they agree is a simulation: a client and a
derivation have the same steps and the same cursor, so the client sends the expression that
the derivation rewrites, and whatever comes back is the step that the derivation adds.
-/

namespace Bellman

namespace Derivation

/-- The step says that a rule failed. -/
def RecordsFailure (s : Step) : Prop :=
  ∃ name, s.ruleName = some ("Rule failed: " ++ name)

theorem recordsFailure_failedStep (r : Rule) (expression : String) (e : RuleError) :
    RecordsFailure (r.failedStep expression e) :=
  ⟨r.name, rfl⟩

/-- No rule of the catalog is named like a failure. -/
theorem not_recordsFailure_stepTo {r : Rule} (h : r ∈ Catalog.rules) (expression : String) :
    ¬ RecordsFailure (r.stepTo expression) := by
  rintro ⟨name, hname⟩
  have hprefix : "Rule failed: ".toList <+: r.name.toList :=
    ⟨name.toList, by rw [Option.some.inj hname, String.toList_append]⟩
  have hall : Catalog.rules.all fun r => !"Rule failed: ".toList.isPrefixOf r.name.toList := by
    decide +kernel
  have hr := List.all_eq_true.mp hall r h
  rw [List.isPrefixOf_iff_prefix.mpr hprefix] at hr
  cases hr

end Derivation

namespace Service

open Bellman.Derivation (RecordsFailure)

theorem Endpoint.upper_method (e : Endpoint) : Text.upper e.method = e.method := by
  cases e <;> decide +kernel

/-- A request to an endpoint is refused for its body only. -/
theorem respond_request {t : Settings} {e : Endpoint} {body : Option Json} {q : Query}
    (h : readQuery t body e = .ok q) : respond t (e.request body) = answer q := by
  simp [respond, accept, Endpoint.request, Endpoint.upper_method, h]

variable (t : Settings) (expression ruleId : String)

theorem respond_start : respond t Endpoint.start.request = ⟨200, Catalog.startStep.toJson⟩ :=
  respond_request (q := .start) rfl

theorem respond_apply :
    respond t (Endpoint.apply.request
      (some (.object [("expression", .text expression), ("rule_id", .text ruleId)]))) =
      applyAnswer expression ruleId :=
  respond_request (q := .apply expression ruleId) rfl

theorem respond_applicable :
    respond t (Endpoint.applicable.request (some (.object [("expression", .text expression)]))) =
      ⟨200, rulesBody (Rule.applicable Catalog.rules expression)⟩ :=
  respond_request (q := .applicable expression) rfl

/-- What the service answers to a rule: that there is none with this id, the record of its
failure, or the step that it makes. Each is what a derivation does. -/
theorem applyAnswer_cases :
    (∃ e, Rule.withId Catalog.rules ruleId = .error e ∧
      applyAnswer expression ruleId = refusal 404 (.text e.message)) ∨
    ∃ r, Rule.withId Catalog.rules ruleId = .ok r ∧
      let s := Derivation.ruleStep r expression
      (RecordsFailure s ∧ applyAnswer expression ruleId = refusal 422 s.toJson ∨
        ¬ RecordsFailure s ∧ applyAnswer expression ruleId = ⟨200, s.toJson⟩) := by
  cases hr : Rule.withId Catalog.rules ruleId with
  | error e => exact .inl ⟨e, rfl, by simp [applyAnswer, hr]⟩
  | ok r =>
      refine .inr ⟨r, rfl, ?_⟩
      cases htransform : r.transform expression with
      | ok out =>
          obtain ⟨happly, hstep⟩ := Derivation.ruleStep_of_ok htransform
          rw [hstep]
          exact .inr ⟨Derivation.not_recordsFailure_stepTo (Rule.id_of_withId hr).1 out,
            by simp [applyAnswer, hr, happly]⟩
      | error e =>
          obtain ⟨happly, hstep⟩ := Derivation.ruleStep_of_error htransform
          rw [hstep]
          exact .inl ⟨Derivation.recordsFailure_failedStep r expression e,
            by simp [applyAnswer, hr, happly]⟩

namespace Client

/-- A client holds the steps and the cursor of a derivation by the catalog. -/
structure Mirrors (c : Client) (d : Derivation) : Prop where
  rules_eq : d.rules = Catalog.rules
  steps_eq : c.steps = d.steps.map Step.toJson
  cursor_eq : c.cursor = d.cursor

theorem mirrors_begin : Mirrors (begin t) Derivation.begin := by
  refine ⟨rfl, ?_, rfl⟩
  rw [begin, respond_start]
  rfl

namespace Mirrors

variable {t} {c : Client} {d : Derivation}

/-- The client finds the expression of the active step in its own list. -/
theorem expression?_eq (h : Mirrors c d) : c.expression? = some d.active.expression := by
  have hactive : c.steps[c.cursor]? = some d.active.toJson := by
    rw [h.steps_eq, h.cursor_eq, List.getElem?_map, Derivation.steps_cursor]
    rfl
  rw [expression?, hactive]
  rfl

theorem applyAnswer?_eq (h : Mirrors c d) (ruleId : String) :
    c.applyAnswer? t ruleId = some (applyAnswer d.active.expression ruleId) := by
  rw [applyAnswer?, h.expression?_eq, Option.map_some, respond_apply]

theorem applicableAnswer?_eq (h : Mirrors c d) :
    c.applicableAnswer? t = some ⟨200, rulesBody d.applicable⟩ := by
  rw [applicableAnswer?, h.expression?_eq, Option.map_some, respond_applicable,
    Derivation.applicable, h.rules_eq]

/-- Both put a step after the active one and forget what stood there. -/
theorem advance (h : Mirrors c d) (s : Step) : Mirrors (c.advance s.toJson) (d.advance s) := by
  have hsize : d.cursor + 1 ≤ d.size := d.cursor_lt_size
  refine ⟨h.rules_eq, ?_, ?_⟩
  · rw [Client.advance, h.steps_eq, h.cursor_eq, Derivation.steps_advance]
    simp
  · rw [Client.advance, h.steps_eq, h.cursor_eq, Derivation.cursor_advance]
    simp [Nat.min_eq_left hsize]

/-- What the service answers, the derivation does. -/
theorem receive (h : Mirrors c d) (ruleId : String) :
    Mirrors (c.receive (applyAnswer d.active.expression ruleId)) (d.after (.apply ruleId)) := by
  obtain ⟨e, hr, hanswer⟩ | ⟨r, hr, hanswer⟩ :=
    applyAnswer_cases d.active.expression ruleId
  · have hafter : d.after (.apply ruleId) = d := by
      simp [Derivation.after, Derivation.perform, Derivation.apply, h.rules_eq, hr, Except.map]
    rw [hafter, hanswer]
    exact h
  · have hafter : d.after (.apply ruleId) =
        d.advance (Derivation.ruleStep r d.active.expression) := by
      simp [Derivation.after, Derivation.perform, Derivation.apply, h.rules_eq, hr, Except.map]
    rw [hafter]
    obtain ⟨-, hanswer⟩ | ⟨-, hanswer⟩ := hanswer
    · rw [hanswer]
      exact h.advance _
    · rw [hanswer]
      exact h.advance _

/-- One action keeps a client and a derivation together. -/
theorem after (h : Mirrors c d) (a : Action) : Mirrors (c.after t a) (d.after a.onDerivation) := by
  cases a with
  | apply ruleId =>
      simp only [Client.after, h.applyAnswer?_eq]
      exact h.receive ruleId
  | edit expression explanation => exact h.advance _
  | goTo index =>
      obtain ⟨hsteps, hrules, hcursor⟩ := d.after_goTo index
      have hlen : c.steps.length = d.steps.length := by rw [h.steps_eq, List.length_map]
      simp only [Client.after, Action.onDerivation, hlen]
      split
      next hin =>
        rw [if_pos hin] at hcursor
        exact ⟨hrules.trans h.rules_eq, hsteps ▸ h.steps_eq, hcursor.symm⟩
      next hout =>
        rw [if_neg hout] at hcursor
        exact ⟨hrules.trans h.rules_eq, hsteps ▸ h.steps_eq, hcursor ▸ h.cursor_eq⟩
  | back =>
      have hrules : d.back.rules = d.rules := by
        unfold Derivation.back
        split <;> rfl
      refine ⟨hrules.trans h.rules_eq, ?_, ?_⟩
      · show c.steps = d.back.steps.map Step.toJson
        rw [Derivation.steps_back, h.steps_eq]
      · show c.cursor - 1 = d.back.cursor
        rw [Derivation.cursor_back, h.cursor_eq]

/-- What one action keeps, a run of actions keeps. -/
theorem afterAll (h : Mirrors c d) (as : List Action) :
    Mirrors (c.afterAll t as) (d.afterAll (as.map Action.onDerivation)) := by
  induction as generalizing c d with
  | nil => exact h
  | cons a as ih => exact ih (h.after a)

end Mirrors

/-- After every run a client of the service holds what a derivation by the catalog holds
after the same run: each step as JSON, and the cursor. On its active step a rule is unknown
to the service exactly when it is to the derivation, in the same words, and fails there
exactly when the derivation records that it fails; and the service offers the rules that the
derivation offers. -/
theorem run_eq_derivation (as : List Action) :
    (run t as).steps = (derivation as).steps.map Step.toJson ∧
    (run t as).cursor = (derivation as).cursor ∧
    (∀ ruleId, ∃ r, (run t as).applyAnswer? t ruleId = some r ∧
      (r.status = 404 ↔ ∃ e, (derivation as).apply ruleId = .error (.unknownRule e)) ∧
      (∀ e, (derivation as).apply ruleId = .error e → r.detail? = some (.text e.message)) ∧
      (r.status = 422 ↔
        ∃ d, (derivation as).apply ruleId = .ok d ∧ RecordsFailure d.active) ∧
      (r.status = 200 ↔
        ∃ d, (derivation as).apply ruleId = .ok d ∧ ¬ RecordsFailure d.active)) ∧
    (run t as).applicableAnswer? t = some ⟨200, rulesBody (derivation as).applicable⟩ := by
  have h : Mirrors (run t as) (derivation as) := (mirrors_begin t).afterAll as
  refine ⟨h.steps_eq, h.cursor_eq, fun ruleId => ?_, h.applicableAnswer?_eq⟩
  refine ⟨_, h.applyAnswer?_eq ruleId, ?_⟩
  obtain ⟨e, hr, hanswer⟩ | ⟨r, hr, hanswer⟩ :=
    applyAnswer_cases (derivation as).active.expression ruleId
  · have happly : (derivation as).apply ruleId = .error (.unknownRule e) := by
      simp [Derivation.apply, h.rules_eq, hr]
    rw [hanswer, happly]
    refine ⟨?_, ?_, ?_, ?_⟩
    · simp [refusal]
    · rintro _ ⟨⟩
      rfl
    · simp [refusal]
    · simp [refusal]
  · have happly : (derivation as).apply ruleId =
        .ok ((derivation as).advance
          (Derivation.ruleStep r (derivation as).active.expression)) := by
      simp [Derivation.apply, h.rules_eq, hr]
    have hactive (s : Step) : ((derivation as).advance s).active = s := rfl
    rw [happly]
    obtain ⟨hfailed, hanswer⟩ | ⟨hmade, hanswer⟩ := hanswer
    · rw [hanswer]
      simp [refusal, hactive, hfailed]
    · rw [hanswer]
      simp [hactive, hmade]

end Client

end Service

end Bellman
