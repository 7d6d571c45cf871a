import Bellman.Proofs.Derivation.Justified

/-!
# A derivation is a line of steps with undo

Whatever is asked of a derivation, its steps stay one line that begins with the start step,
and the cursor stays on the line. A new step ends the line after the active one, so going
back undoes it: only what the new step cut away is lost. Moving and asking leave the line
alone. What is refused is refused for its own sake, before anything is changed.
-/

namespace Bellman

/-- A rule is unknown exactly when no rule of the list has its id. -/
theorem Rule.withId_eq_error {rules : List Rule} {id : String} {e : UnknownRule} :
    withId rules id = .error e ↔ (∀ r ∈ rules, r.id ≠ id) ∧ e = ⟨id⟩ := by
  unfold withId
  split
  next r hr =>
    have hmem : r ∈ rules := List.mem_of_find?_eq_some hr
    have hid : r.id = id := by simpa using List.find?_some hr
    simpa using fun h => absurd hid (h r hmem)
  next hnone =>
    have hall : ∀ r ∈ rules, r.id ≠ id := by simpa using hnone
    constructor
    · rintro ⟨⟩
      exact ⟨hall, rfl⟩
    · rintro ⟨-, rfl⟩
      rfl

namespace Derivation

variable {d d' : Derivation} {a : Action} {e : Error} {index : Int}

theorem cursor_goTo (h : d.goTo index = .ok d') :
    0 ≤ index ∧ index < d.steps.length ∧ d'.cursor = index.toNat := by
  cases index with
  | negSucc i => cases h
  | ofNat i =>
      simp only [goTo] at h
      split at h
      next s future hdrop =>
        cases h
        have hlt : i < d.steps.length := by
          have hlen := congrArg List.length hdrop
          rw [List.length_drop, List.length_cons] at hlen
          omega
        refine ⟨Int.natCast_nonneg i, by simpa using hlt, ?_⟩
        show (d.steps.take i).reverse.length = i
        rw [List.length_reverse, List.length_take, Nat.min_eq_left hlt.le]
      next => cases h

theorem exists_goTo (h₀ : 0 ≤ index) (h : index < d.steps.length) :
    ∃ d', d.goTo index = .ok d' := by
  cases index with
  | negSucc i => exact absurd h₀ (by omega)
  | ofNat i =>
      have hi : i < d.steps.length := by simpa using h
      simp only [goTo, List.drop_eq_getElem_cons hi]
      exact ⟨_, rfl⟩

/-- Going to an index moves the cursor there, if there is a step, and does nothing else. -/
theorem after_goTo (d : Derivation) (index : Int) :
    (d.after (.goTo index)).steps = d.steps ∧ (d.after (.goTo index)).rules = d.rules ∧
      (d.after (.goTo index)).cursor =
        if 0 ≤ index ∧ index < d.steps.length then index.toNat else d.cursor := by
  cases h : d.goTo index with
  | ok d' =>
      have hafter : d.after (.goTo index) = d' := by simp [after, perform, h, Except.map]
      obtain ⟨hsteps, hrules, -⟩ := steps_goTo h
      obtain ⟨h₀, hlt, hcursor⟩ := cursor_goTo h
      rw [hafter, if_pos ⟨h₀, hlt⟩]
      exact ⟨hsteps, hrules, hcursor⟩
  | error e =>
      have hafter : d.after (.goTo index) = d := by simp [after, perform, h, Except.map]
      have hrange : ¬ (0 ≤ index ∧ index < d.steps.length) := by
        intro hin
        obtain ⟨d', hd'⟩ := exists_goTo hin.1 hin.2
        rw [h] at hd'
        cases hd'
      rw [hafter, if_neg hrange]
      exact ⟨rfl, rfl, rfl⟩

theorem error_of_goTo (h : d.goTo index = .error e) :
    e = .outOfRange index (d.steps.length - 1) := by
  rw [length_steps]
  cases index with
  | negSucc i => cases h; rfl
  | ofNat i =>
      simp only [goTo] at h
      split at h
      next => cases h
      next => cases h; rfl

/-- An index is refused exactly when no step stands there. -/
theorem goTo_eq_error :
    d.goTo index = .error e ↔
      (index < 0 ∨ d.steps.length ≤ index) ∧ e = .outOfRange index (d.steps.length - 1) := by
  constructor
  · intro h
    refine ⟨?_, error_of_goTo h⟩
    by_contra hin
    have hgo : ∃ d', d.goTo index = .ok d' := exists_goTo (by omega) (by omega)
    simp [h] at hgo
  · rintro ⟨hout, rfl⟩
    cases h : d.goTo index with
    | ok d' =>
        obtain ⟨h₀, hlt, -⟩ := cursor_goTo h
        omega
    | error e => rw [error_of_goTo h]

/-- An action that cannot be done, with the reason: no rule has the id, or no step stands at
the index. -/
inductive Refuses (d : Derivation) : Action → Error → Prop where
  | unknown {ruleId : String} (h : ∀ r ∈ d.rules, r.id ≠ ruleId) :
      Refuses d (.apply ruleId) (.unknownRule ⟨ruleId⟩)
  | outside {index : Int} (h : index < 0 ∨ d.steps.length ≤ index) :
      Refuses d (.goTo index) (.outOfRange index (d.steps.length - 1))

/-- Nothing else is refused, and nothing for another reason. -/
theorem perform_eq_error : d.perform a = .error e ↔ Refuses d a e := by
  cases a with
  | apply ruleId =>
      have hrefuses : Refuses d (.apply ruleId) e ↔
          (∀ r ∈ d.rules, r.id ≠ ruleId) ∧ e = .unknownRule ⟨ruleId⟩ := by
        constructor
        · rintro ⟨h⟩
          exact ⟨h, rfl⟩
        · rintro ⟨h, rfl⟩
          exact .unknown h
      rw [hrefuses]
      cases hr : Rule.withId d.rules ruleId with
      | ok r =>
          have hid := Rule.id_of_withId hr
          simpa [perform, apply, hr, Except.map] using fun h => absurd hid.2 (h r hid.1)
      | error u =>
          obtain ⟨hall, rfl⟩ := Rule.withId_eq_error.mp hr
          simpa [perform, apply, hr, Except.map, @eq_comm _ e] using fun _ => hall
  | goTo index =>
      have hrefuses : Refuses d (.goTo index) e ↔
          (index < 0 ∨ d.steps.length ≤ index) ∧ e = .outOfRange index (d.steps.length - 1) := by
        constructor
        · rintro ⟨h⟩
          exact ⟨by assumption, rfl⟩
        · rintro ⟨h, rfl⟩
          exact .outside h
      rw [hrefuses, ← goTo_eq_error]
      cases h : d.goTo index <;> simp [perform, h, Except.map]
  | edit | advance | back | reset | applicable | steps =>
      exact iff_of_false (by rintro ⟨⟩) (by rintro ⟨⟩)

/-- The line ends with a new active step after the one that was active. Going back undoes
this: the step that was active is active again, and all steps up to it are there. -/
structure Extends (d : Derivation) (s : Step) (d' : Derivation) : Prop where
  steps : d'.steps = d.steps.take (d.cursor + 1) ++ [s]
  cursor : d'.cursor = d.cursor + 1
  active : d'.active = s
  back_active : d'.back.active = d.active
  back_cursor : d'.back.cursor = d.cursor
  back_steps : d'.back.steps.take (d.cursor + 1) = d.steps.take (d.cursor + 1)

theorem extends_advance (d : Derivation) (s : Step) : Extends d s (d.advance s) where
  steps := steps_advance d s
  cursor := rfl
  active := rfl
  back_active := rfl
  back_cursor := rfl
  back_steps := by
    have hlen : (d.steps.take (d.cursor + 1)).length = d.cursor + 1 := by
      rw [List.length_take, length_steps]
      exact Nat.min_eq_left d.cursor_lt_size
    rw [steps_back, steps_advance, List.take_append_of_le_length hlen.ge, List.take_take,
      Nat.min_self]

/-- The actions that ask for a further step. -/
def Action.isAddition : Action → Bool
  | .apply _ | .edit .. | .advance _ => true
  | _ => false

/-- The actions that only move the cursor or ask for something. -/
def Action.isVisit : Action → Bool
  | .goTo _ | .back | .applicable | .steps => true
  | _ => false

/-- A further step is put after the active one and given as the answer, unless the rule for
it is unknown. -/
theorem exists_extends (hadd : a.isAddition = true) (h : ∀ e, ¬ Refuses d a e) :
    ∃ s, d.perform a = .ok (d.after a, .step s) ∧ Extends d s (d.after a) := by
  cases a with
  | apply ruleId =>
      cases hr : Rule.withId d.rules ruleId with
      | error u =>
          obtain ⟨hall, -⟩ := Rule.withId_eq_error.mp hr
          exact absurd (.unknown hall) (h _)
      | ok r =>
          have happly : d.apply ruleId = .ok (d.advance (ruleStep r d.active.expression)) := by
            simp [apply, hr]
          refine ⟨ruleStep r d.active.expression, ?_, ?_⟩
          · simp [after, perform, happly, Except.map, advance]
          · simpa [after, perform, happly, Except.map] using extends_advance d _
  | edit expression explanation => exact ⟨_, rfl, extends_advance d _⟩
  | advance s => exact ⟨s, rfl, extends_advance d s⟩
  | _ => cases hadd

/-- What only moves or asks leaves the line of steps as it is. -/
theorem steps_after_of_isVisit (h : a.isVisit = true) : (d.after a).steps = d.steps := by
  cases a with
  | goTo index => exact (after_goTo d index).1
  | back => exact steps_back d
  | applicable => rfl
  | steps => rfl
  | _ => cases h

/-- The line of a derivation begins with its start step, and it has the rules it was given. -/
structure Rooted (rules : List Rule) (start : Step) (d : Derivation) : Prop where
  rules_eq : d.rules = rules
  start_eq : d.start = start
  head : d.steps.head? = some start

theorem rooted_begin (rules : List Rule) (start : Step) :
    Rooted rules start (begin rules start) :=
  ⟨rfl, rfl, rfl⟩

variable {rules : List Rule} {start : Step}

/-- Any one action keeps the beginning of the line. -/
theorem Rooted.after (h : Rooted rules start d) (a : Action) :
    Rooted rules start (d.after a) := by
  rcases after_cases d a with ⟨hsteps, hrules, hstart⟩ | ⟨-, hbegin⟩ | ⟨s, -, hadvance⟩
  · exact ⟨hrules.trans h.rules_eq, hstart.trans h.start_eq, hsteps ▸ h.head⟩
  · rw [hbegin, h.rules_eq, h.start_eq]
    exact rooted_begin rules start
  · rw [hadvance]
    refine ⟨h.rules_eq, h.start_eq, ?_⟩
    rw [steps_advance, List.head?_append_of_ne_nil, List.head?_take, h.head]
    · simp
    · simp [take_cursor_eq]

/-- What one action keeps, a run of actions keeps. -/
theorem Rooted.afterAll (h : Rooted rules start d) (as : List Action) :
    Rooted rules start (d.afterAll as) := by
  induction as generalizing d with
  | nil => exact h
  | cons a as ih => exact ih (h.after a)

/-- After any run the cursor is on the line, and the line begins with the start step. An
action is then refused only because no rule has the id or no step stands at the index, and
changes nothing. A further step ends the line after the active one, where going back undoes
it; moving and asking leave the line alone; starting again leaves the start step only. -/
theorem line_with_undo (rules : List Rule) (start : Step) (as : List Action) (a : Action) :
    let d := (begin rules start).afterAll as
    d.rules = rules ∧ d.cursor < d.steps.length ∧ d.steps[0]? = some start ∧
    (∀ e, d.perform a = .error e ↔ Refuses d a e) ∧
    (∀ e, Refuses d a e → d.after a = d) ∧
    (a.isAddition = true → (∀ e, ¬ Refuses d a e) →
      ∃ s, d.perform a = .ok (d.after a, .step s) ∧ Extends d s (d.after a)) ∧
    (a.isVisit = true → (d.after a).steps = d.steps) ∧
    (a = .reset → (d.after a).steps = [start] ∧ (d.after a).cursor = 0) := by
  intro d
  have hrooted : Rooted rules start d := (rooted_begin rules start).afterAll as
  refine ⟨hrooted.rules_eq, ?_, ?_, fun e => perform_eq_error, fun e he => ?_,
    exists_extends, steps_after_of_isVisit, ?_⟩
  · rw [length_steps]
    exact d.cursor_lt_size
  · exact List.head?_eq_getElem? ▸ hrooted.head
  · simp [after, perform_eq_error.mpr he]
  · rintro rfl
    exact ⟨congrArg (fun s => [s]) hrooted.start_eq, rfl⟩

end Derivation

end Bellman
