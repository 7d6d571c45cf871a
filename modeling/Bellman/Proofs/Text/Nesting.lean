import Bellman.Proofs.Text.Replacement

/-!
# Nested brackets

The brackets of a text are nested when each of them closes the last one that is open and none
stays open. Reading a text keeps the brackets that are due, innermost first; what a nested
piece of text leaves behind is what was due before it.
-/

namespace Bellman.Text

variable {a cs due due' : List Char} {c d : Char}

/-- The bracket that closes a group, by the bracket that opens it. -/
def closer? : Char → Option Char
  | '(' => some ')'
  | '[' => some ']'
  | '\x7b' => some '\x7d'
  | _ => none

/-- The brackets that close a group. -/
def closers : List Char :=
  [')', ']', '\x7d']

theorem isBlank_of_mem_closers (hc : c ∈ closers) : isBlank c = false := by
  simp only [closers, List.mem_cons, List.not_mem_nil, or_false] at hc
  obtain rfl | rfl | rfl := hc <;> rfl

/-- A text whose brackets are balanced and properly nested. -/
inductive WellNested : List Char → Prop where
  | nil : WellNested []
  | char {c : Char} {cs : List Char} (opens : closer? c = none) (closes : c ∉ closers)
      (rest : WellNested cs) : WellNested (c :: cs)
  | group {o d : Char} {inner cs : List Char} (pair : closer? o = some d)
      (inside : WellNested inner) (rest : WellNested cs) : WellNested (o :: (inner ++ d :: cs))

/-- The brackets due after a character, if it does not close the wrong one. -/
def meet (due : List Char) (c : Char) : Option (List Char) :=
  match closer? c with
  | some d => some (d :: due)
  | none =>
      if c ∈ closers then
        if due.head? = some c then some due.tail else none
      else some due

/-- The brackets due after a text. -/
def pending : List Char → List Char → Option (List Char)
  | due, [] => some due
  | due, c :: cs => (meet due c).bind (pending · cs)

theorem pending_cons (due : List Char) (c : Char) (cs : List Char) :
    pending due (c :: cs) = (meet due c).bind (pending · cs) := rfl

theorem meet_opener (h : closer? c = some d) : meet due c = some (d :: due) := by
  simp [meet, h]

theorem meet_char (opens : closer? c = none) (closes : c ∉ closers) : meet due c = some due := by
  simp [meet, opens, closes]

theorem meet_closer (opens : closer? c = none) (closes : c ∈ closers) :
    meet due c = some due' ↔ due = c :: due' := by
  simp only [meet, opens, closes, if_true]
  cases due with
  | nil => simp
  | cons d due =>
      by_cases hd : d = c
      · simp [hd, eq_comm]
      · simp [hd]

theorem pending_append (due a cs : List Char) :
    pending due (a ++ cs) = (pending due a).bind (pending · cs) := by
  induction a generalizing due with
  | nil => rfl
  | cons c a ih =>
      rw [List.cons_append, pending_cons, pending_cons]
      cases meet due c with
      | none => rfl
      | some due' => exact ih due'

/-- A character opens a group, closes one or does neither. -/
theorem bracket_cases (c : Char) :
    (∃ d, closer? c = some d) ∨ (closer? c = none ∧ c ∈ closers) ∨
      (closer? c = none ∧ c ∉ closers) := by
  cases h : closer? c with
  | some d => exact .inl ⟨d, rfl⟩
  | none =>
      by_cases hc : c ∈ closers
      · exact .inr (.inl ⟨rfl, hc⟩)
      · exact .inr (.inr ⟨rfl, hc⟩)

theorem closer_mem (h : closer? c = some d) : closer? d = none ∧ d ∈ closers := by
  unfold closer? at h
  split at h
  next => exact Option.some.inj h ▸ ⟨rfl, by decide⟩
  next => exact Option.some.inj h ▸ ⟨rfl, by decide⟩
  next => exact Option.some.inj h ▸ ⟨rfl, by decide⟩
  next => cases h

/-- Blanks are no brackets. -/
theorem meet_blank (h : isBlank c = true) : meet due c = some due := by
  refine meet_char ?_ ?_
  · unfold closer?
    split
    next => cases h
    next => cases h
    next => cases h
    next => rfl
  · intro hc
    rw [isBlank_of_mem_closers hc] at h
    cases h

@[simp] theorem pending_visible (due cs : List Char) :
    pending due (visible cs) = pending due cs := by
  induction cs generalizing due with
  | nil => rfl
  | cons c cs ih =>
      rw [visible_cons, pending_cons]
      split
      next hc =>
        rw [meet_blank hc]
        exact ih due
      next =>
        rw [pending_cons]
        cases meet due c with
        | none => rfl
        | some due' => exact ih due'

/-- Behind a nested text is due what was due before it. -/
theorem WellNested.pending (h : WellNested cs) (due : List Char) : pending due cs = some due := by
  induction h generalizing due with
  | nil => rfl
  | char opens closes rest ih =>
      rw [pending_cons, meet_char opens closes]
      exact ih due
  | @group o d inner cs pair inside rest ihinside ih =>
      obtain ⟨opens, closes⟩ := closer_mem pair
      have hclosed : meet (d :: due) d = some due := (meet_closer opens closes).mpr rfl
      rw [pending_cons, meet_opener pair, Option.bind_some, pending_append, ihinside,
        Option.bind_some, pending_cons, hclosed]
      exact ih due

/-- A text that closes the brackets due and has nested brackets in between. -/
inductive Closes : List Char → List Char → Prop where
  | done {cs : List Char} (rest : WellNested cs) : Closes [] cs
  | next {d : Char} {due inner cs : List Char} (inside : WellNested inner)
      (rest : Closes due cs) : Closes (d :: due) (inner ++ d :: cs)

theorem Closes.char (opens : closer? c = none) (closes : c ∉ closers) (h : Closes due cs) :
    Closes due (c :: cs) := by
  cases h with
  | done rest => exact .done (.char opens closes rest)
  | next inside rest => exact .next (.char opens closes inside) rest

theorem Closes.group (pair : closer? c = some d) (h : Closes (d :: due) cs) :
    Closes due (c :: cs) := by
  cases h with
  | next inside rest =>
      cases rest with
      | done rest => exact .done (.group pair inside rest)
      | @next d' due inner cs inside' rest =>
          have hgroup := Closes.next (d := d') (.group pair inside inside') rest
          simpa using hgroup

theorem closes_of_pending (h : pending due cs = some []) : Closes due cs := by
  induction cs generalizing due with
  | nil =>
      obtain rfl := Option.some.inj h
      exact .done .nil
  | cons c cs ih =>
      rw [pending_cons] at h
      obtain ⟨due', hmeet, hrest⟩ := Option.bind_eq_some_iff.mp h
      obtain ⟨d, hopen⟩ | ⟨opens, closes⟩ | ⟨opens, closes⟩ := bracket_cases c
      · rw [meet_opener hopen] at hmeet
        obtain rfl := Option.some.inj hmeet
        exact (ih hrest).group hopen
      · obtain rfl := (meet_closer opens closes).mp hmeet
        exact .next .nil (ih hrest)
      · rw [meet_char opens closes] at hmeet
        obtain rfl := Option.some.inj hmeet
        exact (ih hrest).char opens closes

/-- A text is nested if nothing is due at its end. -/
theorem wellNested_iff : WellNested cs ↔ pending [] cs = some [] := by
  constructor
  · intro h
    exact h.pending []
  · intro h
    cases closes_of_pending h with
    | done rest => exact rest

instance (cs : List Char) : Decidable (WellNested cs) :=
  decidable_of_iff _ wellNested_iff.symm

@[simp] theorem wellNested_visible : WellNested (visible cs) ↔ WellNested cs := by
  rw [wellNested_iff, wellNested_iff, pending_visible]

/-- How many brackets a text opens beyond those that it closes depends on the text alone. -/
theorem length_pending {x x' : List Char} (h : pending due cs = some x)
    (h' : pending due' cs = some x') : x.length + due'.length = x'.length + due.length := by
  induction cs generalizing due due' with
  | nil =>
      obtain rfl := Option.some.inj h
      obtain rfl := Option.some.inj h'
      exact Nat.add_comm _ _
  | cons c cs ih =>
      obtain ⟨y, hmeet, hrest⟩ := Option.bind_eq_some_iff.mp h
      obtain ⟨y', hmeet', hrest'⟩ := Option.bind_eq_some_iff.mp h'
      have hlater := ih hrest hrest'
      obtain ⟨d, hopen⟩ | ⟨opens, closes⟩ | ⟨opens, closes⟩ := bracket_cases c
      · rw [meet_opener hopen] at hmeet hmeet'
        obtain rfl := Option.some.inj hmeet
        obtain rfl := Option.some.inj hmeet'
        simp only [List.length_cons] at hlater
        omega
      · obtain rfl := (meet_closer opens closes).mp hmeet
        obtain rfl := (meet_closer opens closes).mp hmeet'
        simp only [List.length_cons]
        omega
      · rw [meet_char opens closes] at hmeet hmeet'
        obtain rfl := Option.some.inj hmeet
        obtain rfl := Option.some.inj hmeet'
        exact hlater

/-- A text without a closing bracket leaves that bracket and all below it as they are. -/
theorem pending_above {x : List Char} (hd : d ∉ cs) (h : pending (a ++ d :: due) cs = some x) :
    ∃ y, pending a cs = some y ∧ x = y ++ d :: due := by
  induction cs generalizing a with
  | nil =>
      obtain rfl := Option.some.inj h
      exact ⟨a, rfl, rfl⟩
  | cons c cs ih =>
      rw [List.mem_cons, not_or] at hd
      obtain ⟨z, hmeet, hrest⟩ := Option.bind_eq_some_iff.mp h
      obtain ⟨b, hopen⟩ | ⟨opens, closes⟩ | ⟨opens, closes⟩ := bracket_cases c
      · rw [meet_opener hopen] at hmeet
        obtain rfl := Option.some.inj hmeet
        obtain ⟨y, hy, rfl⟩ := ih (a := b :: a) hd.2 hrest
        exact ⟨y, by rw [pending_cons, meet_opener hopen]; exact hy, rfl⟩
      · have hdue := (meet_closer opens closes).mp hmeet
        cases a with
        | nil => exact absurd (List.cons.inj hdue).1 hd.1
        | cons b a =>
            obtain ⟨rfl, rfl⟩ := List.cons.inj hdue
            obtain ⟨y, hy, rfl⟩ := ih hd.2 hrest
            refine ⟨y, ?_, rfl⟩
            rw [pending_cons, (meet_closer opens closes).mpr rfl]
            exact hy
      · rw [meet_char opens closes] at hmeet
        obtain rfl := Option.some.inj hmeet
        obtain ⟨y, hy, rfl⟩ := ih hd.2 hrest
        exact ⟨y, by rw [pending_cons, meet_char opens closes]; exact hy, rfl⟩

/-- Pieces that give way to pieces with the same brackets do not matter. -/
theorem Replaces.pending_eq {R : List Char → List Char → Prop} {n : Nat} {s t : List Char}
    (h : Replaces R n s t) (hR : ∀ f g, R f g → ∀ due, pending due f = pending due g)
    (due : List Char) : pending due s = pending due t := by
  induction h generalizing due with
  | nil => rfl
  | keep c rest ih =>
      rw [pending_cons, pending_cons]
      cases meet due c with
      | none => rfl
      | some due' => exact ih due'
  | @piece f g n s t replaced rest ih =>
      rw [pending_append, pending_append, hR f g replaced]
      cases pending due g with
      | none => rfl
      | some due' => exact ih due'

end Bellman.Text
