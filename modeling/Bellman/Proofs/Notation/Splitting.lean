import Bellman.Proofs.Notation.Expression
import Bellman.Proofs.Notation.Spelling
import Bellman.Proofs.Rule.Transform

/-!
# Splitting an expectation in a text

`linearity` looks for fixed texts: the first opening, the first bar behind it and the first
bracket behind that. In the tokens of a formula every bar begins a whole condition, so what
comes out is the row of tokens in which the inside of the first expectation, up to its
discount factor, has got a condition and an opening of its own. Everything behind it stays
as it was, which need not be what belongs to the second summand.
-/

namespace Bellman.Notation

open Text Pattern Catalog

/-- What stands behind a token in a formula: a term behind an opening, and the rest of a
condition behind a bar. -/
def Fits : Token → List Token → Prop
  | .mark .opening, rest => ¬ Level.term.Ends rest
  | .mark .bar, rest => condition <+: .mark .bar :: rest
  | _, _ => True

/-- Every opening and every bar of a row is followed by what it asks for. -/
def WellMarked : List Token → Prop
  | [] => True
  | t :: ts => Fits t ts ∧ WellMarked ts

theorem WellMarked.fits {T U : List Token} {t : Token} (h : WellMarked (T ++ t :: U)) :
    Fits t U := by
  induction T with
  | nil => exact h.1
  | cons t' T ih => exact ih h.2

private theorem wellMarked_symbols {xs : List Symbol} {ts : List Token} (h : WellMarked ts) :
    WellMarked (symbols xs ++ ts) := by
  induction xs with
  | nil => exact h
  | cons x xs ih =>
      refine ⟨?_, ih⟩
      cases x <;> trivial

private theorem wellMarked_condition {ts : List Token} (h : WellMarked ts) :
    WellMarked (condition ++ ts) :=
  ⟨⟨ts, rfl⟩, trivial, trivial, trivial, trivial, h⟩

/-- In a formula the tokens between a bar and the next bracket are the condition. -/
theorem eq_presentState_of_wellMarked {T S V : List Token} (hS : .mark .closing ∉ S)
    (h : WellMarked (T ++ .mark .bar :: (S ++ .mark .closing :: V))) : S = presentState := by
  obtain ⟨V', hV'⟩ := h.fits
  have parts : presentState ++ .mark .closing :: V' = S ++ .mark .closing :: V := by
    simpa [condition] using hV'
  exact (eq_of_first (by simp [presentState]) hS parts).1.symm

namespace Expression

/-- A formula begins neither with a bar nor with a plus. -/
theorem not_ends {l : Level} (f : Expression l) (ts : List Token) :
    ¬ Level.term.Ends (f.tokens ++ ts) := by
  have symbol : ∀ (x : Symbol) (us : List Token), ¬ Level.term.Ends (x.token :: us) := by
    intro x us h
    rcases h _ rfl with h | h <;> cases x <;> cases h
  induction f generalizing ts with
  | constant x xs => exact symbol x _
  | atom before a after =>
      rw [atom_append]
      cases before with
      | nil =>
          intro h
          rcases h _ rfl with h | h <;> cases a <;> cases h
      | cons x xs => exact symbol x _
  | expected before inside after _ =>
      rw [expected_append]
      cases before with
      | nil =>
          intro h
          rcases h _ rfl with h | h <;> cases h
      | cons x xs => exact symbol x _
  | single t ih => exact ih ts
  | add t f ih _ =>
      rw [add_append]
      exact ih _

theorem wellMarked_append {l : Level} (f : Expression l) {ts : List Token}
    (h : WellMarked ts) : WellMarked (f.tokens ++ ts) := by
  induction f generalizing ts with
  | constant x xs => exact wellMarked_symbols h
  | atom before a after =>
      rw [atom_append]
      refine wellMarked_symbols ⟨?_, wellMarked_symbols h⟩
      cases a <;> trivial
  | expected before inside after ih =>
      rw [expected_append]
      refine wellMarked_symbols ⟨inside.not_ends _, ?_⟩
      exact ih (wellMarked_condition (wellMarked_symbols h))
  | single t ih => exact ih h
  | add t f iht ihf =>
      rw [add_append]
      exact iht ⟨trivial, ihf h⟩

theorem wellMarked {l : Level} (f : Expression l) : WellMarked f.tokens := by
  have h : WellMarked (f.tokens ++ []) := f.wellMarked_append trivial
  rwa [List.append_nil] at h

end Expression

namespace Spells

theorem of_blanks {ts : List Token} {bs cs : List Char} (hb : ∀ c ∈ bs, isBlank c = true)
    (h : Spells ts (bs ++ cs)) : Spells ts cs := by
  induction bs with
  | nil => exact h
  | cons b bs ih =>
      exact ih (fun c hc => hb c (List.mem_cons_of_mem b hc))
        (h.of_blank (hb b List.mem_cons_self))

/-- What is read as a discounted sum spells the reward, a plus, the discount factor and
what the second summand is taken to be. -/
theorem of_discounted? {ts : List Token} {inside summand : List Char} (h : Spells ts inside)
    (read : discounted? inside = some summand) :
    ∃ U, ts = .mark .reward :: .mark .plus :: .mark .discount :: U ∧ Spells U summand := by
  unfold discounted? at read
  split at read
  · cases read
  · next m rest hm =>
      obtain rfl := append_of_read? hm
      obtain ⟨_, b₃, rfl, ⟨_, _, rfl, rfl, b₁, _, rfl, blank₁, _, _, rfl, rfl, b₂, _, rfl,
        blank₂, rfl⟩, blank₃⟩ := matches_of_read? hm
      simp only [List.append_assoc] at h
      obtain ⟨ts₁, rfl, h, -⟩ := of_mark (m := .reward) h
      obtain ⟨ts₂, rfl, h, -⟩ := of_mark (m := .plus) (h.of_blanks blank₁)
      obtain ⟨ts₃, rfl, h, -⟩ := of_mark (m := .discount) (h.of_blanks blank₂)
      refine ⟨ts₃, rfl, ?_⟩
      have h := h.of_blanks blank₃
      split at read
      · cases read
      · split at read
        · next thin =>
            obtain ⟨cs, rfl⟩ := List.isPrefixOf_iff_prefix.1 thin
            obtain rfl := Option.some.inj read
            split
            · exact h.trim
            · rw [show Latex.thin.length = Latex.thin.toList.length from rfl, List.drop_left]
              exact h.of_thin.trim
        · obtain rfl := Option.some.inj read
          exact h.trim

/-- An expectation is written from the texts of its parts. -/
theorem expect {U V : List Token} {inside given rest : List Char} (hu : Spells U inside)
    (hs : Spells presentState given) (hv : Spells V rest) :
    Spells (.mark .opening :: (U ++ (condition ++ V))) (expect inside given ++ rest) := by
  have closed : Spells (.mark .closing :: V) ("]".toList ++ rest) :=
    .token (.mark .closing) (.of_isWord_eq_false rfl _) hv
  have stated : Spells (presentState ++ .mark .closing :: V) (given ++ ("]".toList ++ rest)) :=
    hs.append closed rfl
  have barred : Spells (condition ++ V)
      (Mark.bar.text ++ (' ' :: (given ++ ("]".toList ++ rest)))) := by
    rw [condition, List.cons_append, List.append_assoc]
    exact .token (.mark .bar) (fun _ => rfl) (.blank (by decide) stated)
  have whole := Spells.token (.mark .opening) (.of_isWord_eq_false rfl _)
    (hu.append barred rfl)
  have text : Catalog.expect inside given ++ rest = Mark.opening.text ++ (inside ++
      (Mark.bar.text ++ (' ' :: (given ++ ("]".toList ++ rest))))) := by
    simp [Catalog.expect, Mark.text]
  rw [text]
  exact whole

/-- What is written between the two expectations. -/
theorem discounted {U : List Token} {cs : List Char} (h : Spells U cs) :
    Spells (.mark .plus :: .mark .discount :: U)
      ((" + " ++ Latex.discount ++ Latex.thin).toList ++ cs) := by
  have text : (" + " ++ Latex.discount ++ Latex.thin).toList ++ cs =
      ' ' :: (Mark.plus.text ++ (' ' :: (Mark.discount.text ++ (Latex.thin.toList ++ cs)))) :=
    rfl
  rw [text]
  refine .blank (by decide) (.token (.mark .plus) (.of_isWord_eq_false rfl _) ?_)
  exact .blank (by decide) (.token (.mark .discount) (fun _ => rfl) (.thin h))

/-- The split text spells the tokens in which the first expectation is closed behind the
reward and opened again behind the discount factor. -/
theorem splitExpectation {ts : List Token} {cs out : List Char} (h : Spells ts cs)
    (marked : WellMarked ts) (run : splitExpectation cs = .ok out) :
    ∃ T U, .mark .opening ∉ T ∧
      ts = T ++ .mark .opening :: .mark .reward :: .mark .plus :: .mark .discount :: U ∧
      Spells (T ++ .mark .opening :: .mark .reward :: (condition ++
        .mark .plus :: .mark .discount :: .mark .opening :: U)) out := by
  unfold Catalog.splitExpectation at run
  split at run
  · cases run
  · next before inner cut =>
    obtain ⟨T, ts₁, rfl, hT, hbefore, h⟩ := h.of_splitAt? Mark.cuts_opening cut
    split at run
    · cases run
    · next inside conditioned cut =>
      obtain ⟨I, ts₂, rfl, -, hinside, h⟩ := h.of_splitAt? Mark.cuts_bar cut
      split at run
      · cases run
      · next given after cut =>
        obtain ⟨S, V, rfl, hS, hgiven, hafter⟩ := h.of_splitAt? Mark.cuts_closing cut
        split at run
        · cases run
        · next summand read =>
          obtain rfl := Except.ok.inj run
          obtain ⟨U, rfl, hsummand⟩ := hinside.trim.of_discounted? read
          have row : WellMarked ((T ++ .mark .opening :: .mark .reward :: .mark .plus ::
              .mark .discount :: U) ++ .mark .bar :: (S ++ .mark .closing :: V)) := by
            simpa using marked
          obtain rfl := eq_presentState_of_wellMarked hS row
          refine ⟨T, U ++ (condition ++ V), hT, by simp [condition], ?_⟩
          have second := hsummand.expect hgiven.trim hafter
          have reward : Spells [.mark .reward] Latex.nextReward.toList := by
            have := Spells.token (.mark .reward) (.of_isWord_eq_false rfl []) .nil
            rwa [List.append_nil] at this
          have whole := hbefore.append (reward.expect hgiven.trim second.discounted) rfl
          simpa using whole

end Spells

/-- What the rule returns on the text of a formula spells the split tokens. -/
theorem splits_of_linearity {f : Formula} {e out : String} (h : Spells f.tokens e.toList)
    (run : linearity.transform e = .ok out) :
    ∃ T U, .mark .opening ∉ T ∧
      f.tokens =
        T ++ .mark .opening :: .mark .reward :: .mark .plus :: .mark .discount :: U ∧
      Spells (T ++ .mark .opening :: .mark .reward :: (condition ++
        .mark .plus :: .mark .discount :: .mark .opening :: U)) out.toList := by
  obtain ⟨cs, split, rfl⟩ := transform_rule_eq_ok.1 run
  obtain ⟨T, U, hT, tokens, spelled⟩ := h.splitExpectation f.wellMarked split
  refine ⟨T, U, hT, tokens, ?_⟩
  rw [String.toList_ofList]
  exact spelled.normalize

end Bellman.Notation
