import Bellman.Proofs.Notation.Token

/-!
# Formulas about returns

A sum is a nonempty row of terms. A term is a constant, an atom or an expectation, with
scalars written before and after it; scalars bind tighter than `+`, and there are no
parentheses. All expectations are conditioned on the present state.

A formula is read off its tokens in one way only. The induction is on the formula and
carries what may stand behind it: a bar or nothing behind a sum, and also a plus behind a
term.
-/

namespace Bellman.Notation

/-- A scalar: the discount factor or a free name. -/
inductive Symbol where
  | discount
  | free (n : Name)

/-- How a scalar is written. -/
def Symbol.token : Symbol → Token
  | .discount => .mark .discount
  | .free n => .name n

/-- The rewards and returns that formulas are about. -/
inductive Atom where
  | reward
  | presentReturn
  | nextReturn
deriving DecidableEq, Repr

/-- How an atom is written. -/
def Atom.mark : Atom → Mark
  | .reward => .reward
  | .presentReturn => .presentReturn
  | .nextReturn => .nextReturn

/-- Whether an expression is one term or a sum of terms. -/
inductive Level where
  | term
  | sum

/-- Terms and sums of terms. -/
inductive Expression : Level → Type where
  | constant (x : Symbol) (xs : List Symbol) : Expression .term
  | atom (before : List Symbol) (a : Atom) (after : List Symbol) : Expression .term
  | expected (before : List Symbol) (inside : Expression .sum) (after : List Symbol) :
      Expression .term
  | single (t : Expression .term) : Expression .sum
  | add (t : Expression .term) (f : Expression .sum) : Expression .sum

/-- A summand of a formula. -/
abbrev Term := Expression .term

/-- A formula is a sum of terms. -/
abbrev Formula := Expression .sum

/-- The tokens of scalars in a row. -/
def symbols (xs : List Symbol) : List Token :=
  xs.map Symbol.token

/-- The condition that expectations have. -/
def presentState : List Token :=
  [.mark .state, .mark .equals, .name (.letter 's' rfl)]

/-- The end of an expectation, from its bar to its bracket. -/
def condition : List Token :=
  .mark .bar :: (presentState ++ [.mark .closing])

namespace Expression

/-- The tokens of an expression. -/
def tokens : {l : Level} → Expression l → List Token
  | _, constant x xs => symbols (x :: xs)
  | _, atom before a after => symbols before ++ .mark a.mark :: symbols after
  | _, expected before inside after =>
      symbols before ++ .mark .opening :: (inside.tokens ++ (condition ++ symbols after))
  | _, single t => t.tokens
  | _, add t f => t.tokens ++ .mark .plus :: f.tokens

end Expression

theorem Symbol.token_injective : Function.Injective Symbol.token := by
  intro x y h
  cases x <;> cases y <;> simp_all [Symbol.token]

theorem Atom.mark_injective : Function.Injective Atom.mark := by
  intro a b h
  cases a <;> cases b <;> simp_all [Atom.mark]

@[simp] theorem symbols_nil : symbols [] = [] :=
  rfl

@[simp] theorem symbols_cons (x : Symbol) (xs : List Symbol) :
    symbols (x :: xs) = x.token :: symbols xs :=
  rfl

/-- No scalar stands at the start of these tokens. -/
def NoSymbol (ts : List Token) : Prop :=
  ∀ x : Symbol, ts.head? ≠ some x.token

/-- The scalars at the start of a row of tokens are decided by the row. -/
theorem symbols_append_inj {xs ys : List Symbol} {ts us : List Token} (hts : NoSymbol ts)
    (hus : NoSymbol us) (h : symbols xs ++ ts = symbols ys ++ us) : xs = ys ∧ ts = us := by
  induction xs generalizing ys with
  | nil =>
      cases ys with
      | nil => exact ⟨rfl, h⟩
      | cons y ys =>
          refine absurd ?_ (hts y)
          rw [show ts = _ from h]
          rfl
  | cons x xs ih =>
      cases ys with
      | nil =>
          refine absurd ?_ (hus x)
          rw [← show _ = us from h]
          rfl
      | cons y ys =>
          obtain ⟨hxy, h⟩ := List.cons.inj h
          obtain ⟨rfl, rfl⟩ := ih h
          rw [Symbol.token_injective hxy]
          exact ⟨rfl, rfl⟩

/-- What may stand behind an expression of a level. -/
def Level.Ends : Level → List Token → Prop
  | .term, ts => ∀ t ∈ ts.head?, t = .mark .bar ∨ t = .mark .plus
  | .sum, ts => ∀ t ∈ ts.head?, t = .mark .bar

theorem Level.Ends.noSymbol {l : Level} {ts : List Token} (h : l.Ends ts) : NoSymbol ts := by
  intro x hx
  cases l with
  | term => rcases h _ hx with h | h <;> cases x <;> cases h
  | sum =>
      have h := h _ hx
      cases x <;> cases h

theorem Level.Ends.term {ts : List Token} (h : Level.sum.Ends ts) : Level.term.Ends ts :=
  fun t ht => .inl (h t ht)

theorem noSymbol_mark {m : Mark} (h : m ≠ .discount) (ts : List Token) :
    NoSymbol (.mark m :: ts) := by
  intro x hx
  cases x with
  | discount => exact h (Token.mark.inj (Option.some.inj hx))
  | free n => cases hx

/-- A mark that neither is a scalar nor may end an expression, so that a term with it is no
row of scalars. -/
def Mark.IsCore (m : Mark) : Prop :=
  m ≠ .discount ∧ m ≠ .bar ∧ m ≠ .plus

theorem Mark.isCore_opening : Mark.opening.IsCore :=
  ⟨by decide, by decide, by decide⟩

theorem Atom.isCore_mark (a : Atom) : a.mark.IsCore := by
  cases a <;> exact ⟨by decide, by decide, by decide⟩

/-- A row of scalars with its end is no row of scalars with a core. -/
theorem symbols_append_ne {l : Level} {xs ys : List Symbol} {ts us : List Token} {m : Mark}
    (hts : l.Ends ts) (hm : m.IsCore) : symbols xs ++ ts ≠ symbols ys ++ .mark m :: us := by
  intro h
  obtain ⟨-, rfl⟩ := symbols_append_inj hts.noSymbol (noSymbol_mark hm.1 us) h
  cases l with
  | term =>
      rcases hts _ rfl with bar | plus
      · exact hm.2.1 (Token.mark.inj bar)
      · exact hm.2.2 (Token.mark.inj plus)
  | sum => exact hm.2.1 (Token.mark.inj (hts _ rfl))

/-- Scalars and the core behind them are decided by the row. -/
theorem symbols_append_core_inj {xs ys : List Symbol} {ts us : List Token} {m m' : Mark}
    (hm : m.IsCore) (hm' : m'.IsCore)
    (h : symbols xs ++ .mark m :: ts = symbols ys ++ .mark m' :: us) :
    xs = ys ∧ m = m' ∧ ts = us := by
  obtain ⟨rfl, core⟩ := symbols_append_inj (noSymbol_mark hm.1 ts) (noSymbol_mark hm'.1 us) h
  obtain ⟨mark, rest⟩ := List.cons.inj core
  exact ⟨rfl, Token.mark.inj mark, rest⟩

theorem ends_plus (ts : List Token) : Level.term.Ends (.mark .plus :: ts) := by
  intro t ht
  exact .inr (Option.some.inj ht).symm

theorem ends_condition (ts : List Token) : Level.sum.Ends (condition ++ ts) := by
  intro t ht
  exact (Option.some.inj ht).symm

namespace Expression

theorem atom_append (b : List Symbol) (a : Atom) (c : List Symbol) (ts : List Token) :
    (atom b a c).tokens ++ ts = symbols b ++ .mark a.mark :: (symbols c ++ ts) := by
  simp [tokens]

theorem expected_append (b : List Symbol) (f : Formula) (c : List Symbol) (ts : List Token) :
    (expected b f c).tokens ++ ts =
      symbols b ++ .mark .opening :: (f.tokens ++ (condition ++ (symbols c ++ ts))) := by
  simp [tokens]

theorem add_append (t : Term) (f : Formula) (ts : List Token) :
    (add t f).tokens ++ ts = t.tokens ++ .mark .plus :: (f.tokens ++ ts) := by
  simp [tokens]

/-- An expression and what stands behind it are decided by the tokens of both. -/
theorem eq_of_tokens_append {l : Level} {f g : Expression l} {ts us : List Token}
    (hts : l.Ends ts) (hus : l.Ends us) (h : f.tokens ++ ts = g.tokens ++ us) :
    f = g ∧ ts = us := by
  induction f generalizing ts us with
  | constant x xs =>
      cases g with
      | constant y ys =>
          obtain ⟨hxy, rfl⟩ := symbols_append_inj hts.noSymbol hus.noSymbol h
          obtain ⟨rfl, rfl⟩ := List.cons.inj hxy
          exact ⟨rfl, rfl⟩
      | atom b a c =>
          rw [atom_append] at h
          exact absurd h (symbols_append_ne hts a.isCore_mark)
      | expected b g c =>
          rw [expected_append] at h
          exact absurd h (symbols_append_ne hts Mark.isCore_opening)
  | atom b a c =>
      rw [atom_append] at h
      cases g with
      | constant y ys => exact absurd h.symm (symbols_append_ne hus a.isCore_mark)
      | atom b' a' c' =>
          rw [atom_append] at h
          obtain ⟨rfl, mark, rest⟩ := symbols_append_core_inj a.isCore_mark a'.isCore_mark h
          obtain rfl := Atom.mark_injective mark
          obtain ⟨rfl, rfl⟩ := symbols_append_inj hts.noSymbol hus.noSymbol rest
          exact ⟨rfl, rfl⟩
      | expected b' g c' =>
          rw [expected_append] at h
          obtain ⟨-, mark, -⟩ := symbols_append_core_inj a.isCore_mark Mark.isCore_opening h
          cases a <;> cases mark
  | expected b f c ih =>
      rw [expected_append] at h
      cases g with
      | constant y ys => exact absurd h.symm (symbols_append_ne hus Mark.isCore_opening)
      | atom b' a' c' =>
          rw [atom_append] at h
          obtain ⟨-, mark, -⟩ := symbols_append_core_inj Mark.isCore_opening a'.isCore_mark h
          cases a' <;> cases mark
      | expected b' g c' =>
          rw [expected_append] at h
          obtain ⟨rfl, -, inside⟩ :=
            symbols_append_core_inj Mark.isCore_opening Mark.isCore_opening h
          obtain ⟨rfl, rest⟩ := ih (ends_condition _) (ends_condition _) inside
          obtain ⟨rfl, rfl⟩ := symbols_append_inj hts.noSymbol hus.noSymbol
            (List.append_cancel_left rest)
          exact ⟨rfl, rfl⟩
  | single t ih =>
      cases g with
      | single t' =>
          obtain ⟨rfl, rfl⟩ := ih hts.term hus.term h
          exact ⟨rfl, rfl⟩
      | add t' g =>
          rw [add_append] at h
          obtain ⟨-, rfl⟩ := ih hts.term (ends_plus _) h
          cases hts _ rfl
  | add t f iht ihf =>
      rw [add_append] at h
      cases g with
      | single t' =>
          obtain ⟨-, rfl⟩ := iht (ends_plus _) hus.term h
          cases hus _ rfl
      | add t' g =>
          rw [add_append] at h
          obtain ⟨rfl, rest⟩ := iht (ends_plus _) (ends_plus _) h
          obtain ⟨rfl, rfl⟩ := ihf hts hus (List.cons.inj rest).2
          exact ⟨rfl, rfl⟩

/-- Two formulas with the same tokens are the same formula. -/
theorem tokens_injective {l : Level} {f g : Expression l} (h : f.tokens = g.tokens) :
    f = g := by
  have nothing : l.Ends [] := by cases l <;> simp [Level.Ends]
  exact (eq_of_tokens_append nothing nothing (by rw [h])).1

end Expression

end Bellman.Notation
