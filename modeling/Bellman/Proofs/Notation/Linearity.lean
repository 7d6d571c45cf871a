import Bellman.Proofs.Notation.Splitting
import Bellman.Proofs.Notation.Value
import Mathlib.Tactic.Ring

/-!
# Linearity of expectation in a formula

The tokens that `linearity` writes are those of a formula when the discount factor is the
first scalar of a second summand. That formula has, for the first expectation, the
expectation of the reward and the discounted expectation of all the rest. Scalars in front
of the expectation are left with the reward, scalars behind it with the rest, and summands
behind the second one are discounted with it: the value is kept exactly where there are
none of these.
-/

namespace Bellman.Notation

open Catalog

namespace Expression

/-- The first expectation that no other one contains, with the scalars around it. -/
def firstExpected : {l : Level} → Expression l → Option (List Symbol × Formula × List Symbol)
  | _, constant _ _ => none
  | _, atom _ _ _ => none
  | _, expected before inside after => some (before, inside, after)
  | _, single t => t.firstExpected
  | _, add t f => t.firstExpected.or f.firstExpected

/-- The sum with another sum in place of the term of the first expectation. -/
def withFirst : {l : Level} → Expression l → Formula → Formula
  | _, constant x xs, _ => single (constant x xs)
  | _, atom before a after, _ => single (atom before a after)
  | _, expected _ _ _, r => r
  | _, single t, r => t.withFirst r
  | _, add t f, r =>
      if t.firstExpected.isSome then (t.withFirst r).plus f else add t (f.withFirst r)

private theorem opening_not_mem_symbols (xs : List Symbol) :
    .mark .opening ∉ symbols xs := by
  intro mem
  obtain ⟨x, -, hx⟩ := List.mem_map.1 mem
  cases x <;> cases hx

/-- A term without an expectation has no opening. -/
private theorem opening_not_mem_of_none {t : Term} (none : t.firstExpected = none) :
    .mark .opening ∉ t.tokens := by
  intro mem
  cases t with
  | constant x xs => exact opening_not_mem_symbols (x :: xs) mem
  | atom b a c =>
      rcases List.mem_append.1 mem with h | h
      · exact opening_not_mem_symbols b h
      · rcases List.mem_cons.1 h with h | h
        · cases a <;> cases h
        · exact opening_not_mem_symbols c h
  | expected b g c => cases none

/-- The first opening of a row is not in a part that has none. -/
private theorem of_append_eq {α : Type} {a : α} {xs ys T W : List α} (hx : a ∉ xs)
    (h : xs ++ ys = T ++ a :: W) : ∃ T', T = xs ++ T' ∧ ys = T' ++ a :: W := by
  rcases List.append_eq_append_iff.1 h with ⟨T', rfl, hys⟩ | ⟨zs, rfl, hzs⟩
  · exact ⟨T', rfl, hys⟩
  · cases zs with
    | nil => exact ⟨[], by simp, by simpa using hzs.symm⟩
    | cons z zs =>
        obtain ⟨rfl, -⟩ := List.cons.inj hzs
        exact absurd (by simp) hx

/-- The tokens before and behind the first opening are those around the first expectation
and those of its parts, and putting another sum for it keeps the ones around. -/
def OpensAt {l : Level} (f : Expression l) (T W : List Token) : Prop :=
  ∃ before inside after P Q, f.firstExpected = some (before, inside, after) ∧
    T = P ++ symbols before ∧
    W = inside.tokens ++ (condition ++ (symbols after ++ Q)) ∧
    ∀ r : Formula, (f.withFirst r).tokens = P ++ (r.tokens ++ Q)

/-- A term without an expectation in front is kept. -/
theorem OpensAt.add {t : Term} {f : Formula} {T W : List Token} (h : f.OpensAt T W)
    (none : t.firstExpected = none) : (add t f).OpensAt (t.tokens ++ .mark .plus :: T) W := by
  obtain ⟨b, g, c, P, Q, first, rfl, rfl, keep⟩ := h
  refine ⟨b, g, c, t.tokens ++ .mark .plus :: P, Q, ?_, by simp, rfl, fun r => ?_⟩
  · simp [firstExpected, none, first]
  · simp [withFirst, none, tokens, keep]

/-- At the first opening of an expression stands its first expectation. -/
theorem opensAt_of_tokens {l : Level} {f : Expression l} {T W : List Token}
    (hT : .mark .opening ∉ T) (h : f.tokens = T ++ .mark .opening :: W) : f.OpensAt T W := by
  induction f generalizing T with
  | constant x xs =>
      have mem : .mark .opening ∈ (constant x xs).tokens := by simp [h]
      exact absurd mem (opening_not_mem_of_none rfl)
  | atom b a c =>
      have mem : .mark .opening ∈ (atom b a c).tokens := by simp [h]
      exact absurd mem (opening_not_mem_of_none rfl)
  | expected b g c _ =>
      obtain ⟨rfl, rfl⟩ := Pattern.eq_of_first (opening_not_mem_symbols b) hT h
      exact ⟨b, g, c, [], [], rfl, rfl, by simp, fun r => by simp [withFirst]⟩
  | single t ih => exact ih hT h
  | add t f _ ih =>
      have later : t.firstExpected = none → (add t f).OpensAt T W := by
        intro none
        have mem : .mark .opening ∉ t.tokens ++ [.mark .plus] := by
          simpa using opening_not_mem_of_none none
        rw [tokens, ← List.singleton_append, ← List.append_assoc] at h
        obtain ⟨T', rfl, rest⟩ := of_append_eq mem h
        rw [List.mem_append, not_or] at hT
        rw [List.append_assoc]
        exact (ih hT.2 rest).add none
      cases t with
      | constant x xs => exact later rfl
      | atom b a c => exact later rfl
      | expected b g c =>
          rw [tokens, expected_append] at h
          obtain ⟨rfl, rfl⟩ := Pattern.eq_of_first (opening_not_mem_symbols b) hT h
          refine ⟨b, g, c, [], .mark .plus :: f.tokens, rfl, rfl, rfl, fun r => ?_⟩
          simp [withFirst, firstExpected, tokens_plus]

/-- Putting another sum for the first expectation exchanges their values. -/
theorem value_withFirst {V : Type} [AddCommGroup V] [Module ℚ V] (ρ : Reading V) {l : Level}
    {f : Expression l} {before after : List Symbol} {inside : Formula}
    (first : f.firstExpected = some (before, inside, after)) (r : Formula) :
    (f.withFirst r).value ρ + (expected before inside after).value ρ =
      f.value ρ + r.value ρ := by
  induction f with
  | constant x xs => cases first
  | atom b a c => cases first
  | expected b g c _ =>
      cases first
      exact add_comm _ _
  | single t ih => exact ih first
  | add t f iht ihf =>
      cases ht : t.firstExpected with
      | none =>
          rw [firstExpected, ht, Option.none_or] at first
          have := ihf first
          simp only [withFirst, ht, Option.isSome_none, Bool.false_eq_true, if_false]
          rw [value_add, value_add, add_assoc, this, add_assoc]
      | some p =>
          rw [firstExpected, ht, Option.some_or] at first
          have := iht (ht.trans first)
          simp only [withFirst, ht, Option.isSome_some, if_true]
          rw [value_plus, value_add, add_right_comm, this, add_right_comm]

/-- The sum with a scalar in front of its first term. -/
def scaled (x : Symbol) : {l : Level} → Expression l → Expression l
  | _, constant y ys => constant x (y :: ys)
  | _, atom before a after => atom (x :: before) a after
  | _, expected before inside after => expected (x :: before) inside after
  | _, single t => single (t.scaled x)
  | _, add t f => add (t.scaled x) f

theorem tokens_scaled (x : Symbol) {l : Level} (f : Expression l) :
    (f.scaled x).tokens = x.token :: f.tokens := by
  induction f with
  | single t ih => exact ih
  | add t f ih _ => simp [scaled, tokens, ih]
  | _ => rfl

theorem scaled_injective (x : Symbol) {l : Level} {f g : Expression l}
    (h : f.scaled x = g.scaled x) : f = g := by
  have tokens := congrArg Expression.tokens h
  rw [tokens_scaled, tokens_scaled] at tokens
  exact tokens_injective (List.cons.inj tokens).2

theorem value_scaled {V : Type} [AddCommGroup V] [Module ℚ V] (ρ : Reading V) (x : Symbol)
    (t : Term) : (t.scaled x).value ρ = ρ.scalar x • t.value ρ := by
  cases t <;> simp [scaled, value, mul_smul, mul_assoc]

/-- A sum that begins with a scalar has it in front of something, unless a term ends with
it at once. -/
theorem eq_scaled_or_ends {l : Level} {f : Expression l} {x : Symbol} {ts W : List Token}
    (hts : l.Ends ts) (h : f.tokens ++ ts = x.token :: W) :
    (∃ g : Expression l, f = g.scaled x ∧ W = g.tokens ++ ts) ∨ Level.term.Ends W := by
  induction f generalizing ts with
  | constant y ys =>
      obtain ⟨hy, rfl⟩ := List.cons.inj h
      obtain rfl := Symbol.token_injective hy
      cases ys with
      | nil => exact .inr hts
      | cons z zs => exact .inl ⟨constant z zs, rfl, rfl⟩
  | atom b a c =>
      cases b with
      | nil =>
          have := (List.cons.inj h).1
          cases a <;> cases x <;> cases this
      | cons y ys =>
          obtain ⟨hy, rfl⟩ := List.cons.inj h
          obtain rfl := Symbol.token_injective hy
          exact .inl ⟨atom ys a c, rfl, rfl⟩
  | expected b g c _ =>
      cases b with
      | nil =>
          have := (List.cons.inj h).1
          cases x <;> cases this
      | cons y ys =>
          obtain ⟨hy, rfl⟩ := List.cons.inj h
          obtain rfl := Symbol.token_injective hy
          exact .inl ⟨expected ys g c, rfl, rfl⟩
  | single t ih =>
      rcases ih hts.term h with ⟨g, rfl, hW⟩ | ends
      · exact .inl ⟨single g, rfl, hW⟩
      · exact .inr ends
  | add t f ih _ =>
      rw [add_append] at h
      rcases ih (ends_plus _) h with ⟨g, rfl, hW⟩ | ends
      · exact .inl ⟨add g f, rfl, by rw [hW, add_append]⟩
      · exact .inr ends

/-- A sum that begins with the reward and a plus is the reward and another sum. -/
theorem eq_reward_add {f : Formula} {ts W : List Token} (hts : Level.sum.Ends ts)
    (h : f.tokens ++ ts = .mark .reward :: .mark .plus :: W) :
    ∃ g : Formula, f = add (atom [] .reward []) g ∧ g.tokens ++ ts = W := by
  have reward : (.mark .reward :: .mark .plus :: W : List Token) =
      (atom [] .reward []).tokens ++ .mark .plus :: W := rfl
  rw [reward] at h
  cases f with
  | single t =>
      obtain ⟨-, rfl⟩ := eq_of_tokens_append hts.term (ends_plus _) h
      cases hts _ rfl
  | add t g =>
      rw [add_append] at h
      obtain ⟨rfl, rest⟩ := eq_of_tokens_append (ends_plus _) (ends_plus _) h
      exact ⟨g, rfl, (List.cons.inj rest).2⟩

/-- What the rule puts for the expectation of the reward and a discounted sum. -/
def splitTerm (before : List Symbol) (rest : Formula) (after : List Symbol) : Formula :=
  add (expected before (single (atom [] .reward [])) [])
    (single (expected [.discount] rest after))

/-- The split of an expectation without scalars around it, whose inside has two summands,
is right. -/
theorem value_splitTerm {V : Type} [AddCommGroup V] [Module ℚ V] (ρ : Reading V) (t : Term) :
    (splitTerm [] (single t) []).value ρ =
      (expected [] (add (atom [] .reward []) (single (t.scaled .discount))) []).value ρ := by
  simp [splitTerm, value, value_scaled]

private theorem splitTerm_doubling (before after : List Symbol) (rest : Formula) :
    (splitTerm before rest after).value doubling =
      doubling.product before + 2 * (doubling.product after * rest.value doubling) := by
  simp [splitTerm, value, doubling.expectation_apply, mul_assoc]

private theorem expected_doubling (before after : List Symbol) (inside : Formula) :
    (expected before inside after).value doubling =
      doubling.product before * doubling.product after * inside.value doubling :=
  rfl

/-- With two summands inside, the split and the expectation agree only where the scalars
before, `b`, and behind, `a`, are one. -/
private theorem eq_one_of_split {a b t : ℚ} (ha : 1 ≤ a) (hb : 1 ≤ b) (ht : 1 ≤ t)
    (same : b + 2 * (a * t) = b * a * (1 + 2 * t)) : b = 1 ∧ a = 1 := by
  have hat : 1 ≤ a * t := one_le_mul_of_one_le_of_one_le ha ht
  have reward : b ≤ b * a := le_mul_of_one_le_right (by linarith) ha
  have rest : a * t ≤ b * (a * t) := le_mul_of_one_le_left (by linarith) hb
  have all : b * a * (1 + 2 * t) = b * a + 2 * (b * (a * t)) := by ring
  have reward_eq : b = b * a := by linarith
  have rest_eq : a * t = b * (a * t) := by linarith
  rw [left_eq_mul₀ (by linarith)] at reward_eq
  rw [right_eq_mul₀ (by linarith)] at rest_eq
  exact ⟨rest_eq, reward_eq⟩

/-- With further summands `u` inside, the split and the expectation never agree. -/
private theorem split_ne {a b t u : ℚ} (ha : 1 ≤ a) (hb : b = 1 ∨ 2 ≤ b) (ht : 1 ≤ t)
    (hu : 1 ≤ u) : b + 2 * (a * (t + u)) ≠ b * a * (1 + (2 * t + u)) := by
  intro same
  have hau : a ≤ a * u := le_mul_of_one_le_right (by linarith) hu
  rcases hb with rfl | hb
  · -- The split discounts `u` as well and so gains more than it loses on the reward.
    have all : 1 * a * (1 + (2 * t + u)) = a + 2 * (a * t) + a * u := by ring
    linarith
  · -- The split keeps `b` from `t`, which alone is more than it gains on `u`.
    have reward : b ≤ b * a := le_mul_of_one_le_right (by linarith) ha
    have second : 2 * (a * t) ≤ b * (a * t) :=
      mul_le_mul_of_nonneg_right hb (mul_nonneg (by linarith) (by linarith))
    have third : 2 * (a * u) ≤ b * (a * u) :=
      mul_le_mul_of_nonneg_right hb (mul_nonneg (by linarith) (by linarith))
    have hat : 1 ≤ a * t := one_le_mul_of_one_le_of_one_le ha ht
    have all : b * a * (1 + (2 * t + u)) = b * a + 2 * (b * (a * t)) + b * (a * u) := by ring
    linarith

/-- Other splits are wrong: scalars in front do not reach the rest, scalars behind do not
reach the reward, and a third summand is discounted. -/
theorem eq_of_value_splitTerm {before after : List Symbol} {rest : Formula}
    (same : (splitTerm before rest after).value doubling =
      (expected before (add (atom [] .reward []) (rest.scaled .discount)) after).value doubling) :
    before = [] ∧ after = [] ∧ ∃ t, rest = single t := by
  have reward : (atom [] .reward []).value doubling = 1 := by simp [value]
  rw [splitTerm_doubling, expected_doubling, value_add, reward] at same
  have hb := doubling.one_le_product before
  have ha := doubling.one_le_product after
  cases rest with
  | single t =>
      have scaled : ((single t).scaled .discount).value doubling = 2 * t.value doubling :=
        value_scaled doubling .discount t
      rw [scaled] at same
      obtain ⟨before_eq, after_eq⟩ := eq_one_of_split ha hb (doubling.one_le_value t) same
      exact ⟨doubling.product_eq_one_iff.1 before_eq, doubling.product_eq_one_iff.1 after_eq,
        t, rfl⟩
  | add t f =>
      have scaled : ((add t f).scaled .discount).value doubling =
          2 * t.value doubling + f.value doubling := by
        rw [Expression.scaled, value_add, value_scaled]
        rfl
      rw [scaled, value_add] at same
      have front : doubling.product before = 1 ∨ 2 ≤ doubling.product before :=
        (doubling.product_eq_nil_or_two_le before).imp_left doubling.product_eq_one_iff.2
      exact absurd same
        (split_ne ha front (doubling.one_le_value t) (doubling.one_le_value f))

end Expression

/-- The first expectation stands without scalars around it and has two summands inside: the
reward, and one term that the discount factor is the first scalar of. -/
def Expression.SplitsAlone (f : Formula) : Prop :=
  ∃ t : Term, f.firstExpected =
    some ([], .add (.atom [] .reward []) (.single (t.scaled .discount)), [])

/-- Where the discount factor is the first scalar of the rest, the written tokens are those
of the formula with the first expectation split. -/
theorem Reads.withFirst {e : String} {f rest : Formula} {before after : List Symbol}
    {P Q : List Token}
    (keep : ∀ r : Formula, (f.withFirst r).tokens = P ++ (r.tokens ++ Q))
    (h : Spells (P ++ symbols before ++ .mark .opening :: .mark .reward :: (condition ++
      .mark .plus :: .mark .discount :: .mark .opening ::
        (rest.tokens ++ (condition ++ (symbols after ++ Q))))) e.toList) :
    Reads e (f.withFirst (Expression.splitTerm before rest after)) := by
  rw [Reads, keep]
  simpa [Expression.splitTerm, Expression.tokens, Symbol.token, Atom.mark] using h

/-- An expectation has an inside. -/
theorem not_means_of_ends {e : String} {f : Formula} {T U : List Token}
    (h : Spells (T ++ .mark .opening :: U) e.toList) (ends : Level.term.Ends U) :
    ¬ Means e f := by
  rintro ⟨g, hg, -⟩
  have marked := g.wellMarked
  rw [Spells.unique hg h] at marked
  exact marked.fits ends

/-- What the rule returns on the text of a formula means the formula exactly where the first
expectation can be split. -/
theorem Reads.means_iff_splitsAlone {e out : String} {f : Formula} (h : Reads e f)
    (run : linearity.transform e = .ok out) : Means out f ↔ f.SplitsAlone := by
  obtain ⟨T, U, hT, hf, hout⟩ := splits_of_linearity h run
  obtain ⟨before, inside, after, P, Q, first, rfl, hU, keep⟩ :=
    Expression.opensAt_of_tokens hT hf
  obtain ⟨sum, rfl, hsum⟩ := Expression.eq_reward_add (ends_condition _) hU.symm
  rcases Expression.eq_scaled_or_ends (x := .discount) (ends_condition _) hsum with
    ⟨rest, rfl, rfl⟩ | ends
  · rw [means_iff (Reads.withFirst keep hout)]
    constructor
    · intro same
      have exchange := Expression.value_withFirst doubling first
        (Expression.splitTerm before rest after)
      rw [same, add_right_inj] at exchange
      obtain ⟨rfl, rfl, t, rfl⟩ := Expression.eq_of_value_splitTerm exchange.symm
      exact ⟨t, first⟩
    · rintro ⟨t, alone⟩ V _ _ ρ
      have exchange := Expression.value_withFirst ρ first
        (Expression.splitTerm before rest after)
      rw [first, Option.some.injEq, Prod.mk.injEq, Prod.mk.injEq, Expression.add.injEq] at alone
      obtain ⟨rfl, ⟨-, inside⟩, rfl⟩ := alone
      obtain rfl : rest = .single t := Expression.scaled_injective .discount inside
      rw [Expression.value_splitTerm] at exchange
      exact add_right_cancel exchange
  · -- Nothing is left for the second expectation, and there was no term to discount.
    constructor
    · intro means
      refine absurd means (not_means_of_ends (T := P ++ symbols before ++ .mark .opening ::
        .mark .reward :: (condition ++ [.mark .plus, .mark .discount])) ?_ ends)
      simpa using hout
    · rintro ⟨t, alone⟩
      rw [first, Option.some.injEq, Prod.mk.injEq, Prod.mk.injEq, Expression.add.injEq] at alone
      obtain ⟨-, ⟨-, rfl⟩, -⟩ := alone
      rw [Expression.tokens, Expression.tokens_scaled] at hsum
      obtain rfl := (List.cons.inj hsum).2
      exact absurd ends (t.not_ends _)

end Bellman.Notation
