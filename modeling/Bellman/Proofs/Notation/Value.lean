import Bellman.Proofs.Notation.Expression
import Mathlib.Algebra.BigOperators.Group.List.Basic
import Mathlib.Algebra.Module.LinearMap.Defs
import Mathlib.Algebra.Order.Field.Rat
import Mathlib.Tactic.Linarith

/-!
# What formulas mean

A reading gives every scalar a rational number, and rewards and returns values in some
rational vector space, so that numbers and random variables are readings alike. Expectation
may be any linear map. The present return is not free: it is the next reward and the
discounted next return.

Two formulas mean the same when no reading tells them apart. The reading `doubling` tells
apart whatever a wrong rewriting confuses: all its values are at least one, and each scalar
doubles.
-/

namespace Bellman.Notation

/-- What scalars, rewards, returns and expectations stand for. -/
structure Reading (V : Type) [AddCommGroup V] [Module ℚ V] where
  scalar : Symbol → ℚ
  unit : V
  reward : V
  nextReturn : V
  expectation : V →ₗ[ℚ] V

namespace Reading

variable {V : Type} [AddCommGroup V] [Module ℚ V]

/-- The value of an atom. The present return is what the recursion says. -/
def atom (ρ : Reading V) : Atom → V
  | .reward => ρ.reward
  | .nextReturn => ρ.nextReturn
  | .presentReturn => ρ.reward + ρ.scalar .discount • ρ.nextReturn

/-- The product of scalars in a row. -/
def product (ρ : Reading V) (xs : List Symbol) : ℚ :=
  (xs.map ρ.scalar).prod

@[simp] theorem product_nil (ρ : Reading V) : ρ.product [] = 1 :=
  rfl

@[simp] theorem product_cons (ρ : Reading V) (x : Symbol) (xs : List Symbol) :
    ρ.product (x :: xs) = ρ.scalar x * ρ.product xs := by
  simp [product]

end Reading

namespace Expression

variable {V : Type} [AddCommGroup V] [Module ℚ V]

/-- The value of an expression in a reading. -/
def value (ρ : Reading V) : {l : Level} → Expression l → V
  | _, constant x xs => ρ.product (x :: xs) • ρ.unit
  | _, atom before a after => (ρ.product before * ρ.product after) • ρ.atom a
  | _, expected before inside after =>
      (ρ.product before * ρ.product after) • ρ.expectation (inside.value ρ)
  | _, single t => t.value ρ
  | _, add t f => t.value ρ + f.value ρ

theorem value_add (ρ : Reading V) (t : Term) (f : Formula) :
    (add t f).value ρ = t.value ρ + f.value ρ :=
  rfl

/-- One sum behind another. -/
def plus : {l : Level} → Expression l → Formula → Formula
  | _, constant x xs, g => add (constant x xs) g
  | _, atom before a after, g => add (atom before a after) g
  | _, expected before inside after, g => add (expected before inside after) g
  | _, single t, g => add t g
  | _, add t f, g => add t (f.plus g)

theorem tokens_plus {l : Level} (f : Expression l) (g : Formula) :
    (f.plus g).tokens = f.tokens ++ .mark .plus :: g.tokens := by
  induction f with
  | add t f _ ih => simp [plus, tokens, ih]
  | _ => rfl

theorem value_plus (ρ : Reading V) {l : Level} (f : Expression l) (g : Formula) :
    (f.plus g).value ρ = f.value ρ + g.value ρ := by
  induction f with
  | add t f _ ih => simp [plus, value, ih, add_assoc]
  | _ => rfl

end Expression

/-- A formula that a text can be read as. -/
def Reads (e : String) (f : Formula) : Prop :=
  Spells f.tokens e.toList

/-- A text can be read in one way at most. -/
theorem Reads.unique {e : String} {f g : Formula} (hf : Reads e f) (hg : Reads e g) : f = g :=
  Expression.tokens_injective (Spells.unique hf hg)

/-- The text is a formula, with the value of the formula `f` in every reading. -/
def Means (e : String) (f : Formula) : Prop :=
  ∃ g : Formula, Reads e g ∧
    ∀ (V : Type) [AddCommGroup V] [Module ℚ V] (ρ : Reading V), g.value ρ = f.value ρ

/-- What a text means is what the formula that it is read as means. -/
theorem means_iff {e : String} {f g : Formula} (h : Reads e g) :
    Means e f ↔ ∀ (V : Type) [AddCommGroup V] [Module ℚ V] (ρ : Reading V),
      g.value ρ = f.value ρ := by
  constructor
  · rintro ⟨g', hg', same⟩
    obtain rfl := h.unique hg'
    exact same
  · intro same
    exact ⟨g, h, same⟩

/-- Every scalar doubles, expectation changes nothing, and all else is one. -/
def doubling : Reading ℚ where
  scalar _ := 2
  unit := 1
  reward := 1
  nextReturn := 1
  expectation := LinearMap.id

namespace doubling

@[simp] theorem scalar_apply (x : Symbol) : doubling.scalar x = 2 :=
  rfl

@[simp] theorem expectation_apply (v : ℚ) : doubling.expectation v = v :=
  rfl

@[simp] theorem atom_reward : doubling.atom .reward = 1 :=
  rfl

@[simp] theorem atom_nextReturn : doubling.atom .nextReturn = 1 :=
  rfl

@[simp] theorem atom_presentReturn : doubling.atom .presentReturn = 3 := by
  norm_num [Reading.atom, doubling]

theorem one_le_product (xs : List Symbol) : 1 ≤ doubling.product xs := by
  induction xs with
  | nil => simp
  | cons x xs ih =>
      rw [Reading.product_cons, scalar_apply]
      linarith

/-- Scalars in a row change nothing only where there are none. -/
theorem product_eq_one_iff {xs : List Symbol} : doubling.product xs = 1 ↔ xs = [] := by
  cases xs with
  | nil => simp
  | cons x xs =>
      have := one_le_product xs
      rw [Reading.product_cons, scalar_apply]
      constructor
      · intro h
        linarith
      · simp

/-- Scalars in a row double at least, where there are any. -/
theorem product_eq_nil_or_two_le (xs : List Symbol) : xs = [] ∨ 2 ≤ doubling.product xs := by
  cases xs with
  | nil => exact .inl rfl
  | cons x xs =>
      have := one_le_product xs
      rw [Reading.product_cons, scalar_apply]
      exact .inr (by linarith)

theorem one_le_scale (xs ys : List Symbol) :
    1 ≤ doubling.product xs * doubling.product ys :=
  one_le_mul_of_one_le_of_one_le (one_le_product xs) (one_le_product ys)

theorem one_le_value {l : Level} (f : Expression l) : 1 ≤ f.value doubling := by
  induction f with
  | constant x xs =>
      change 1 ≤ doubling.product (x :: xs) * 1
      simpa using one_le_product (x :: xs)
  | atom before a after =>
      have : 1 ≤ doubling.atom a := by
        cases a <;> norm_num
      exact one_le_mul_of_one_le_of_one_le (one_le_scale before after) this
  | expected before inside after ih =>
      exact one_le_mul_of_one_le_of_one_le (one_le_scale before after) ih
  | single t ih => exact ih
  | add t f iht ihf =>
      change 1 ≤ t.value doubling + f.value doubling
      linarith

end doubling

end Bellman.Notation
