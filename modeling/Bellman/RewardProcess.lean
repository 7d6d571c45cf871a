import Bellman.Display
import Bellman.Grid.Elimination
import Bellman.Numeral.Reading

/-!
# Markov reward processes

In each of finitely many states a reward is expected, and the next state is drawn by the
row of a matrix. The value of a state is the reward expected there and, discounted, the
value of the next state. With the discount γ, the matrix P and the rewards R, the values
are the solution of

    (I − γP) V = R.

The matrix of this system and its solution are defined for any arithmetic. Over doubles
both may overflow, which is checked after each is formed.
-/

namespace Bellman

/-- A Markov reward process; row i of the matrix belongs to the i-th reward. That rows are
distributions is not asked, so any discount and any square matrix may be solved. -/
structure RewardProcess (α : Type) where
  discount : α
  transitions : Grid α
  rewards : List α

namespace RewardProcess

def states {α : Type} (p : RewardProcess α) : Nat :=
  p.transitions.height

/-- The matrix I − γP. Over doubles each entry is rounded twice, as a multiple of a
transition and as a difference. -/
def system {α : Type} [Zero α] [One α] [Sub α] [Mul α] (p : RewardProcess α) :
    Except (KernelError α) (Grid α) :=
  (Grid.identity p.states).subtract? (p.transitions.scale p.discount)

def values {α : Type} [Zero α] [One α] [Add α] [Sub α] [Mul α] [Div α] [Pivoting α]
    (p : RewardProcess α) : Except (KernelError α) (List α) :=
  match p.system with
  | .ok A => A.solve p.rewards
  | .error e => .error e

/-- Why a process has no values, or cannot be shown. -/
inductive Failure where
  /-- A text is not what it should be. -/
  | unreadable (e : Numeral.TableError)
  /-- An entry of I − γP is too large. -/
  | systemOverflow
  /-- The system cannot be solved. -/
  | unsolvable (e : KernelError Binary64)
  /-- The solution of the system for so many states is too large. -/
  | solutionOverflow (states : Nat)
  /-- A number of the trail cannot be shown. -/
  | unshowable (e : Display.Unshowable)

/-- The reason in words. A number that cannot be shown has none, and is answered as a fault
of the program itself. -/
def Failure.message? : Failure → Option String
  | .unreadable e => e.message?
  | .systemOverflow => some "I − γP overflows: γ or P entries are too large."
  | .unsolvable e => e.message?
  | .solutionOverflow _ =>
      some "Solution overflows: the system is numerically unstable."
  | .unshowable _ => none

/-- Reads a process from the texts of the discount, of the matrix and of the rewards. The
texts are read in this order, and the first fault is reported. -/
def read (discount transitions rewards : String) :
    Except Failure (RewardProcess Binary64) := do
  let γ ← (Numeral.readScalar discount).mapError (.unreadable ∘ .scalar)
  let rows ← (Numeral.readMatrix transitions).mapError .unreadable
  let r ← (Numeral.readVector rewards rows.length).mapError .unreadable
  let P ← (Grid.ofRows rows).mapError .unsolvable
  return ⟨γ, P, r⟩

/-- A process, the matrix of its system, and the values that solve it. -/
structure Solution where
  process : RewardProcess Binary64
  system : Grid Binary64
  values : List Binary64

/-- Solves a process. An infinite entry could turn into a pivot that is not a number and
go unnoticed, so the matrix must be finite before it is eliminated, and the values
afterwards. -/
def solve (p : RewardProcess Binary64) : Except Failure Solution :=
  match p.system with
  | .error e => .error (.unsolvable e)
  | .ok A =>
      if A.rows.all (·.all Binary64.isFinite) then
        match A.solve p.rewards with
        | .error e => .error (.unsolvable e)
        | .ok v =>
            if v.all Binary64.isFinite then .ok ⟨p, A, v⟩
            else .error (.solutionOverflow p.states)
      else .error .systemOverflow

theorem values_of_solve {p : RewardProcess Binary64} {s : Solution} (h : p.solve = .ok s) :
    s.process = p ∧ p.system = .ok s.system ∧ p.values = .ok s.values := by
  unfold solve at h
  unfold values
  split at h
  · cases h
  next A hA =>
    split at h
    · split at h
      · cases h
      next v hv =>
        split at h
        · cases h; exact ⟨rfl, hA, by simp only [hA, hv]⟩
        · cases h
    · cases h

end RewardProcess

end Bellman
