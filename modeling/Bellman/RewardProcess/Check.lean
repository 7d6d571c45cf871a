import Bellman.RewardProcess

/-!
# Checking a solution

The values are put back into the system, and each row is compared with its reward. A row
that is off by less than the tolerance counts as equal. The report gives a heading with
all recomputed rows and then a paragraph for each row.
-/

namespace Bellman.RewardProcess

/-- Rows that differ by less than this count as equal. -/
def residualTolerance : Binary64 :=
  Binary64.ofRat ((10 : Rat) ^ (-9 : Int))

/-- A paragraph of an explanation. -/
structure Paragraph where
  description : String
  expression : String
  explanation : String
deriving DecidableEq, Repr

/-- A row of the system: what it gives, and the reward that it should give. -/
structure RowCheck where
  found : Binary64
  wanted : Binary64
deriving DecidableEq, Repr

namespace RowCheck

def deviation (c : RowCheck) : Binary64 :=
  (c.found - c.wanted).abs

/-- The row counts as equal to its reward. What is not a number is not below the tolerance,
so a row that gives it fails. -/
def holds (c : RowCheck) : Bool :=
  c.deviation.lt residualTolerance

def report (c : RowCheck) (row : Nat) : Except Display.Unshowable Paragraph := do
  let found ← Display.number c.found
  let wanted ← Display.number c.wanted
  let reward := "r(s_" ++ toString row ++ ")"
  return {
    description := "Check row " ++ toString row
    expression :=
      found ++ (if c.holds then " = " else " ≠ ") ++ wanted ++ (if c.holds then "  ✓" else "  ✗")
    explanation :=
      if c.holds then
        "Row " ++ toString row ++ " reproduces " ++ reward ++ " = " ++ wanted ++ "."
      else
        "Row " ++ toString row ++ " differs from " ++ reward ++ " by " ++
          Decimal.briefText c.deviation ++ "." }

end RowCheck

def reportRows (row : Nat) : List RowCheck → Except Display.Unshowable (List Paragraph)
  | [] => .ok []
  | c :: cs => do
      let p ← c.report row
      return p :: (← reportRows (row + 1) cs)

/-- The report on what the rows of a system give and the rewards they should give. Rows are
numbered from one, as the states are. -/
def reportCheck (found rewards : List Binary64) :
    Except Display.Unshowable (List Paragraph) := do
  let heading : Paragraph :=
    { description := "Multiply the system matrix by V"
      expression := "(I − γP)V = " ++ (← Display.vector found)
      explanation := "Recompute the left-hand side with the solved values." }
  return heading :: (← reportRows 1 (List.zipWith RowCheck.mk found rewards))

/-- The larger of two magnitudes. What is not a number is kept on whichever side it is, so
that it shows in the largest of a list. -/
def larger (x y : Binary64) : Binary64 :=
  if x.isNaN then x else if y.isNaN then y else if x.lt y then y else x

/-- The largest magnitude of a list; zero for the empty list. -/
def largest (xs : List Binary64) : Binary64 :=
  xs.foldl (fun m x => larger m x.abs) 0

/-- A check passes if its largest deviation is below the tolerance. -/
def passes (maxResidual : Binary64) : Bool :=
  maxResidual.lt residualTolerance

@[simp] theorem reportRows_nil (row : Nat) : reportRows row [] = .ok [] := rfl

theorem length_of_reportRows {row : Nat} {cs : List RowCheck} {ps : List Paragraph}
    (h : reportRows row cs = .ok ps) : ps.length = cs.length := by
  induction cs generalizing row ps with
  | nil => cases h; rfl
  | cons c cs ih =>
      simp only [reportRows, bind, Except.bind, pure, Except.pure] at h
      split at h
      · cases h
      · split at h
        · cases h
        next hps => cases h; simp [ih hps]

end Bellman.RewardProcess
