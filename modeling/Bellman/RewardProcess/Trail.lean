import Bellman.Json
import Bellman.RewardProcess.Check

/-!
# The trail of a solution

A trail tells how a process was solved: what was read, the steps to the values, the
values, and the check of them. It is the answer that the library gives to a reader, so
all numbers in its paragraphs are texts; the values are also given as they are.
-/

namespace Bellman.RewardProcess

/-- The way from a process to its values, as it is told. The numbers of the process are
kept as they are shown, and the paragraphs are made of these texts. -/
structure Trail where
  states : Nat
  discount : String
  transitions : String
  rewards : String
  /-- The steps of the solution, in order. -/
  steps : List Paragraph
  /-- The values as they are shown. -/
  answer : String
  values : List Binary64
  /-- The report on the check. -/
  checks : List Paragraph
  /-- The largest deviation of a row. -/
  maxResidual : Binary64

/-- Tells how a solution was found. The numbers are shown in the order in which they are
told, and then the check is made; the first that cannot be shown is the failure. -/
def Solution.trail (s : Solution) : Except Failure Trail := do
  let n := s.process.states
  let P ← (Display.matrix s.process.transitions.rows).mapError .unshowable
  let γ ← (Display.number s.process.discount).mapError .unshowable
  let R ← (Display.vector s.process.rewards).mapError .unshowable
  let A ← (Display.matrix s.system.rows).mapError .unshowable
  let V ← (Display.vector s.values).mapError .unshowable
  let found ← (s.system.mulVec s.values).mapError .unsolvable
  let checks ← (reportCheck found s.process.rewards).mapError .unshowable
  let residual ← (s.system.residual s.values s.process.rewards).mapError .unsolvable
  return {
    states := n
    discount := γ
    transitions := P
    rewards := R
    steps := [
      { description := "Read the transition matrix"
        expression := "P = " ++ P
        explanation :=
          "Row i of P holds the probabilities p(s'|s_i) of moving from state s_i to each of the " ++
            toString n ++ " states." },
      { description := "Read the discount factor and rewards"
        expression := "γ = " ++ γ ++ ",  R = " ++ R
        explanation := "R holds the expected one-step reward r(s) of each state." },
      { description := "Write the Bellman equation in matrix form"
        expression := "V = R + γPV   ⇒   (I − γP)V = R"
        explanation :=
          "Stacking v(s) = r(s) + γ Σ p(s'|s) v(s') over all states gives a linear system in V." },
      { description := "Form the system matrix I − γP"
        expression := "I − γP = " ++ A
        explanation :=
          "Subtract γ·P from the " ++ KernelError.sizeText n n ++ " identity matrix." },
      { description := "Solve by Gaussian elimination with partial pivoting"
        expression := "V = " ++ V
        explanation :=
          "Eliminate column by column using the largest available pivot, " ++
            "then back-substitute from the last row." }]
    answer := "V = " ++ V
    values := s.values
    checks
    maxResidual := largest residual }

/-- Reads a process, solves it, and tells how. This is all that the service asks of a
process. -/
def trailOf (discount transitions rewards : String) : Except Failure Trail := do
  (← (← read discount transitions rewards).solve).trail

namespace Trail

def numbered (ps : List Paragraph) : Json :=
  .list <| (ps.zipIdx 1).map fun (p, i) =>
    .object [("step_number", .int i), ("description", .text p.description),
      ("expression", .text p.expression), ("explanation", .text p.explanation)]

def toJson (t : Trail) : Json :=
  .object [
    ("equation", .text "V = (I − γP)⁻¹ R"),
    ("given", .object [
      ("problem", .text "Compute the state values of a Markov reward process"),
      ("inputs", .object [
        ("gamma", .text t.discount),
        ("transition_matrix", .text t.transitions),
        ("rewards", .text t.rewards),
        ("states", .int t.states)])]),
    ("method", .object [
      ("name", .text "Direct Solve (Gaussian Elimination)"),
      ("description", .text <|
        "Solve the linear Bellman system with partial pivoting " ++
          "using NumPy floating-point arithmetic."),
      ("parameters", .object [
        ("pivot_tolerance", .number pivotTolerance),
        ("approach", .text "Form I − γP → Eliminate → Back-substitute")])]),
    ("steps", numbered t.steps),
    ("final_answer", .text t.answer),
    ("values", .list (t.values.map .number)),
    ("verification_steps", numbered t.checks),
    ("summary", .object [
      ("total_steps", .int t.steps.length),
      ("verification_steps", .int t.checks.length),
      ("max_residual", .number t.maxResidual),
      ("validation_status", .text (if passes t.maxResidual then "pass" else "fail"))])]

end Trail

end Bellman.RewardProcess
