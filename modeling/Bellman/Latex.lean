/-!
# LaTeX fragments of the Bellman equation

The pieces of LaTeX text that the rules look for and write: expectations and their
conditions, the return of a state and its discounted series of rewards, and the sum over
next states.
-/

namespace Bellman.Latex

def group (s : String) : String :=
  "\x7b" ++ s ++ "\x7d"

/-- A name with a subscript group. -/
def sub (name index : String) : String :=
  name ++ "_" ++ group index

/-- The start of an expectation. -/
def expectation : String :=
  "\\mathbb" ++ group "E" ++ "["

/-- The bar between the inside of an expectation and its condition. -/
def bar : String :=
  "\\mid"

def thin : String :=
  "\\,"

def discount : String :=
  "\\gamma"

def presentReturn : String :=
  "G_t"

def nextReturn : String :=
  sub "G" "t+1"

def nextReward : String :=
  sub "R" "t+1"

/-- The sign and bounds of a series over all times. -/
def seriesHead : String :=
  sub "\\sum" "k=0" ++ "^" ++ group "\\infty"

/-- The discount factor to the power of the series index. -/
def seriesFactor : String :=
  "\\gamma^k"

/-- The reward inside the series of the present return. -/
def seriesReward : String :=
  sub "R" "t+1+k"

/-- The reward inside the series that begins one step later. -/
def shiftedReward : String :=
  sub "R" "t+2+k"

def returnSeries : String :=
  seriesHead ++ " " ++ seriesFactor ++ " " ++ seriesReward

def shiftedSeries : String :=
  seriesHead ++ " " ++ seriesFactor ++ " " ++ shiftedReward

def stateSum : String :=
  sub "\\sum" "s'"

def transition : String :=
  "p(s'\\mid s)"

def nextState : String :=
  sub "S" "t+1"

def givenState : String :=
  "\\mid S_t=s]"

def givenNextState : String :=
  "\\mid " ++ nextState ++ "=s']"

/-- The Bellman expectation equation. -/
def bellmanEquation : String :=
  "v(s) = r(s) + \\gamma " ++ stateSum ++ " " ++ transition ++ " v(s')"

end Bellman.Latex
