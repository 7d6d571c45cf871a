import Bellman.Grid.Nested
import Bellman.Main
import Bellman.Rule.Simple
import Bellman.Service.Journal
import Bellman.Proofs.Elimination.InPlace
import Bellman.Proofs.RewardProcess.Discounted
import Bellman.Proofs.Derivation.Justified
import Bellman.Proofs.Derivation.History
import Bellman.Proofs.Notation.Spelling
import Bellman.Proofs.Notation.Expression
import Bellman.Proofs.Notation.Value
import Bellman.Proofs.Notation.Recursion
import Bellman.Proofs.Notation.Splitting
import Bellman.Proofs.Notation.Linearity
import Bellman.Proofs.Notation.Preservation
import Bellman.Proofs.Service.Client
import Bellman.Proofs.Rule.Offered
import Bellman.Proofs.Rule.Termination
import Bellman.Proofs.Rule.Lecture
import Bellman.Proofs.Rule.Nesting
import Bellman.Proofs.Rule.Lexing
import Bellman.Proofs.Rule.Instances
import Bellman.Proofs.Rule.Respacing
import Bellman.Proofs.Rule.BareReturn
import Bellman.Proofs.Rule.SplitForm
import Bellman.Proofs.Rule.Exhaustion
import Bellman.Proofs.Rule.Commutation
import Bellman.Proofs.Numeral.Answer
import Bellman.Proofs.Numeral.Guard
import Bellman.Proofs.Numeral.Tables
import Bellman.Proofs.Numeral.FurtherLines
import Bellman.Proofs.Numeral.Meaning
import Bellman.Proofs.RewardProcess.Proper
import Bellman.Proofs.RewardProcess.Told
import Bellman.Proofs.Elimination.Homogeneous
import Bellman.Proofs.RewardProcess.Consistent
import Bellman.Proofs.Display.ReadBack
import Bellman.Proofs.Grid.Shapes
import Bellman.Proofs.Settings.Launch
import Bellman.Proofs.Rule.CanonicalSpacing
