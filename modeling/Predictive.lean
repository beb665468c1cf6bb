import Predictive.Grammar.Derivation
import Predictive.Grammar.InRange
import Predictive.Main
import Predictive.Session
import Predictive.Text.Cut
import Predictive.Proofs.Facts
import Predictive.Proofs.Saturation
import Predictive.Proofs.First
import Predictive.Proofs.FollowClosure
import Predictive.Proofs.WellFormed
import Predictive.Proofs.InStep
import Predictive.Proofs.Follow
import Predictive.Proofs.Claims
import Predictive.Proofs.Prediction
import Predictive.Proofs.Strict
import Predictive.Proofs.LeftRecursion
import Predictive.Proofs.FirstConflict
import Predictive.Proofs.Nullability
import Predictive.Proofs.Renaming
import Predictive.Proofs.Renumbering
import Predictive.Proofs.Rearrangement
import Predictive.Proofs.Names
import Predictive.Proofs.Rebuilding
import Predictive.Proofs.Agreement
import Predictive.Proofs.Declared
import Predictive.Proofs.Staleness
import Predictive.Proofs.Lookaheads
import Predictive.Grammar.Assembly
import Predictive.Proofs.FirstFault
import Predictive.Proofs.LastClaim
import Predictive.Proofs.Assembly
import Predictive.Proofs.Ranges
import Predictive.Proofs.Loops
import Predictive.Proofs.Rounds
import Predictive.Proofs.Snapshots
import Predictive.Proofs.LeastFollow
import Predictive.Proofs.StoredRules
import Predictive.Proofs.Filling
import Predictive.Proofs.EpsilonFree
import Predictive.Proofs.Respelling
import Predictive.Proofs.Built
import Predictive.Proofs.TraceLines
import Predictive.Proofs.TraceGrid
import Predictive.Proofs.TraceReading
import Predictive.Proofs.AlignedListing
import Predictive.Proofs.AlignedGrid
import Predictive.Proofs.MarkedNames
import Predictive.Proofs.CanonicalSummary
import Predictive.Proofs.LatexRows
import Predictive.Proofs.LatexReading
import Predictive.Proofs.EpsilonMarks
import Predictive.Proofs.Concatenation
import Predictive.Text.Framed
import Predictive.Proofs.Arguments
import Predictive.Proofs.JsonReading
