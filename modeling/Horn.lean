import Horn.Json.Options
import Horn.Json.Signature
import Horn.Search.Query
import Horn.Store.Lemmas
import Horn.Text.Event
import Horn.Proofs.Completeness
import Horn.Proofs.ExactUndo
import Horn.Proofs.Instances
import Horn.Proofs.Membership
import Horn.Proofs.MostGeneral
import Horn.Proofs.OccursCheck
import Horn.Proofs.Refinement
import Horn.Proofs.Soundness
import Horn.Proofs.Stopping
import Horn.Proofs.Conjunctions
import Horn.Proofs.DepthLimit
import Horn.Proofs.EarlierQueries
import Horn.Proofs.SignatureIndex
import Horn.Proofs.DepthFilter
import Horn.Proofs.Spared
import Horn.Proofs.Untouched
import Horn.Proofs.MoreClauses
import Horn.Proofs.CopiedGoals
import Horn.Proofs.UnionFind
import Horn.Proofs.UncheckedQueries
import Horn.Proofs.FailedCalls
import Horn.Proofs.Termination
import Horn.Proofs.EquationOrder
import Horn.Proofs.Symmetry
import Horn.Proofs.SameTerms
import Horn.Proofs.FreshCopies
import Horn.Proofs.UnifiedCopies
import Horn.Proofs.Occurrences
import Horn.Proofs.NormalForm
import Horn.Proofs.Information
import Horn.Proofs.Snapshots
import Horn.Proofs.ChoicePoints
