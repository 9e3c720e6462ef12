import Wordstack.Main
import Wordstack.Session.Perform
import Wordstack.Proofs.Deed
import Wordstack.Proofs.Frame
import Wordstack.Proofs.Standard
import Wordstack.Proofs.Restoration
import Wordstack.Proofs.Ground
import Wordstack.Proofs.Locality
import Wordstack.Proofs.Quotation
import Wordstack.Proofs.Brackets
import Wordstack.Proofs.Bisimulation
import Wordstack.Proofs.Signature
import Wordstack.Proofs.Dispatch
import Wordstack.Proofs.Soundness
import Wordstack.Proofs.Spelling
import Wordstack.Proofs.Roundtrip
import Wordstack.Proofs.Paths
import Wordstack.Proofs.Backtrace
import Wordstack.Proofs.Renaming
import Wordstack.Proofs.Parallel
import Wordstack.Proofs.Lockstep
import Wordstack.Proofs.Feeding
import Wordstack.Proofs.Joining
import Wordstack.Proofs.Piecewise
import Wordstack.Proofs.Adjustment
import Wordstack.Proofs.Classification
import Wordstack.Proofs.Course
import Wordstack.Proofs.Lexing
import Wordstack.Proofs.Whereabouts
import Wordstack.Proofs.Sharing
import Wordstack.Proofs.Unrolling
import Wordstack.Proofs.Splitting
import Wordstack.Proofs.Declaring
import Wordstack.Proofs.Exactness
import Wordstack.Proofs.Positions
import Wordstack.Proofs.Contract
import Wordstack.Proofs.Unfolding
import Wordstack.Proofs.InStep
