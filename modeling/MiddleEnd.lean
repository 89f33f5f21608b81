import MiddleEnd.Command.World
import MiddleEnd.Main
import MiddleEnd.Proofs.Command.Again
import MiddleEnd.Proofs.Command.Presentation
import MiddleEnd.Proofs.Context.Brackets
import MiddleEnd.Proofs.Context.Refusal
import MiddleEnd.Proofs.Forward
import MiddleEnd.Proofs.Listing.Depth
import MiddleEnd.Proofs.Normalize.Account
import MiddleEnd.Proofs.Normalize.Bounded
import MiddleEnd.Proofs.Normalize.Census
import MiddleEnd.Proofs.Normalize.Defects
import MiddleEnd.Proofs.Normalize.Frame
import MiddleEnd.Proofs.Normalize.Removed
import MiddleEnd.Proofs.Normalize.Split
import MiddleEnd.Proofs.Normalize.Stable
import MiddleEnd.Proofs.Normalize.Verified
import MiddleEnd.Proofs.Report.Object
import MiddleEnd.Proofs.Report.Pointing
import MiddleEnd.Proofs.Tree.Deletions
import MiddleEnd.Proofs.Tree.Places
import MiddleEnd.Proofs.Verify.Chains
import MiddleEnd.Proofs.Verify.Checks
import MiddleEnd.Proofs.Verify.Modules
import MiddleEnd.Proofs.Walk.Entries
import MiddleEnd.Proofs.Walk.Replay
import MiddleEnd.Proofs.Walk.Unfinished
import MiddleEnd.Proofs.Walk.Verdict
