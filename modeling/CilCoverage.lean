import CilCoverage.Main
import CilCoverage.Coverage.Session
import CilCoverage.Coverage.VisitQueue
import CilCoverage.Proofs.Bytes.Transfer
import CilCoverage.Proofs.Instruction.Codec
import CilCoverage.Proofs.Body.RoundTrip
import CilCoverage.Proofs.Instruction.Starts
import CilCoverage.Proofs.Method.Layout
import CilCoverage.Proofs.Method.Validity
import CilCoverage.Proofs.Method.Encoding
import CilCoverage.Proofs.Method.Binding
import CilCoverage.Proofs.Method.Decoding
import CilCoverage.Proofs.Method.Preservation
import CilCoverage.Proofs.Method.Redecoding
import CilCoverage.Proofs.Method.Editing
import CilCoverage.Proofs.Method.Dangling
import CilCoverage.Proofs.Method.Boundaries
import CilCoverage.Proofs.Method.Contents
import CilCoverage.Proofs.Method.Scopes
import CilCoverage.Proofs.Method.Insertion
import CilCoverage.Proofs.Method.Growth
import CilCoverage.Proofs.Method.Identity
import CilCoverage.Proofs.Coverage.Reports
import CilCoverage.Proofs.Coverage.Chains
import CilCoverage.Proofs.Coverage.Plan
import CilCoverage.Proofs.Coverage.Placing
import CilCoverage.Proofs.Coverage.BranchBlocks
import CilCoverage.Proofs.Coverage.BranchPlacement
import CilCoverage.Proofs.Coverage.Routing
import CilCoverage.Proofs.Coverage.Transparency
import CilCoverage.Proofs.Coverage.Recoding
import CilCoverage.Proofs.Coverage.Scoping
import CilCoverage.Proofs.Coverage.Reachability
import CilCoverage.Proofs.Coverage.Exactness
import CilCoverage.Proofs.Coverage.BranchExactness
import CilCoverage.Proofs.Coverage.Interruption
import CilCoverage.Proofs.Method.Searching
import CilCoverage.Proofs.Method.Fitting
import CilCoverage.Proofs.Method.Capacity
import CilCoverage.Proofs.Coverage.Representation
import CilCoverage.Proofs.Coverage.Readback
import CilCoverage.Proofs.Coverage.Occurrence
import CilCoverage.Proofs.Coverage.Pieces
import CilCoverage.Proofs.Coverage.Finding
import CilCoverage.Proofs.Coverage.Transcript
import CilCoverage.Proofs.Coverage.Recompilation
import CilCoverage.Proofs.Coverage.HandingBack
import CilCoverage.Proofs.Method.Equivalence
import CilCoverage.Proofs.Coverage.Following
import CilCoverage.Proofs.Coverage.Settling
import CilCoverage.Proofs.Coverage.Rereading
import CilCoverage.Proofs.Coverage.Recognition
import CilCoverage.Proofs.Coverage.Levels
import CilCoverage.Proofs.Coverage.StackDepth
import CilCoverage.Proofs.Coverage.Visits
import CilCoverage.Proofs.Coverage.Filling
import CilCoverage.Proofs.Bytes.Taking
import CilCoverage.Proofs.Body.Sections
import CilCoverage.Proofs.Method.Agreement
import CilCoverage.Proofs.Coverage.Reordering
import CilCoverage.Proofs.Bytes.Mirroring
import CilCoverage.Proofs.Instruction.Streams
import CilCoverage.Proofs.Outcome
import CilCoverage.Proofs.Text.Numerals
import CilCoverage.Proofs.Text.Fields
import CilCoverage.Proofs.Coverage.PointListing
