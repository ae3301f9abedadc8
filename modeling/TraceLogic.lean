import TraceLogic.CommandLine
import TraceLogic.Files.Tree
import TraceLogic.Main
import TraceLogic.Proofs.Interpretation
import TraceLogic.Proofs.Chronicle
import TraceLogic.Proofs.Soundness
import TraceLogic.Proofs.Requests
import TraceLogic.Proofs.Totality
import TraceLogic.Proofs.Traces
import TraceLogic.Proofs.Sexp
import TraceLogic.Proofs.Script
import TraceLogic.Proofs.Clash
import TraceLogic.Proofs.Schedule
import TraceLogic.Proofs.Sorts
import TraceLogic.Proofs.WellSorted
import TraceLogic.Proofs.ClosedScript
import TraceLogic.Proofs.Reserved
import TraceLogic.Proofs.SolverNames
import TraceLogic.Proofs.Acceptance
import TraceLogic.Proofs.Erasure
import TraceLogic.Proofs.Nesting
import TraceLogic.Proofs.Capture
import TraceLogic.Proofs.LoopHeads
import TraceLogic.Proofs.Weakening
import TraceLogic.Proofs.Evaluation
import TraceLogic.Proofs.Completeness
import TraceLogic.Proofs.Reading
import TraceLogic.Proofs.Assignment
import TraceLogic.Proofs.History
import TraceLogic.Proofs.Streaming
import TraceLogic.Proofs.Labels
import TraceLogic.Proofs.Delivery
import TraceLogic.Proofs.Nearest
import TraceLogic.Proofs.Offsets
