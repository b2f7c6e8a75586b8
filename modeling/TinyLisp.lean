import TinyLisp.Main
import TinyLisp.Proofs.Limit
import TinyLisp.Proofs.Adequacy
import TinyLisp.Proofs.TailCalls
import TinyLisp.Proofs.Parentheses
import TinyLisp.Proofs.RoundTrip
import TinyLisp.Proofs.Places
import TinyLisp.Proofs.InvalidBytes
import TinyLisp.Proofs.Automaton
import TinyLisp.Proofs.Transcript
import TinyLisp.Proofs.Frames
import TinyLisp.Proofs.Locality
import TinyLisp.Proofs.Dialogues
import TinyLisp.Proofs.PlaceFree
import TinyLisp.Proofs.Displacement
import TinyLisp.Proofs.Failures
import TinyLisp.Proofs.ProperFaults
import TinyLisp.Proofs.Composition
import TinyLisp.Proofs.Preloading
import TinyLisp.Proofs.Isolation
import TinyLisp.Proofs.Printing
import TinyLisp.Proofs.FirstForm
import TinyLisp.Proofs.Finality
import TinyLisp.Proofs.Application
import TinyLisp.Proofs.Swaps
import TinyLisp.Proofs.Wrapping
import TinyLisp.Proofs.WrappedRuns
import TinyLisp.Proofs.LimitRecords
import TinyLisp.Proofs.Arithmetic
import TinyLisp.Proofs.Lines
import TinyLisp.Proofs.Startup
import TinyLisp.Proofs.Registration
import TinyLisp.Proofs.Scanning
import TinyLisp.Proofs.Progress
import TinyLisp.Proofs.Descent
import TinyLisp.Proofs.Lifetimes
