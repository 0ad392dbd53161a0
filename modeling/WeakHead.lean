import WeakHead.Main
import WeakHead.Proofs.SealedRun
import WeakHead.Proofs.FusedRun
import WeakHead.Proofs.Slotwise
import WeakHead.Proofs.StepLimit
import WeakHead.Proofs.SpineOperations
import WeakHead.Proofs.Rendering
import WeakHead.Proofs.Built
import WeakHead.Proofs.StackWalk
import WeakHead.Proofs.SlotwiseMachine
import WeakHead.Proofs.BinderBounds
import WeakHead.Proofs.BoundedRun
import WeakHead.Proofs.SinkCalls
import WeakHead.Proofs.SinkFailure
import WeakHead.Proofs.Tracing
import WeakHead.Proofs.Requests
import WeakHead.Proofs.WholeBytes
import WeakHead.Proofs.Masks
import WeakHead.Proofs.Flushes
import WeakHead.Proofs.PlainSubstitution
import WeakHead.Proofs.InstantiationLaws
import WeakHead.Proofs.SpineCapacity
import WeakHead.Proofs.AtomSources
import WeakHead.Proofs.BinderCounts
import WeakHead.Proofs.EmptyBinders
import WeakHead.Proofs.ProblemPlaces
import WeakHead.Proofs.UnknownNames
import WeakHead.Proofs.BracketProblems
import WeakHead.Proofs.RenderLoop
