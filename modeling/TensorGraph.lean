import TensorGraph.Device.Catalogue
import TensorGraph.Lane.Binary64
import TensorGraph.Session.Step
import TensorGraph.Settings
import TensorGraph.Proofs.Position
import TensorGraph.Proofs.View.Place
import TensorGraph.Proofs.View.Exact
import TensorGraph.Proofs.View.Laws
import TensorGraph.Proofs.Tracker.Symbolic
import TensorGraph.Proofs.Tracker.Simplify
import TensorGraph.Proofs.Tracker.Bounds
import TensorGraph.Proofs.Graph.Counts
import TensorGraph.Proofs.Graph.Operations
import TensorGraph.Proofs.Graph.Coverage
import TensorGraph.Proofs.Meaning.Session
import TensorGraph.Proofs.Arguments
import TensorGraph.Proofs.Resumption
import TensorGraph.Proofs.Trace
import TensorGraph.Proofs.Schedule.Discipline
import TensorGraph.Proofs.Composed
import TensorGraph.Proofs.Schedule.Fanout
import TensorGraph.Proofs.Schedule.Pure
import TensorGraph.Proofs.Readback
import TensorGraph.Proofs.Schedule.Resolve
import TensorGraph.Proofs.Kernel.Chain
import TensorGraph.Proofs.Kernel.Storage
import TensorGraph.Proofs.Kernel.Sweep
import TensorGraph.Proofs.Substitution
import TensorGraph.Proofs.Meaning.Passes
