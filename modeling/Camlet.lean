import Camlet.Main
import Camlet.Proofs.RoundTrip
import Camlet.Proofs.Resolution
import Camlet.Proofs.Kinds
import Camlet.Proofs.Spans
import Camlet.Proofs.Separation
import Camlet.Proofs.Floats
import Camlet.Proofs.Failures
import Camlet.Proofs.Piecewise
import Camlet.Proofs.Readback
import Camlet.Proofs.Updates
import Camlet.Proofs.Seeds
import Camlet.Proofs.Isolation
import Camlet.Proofs.Underscore
import Camlet.Proofs.Soundness
import Camlet.Proofs.LocalBindings
import Camlet.Proofs.Overflows
import Camlet.Proofs.Confinement
import Camlet.Proofs.Quoting
import Camlet.Proofs.Pointing
import Camlet.Proofs.Frames
import Camlet.Proofs.Recovery
import Camlet.Proofs.Composition
import Camlet.Proofs.Comments
import Camlet.Proofs.Gathering
import Camlet.Proofs.Rescanning
import Camlet.Proofs.Pruning
import Camlet.Proofs.Displays
import Camlet.Proofs.Merging
