import Interpolation.Expansion.Event
import Interpolation.Main
import Interpolation.Proofs.Template.Expanded
import Interpolation.Proofs.Template.Written
import Interpolation.Proofs.Graph.Cycles
import Interpolation.Proofs.Graph.Stalls
import Interpolation.Proofs.Graph.Depth
import Interpolation.Proofs.Graph.Faults
import Interpolation.Proofs.Graph.Insertions
import Interpolation.Proofs.Expansion.References
import Interpolation.Proofs.Expansion.Solution
import Interpolation.Proofs.Expansion.Success
import Interpolation.Proofs.Expansion.Preserved
import Interpolation.Proofs.Expansion.EscapeModes
import Interpolation.Proofs.Expansion.InputOrder
import Interpolation.Proofs.Expansion.OutputOrder
import Interpolation.Proofs.Expansion.Reachable
import Interpolation.Proofs.Expansion.Repair
import Interpolation.Proofs.Expansion.Replay
import Interpolation.Proofs.Document.RoundTrip
import Interpolation.Proofs.Document.Concatenation
import Interpolation.Proofs.Document.Layout
import Interpolation.Proofs.Sources.Calls
import Interpolation.Proofs.Sources.Provenance
import Interpolation.Proofs.Sources.Layers
import Interpolation.Proofs.CommandLine.Outcome
import Interpolation.Proofs.Sources.Documents
import Interpolation.Proofs.Sources.Directories
import Interpolation.Proofs.CommandLine.Precedence
import Interpolation.Proofs.Document.Keys
import Interpolation.Proofs.Template.Markers
import Interpolation.Proofs.Template.Parity
import Interpolation.Proofs.Template.Boundary
import Interpolation.Proofs.CommandLine.EmptyName
import Interpolation.Proofs.CommandLine.Changes
import Interpolation.Proofs.Document.Structures
import Interpolation.Proofs.Output.Json
import Interpolation.Proofs.Output.Yaml.Reader
import Interpolation.Proofs.Output.Yaml.Scalar
