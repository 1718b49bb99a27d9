import PatternQuery.Command.Session
import PatternQuery.Config.Execution
import PatternQuery.Main
import PatternQuery.Proofs.Command.Emission
import PatternQuery.Proofs.Command.Session
import PatternQuery.Proofs.Config.Independence
import PatternQuery.Proofs.Config.Normal
import PatternQuery.Proofs.Config.Obtainable
import PatternQuery.Proofs.Config.Refusals
import PatternQuery.Proofs.Config.Replay
import PatternQuery.Proofs.Config.RoundTrip
import PatternQuery.Proofs.Config.Stored
import PatternQuery.Proofs.Graph.CanonicalForm
import PatternQuery.Proofs.Graph.Cycle
import PatternQuery.Proofs.Graph.FixedPoint
import PatternQuery.Proofs.Graph.HopOrder
import PatternQuery.Proofs.Graph.Keys
import PatternQuery.Proofs.Graph.Search
import PatternQuery.Proofs.Json.Record
import PatternQuery.Proofs.Ordered
import PatternQuery.Proofs.Pattern.Faults
import PatternQuery.Proofs.Pattern.Grid
import PatternQuery.Proofs.Pattern.Numbers
import PatternQuery.Proofs.Pattern.Stored
import PatternQuery.Proofs.Payload.Attribution
import PatternQuery.Proofs.Payload.Cells
import PatternQuery.Proofs.Payload.Grouping
import PatternQuery.Proofs.Payload.Hiding
import PatternQuery.Proofs.Payload.Paths
import PatternQuery.Proofs.Payload.Projection
import PatternQuery.Proofs.Payload.Reserved
import PatternQuery.Proofs.Payload.RoundTrip
import PatternQuery.Proofs.Payload.Rows
import PatternQuery.Proofs.Payload.Table
import PatternQuery.Proofs.Profile.Rejected
import PatternQuery.Proofs.Schema.Catalog
import PatternQuery.Proofs.Schema.Matching
import PatternQuery.Proofs.Selection.Refinement
import PatternQuery.Proofs.Selection.Stored
import PatternQuery.Proofs.Text.Bytes
import PatternQuery.Tally
