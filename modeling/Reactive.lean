import Reactive.Machine.Session
import Reactive.Main
import Reactive.Proofs.Execution
import Reactive.Proofs.Building
import Reactive.Proofs.Evaluation
import Reactive.Proofs.Instructions
import Reactive.Proofs.Lowering
import Reactive.Proofs.Harmless
import Reactive.Proofs.Interpretation
import Reactive.Proofs.Statements
import Reactive.Proofs.Storing
import Reactive.Proofs.Assembling
import Reactive.Proofs.Methods
import Reactive.Proofs.Drafting
import Reactive.Proofs.Sessions
import Reactive.Proofs.Setters
import Reactive.Proofs.Staging
import Reactive.Proofs.Analyzing
import Reactive.Proofs.Quiet
import Reactive.Proofs.Search
import Reactive.Proofs.Notification
import Reactive.Proofs.Propagation
import Reactive.Proofs.Generated
import Reactive.Proofs.Loaded
import Reactive.Proofs.Loading
import Reactive.Proofs.Cycles
import Reactive.Proofs.Ordering
import Reactive.Proofs.Rejection
import Reactive.Proofs.Freshness
import Reactive.Proofs.InitOrder
import Reactive.Proofs.Heights
import Reactive.Proofs.Balance
import Reactive.Proofs.Congruence
import Reactive.Proofs.Termination
import Reactive.Proofs.Baseline
import Reactive.Proofs.Fitting
import Reactive.Proofs.Ledger
import Reactive.Proofs.Outline
import Reactive.Proofs.Patching
import Reactive.Proofs.Announcing
import Reactive.Proofs.References
import Reactive.Proofs.Closure
import Reactive.Proofs.Names
import Reactive.Proofs.Dangling
import Reactive.Proofs.Labels
import Reactive.Proofs.Protocol
import Reactive.Proofs.Grouping
import Reactive.Proofs.Roundtrip
import Reactive.Proofs.Written
import Reactive.Proofs.Stored
import Reactive.Proofs.Tracing
import Reactive.Proofs.Circles
import Reactive.Proofs.Targets
import Reactive.Proofs.Cutting
import Reactive.Proofs.Wording
import Reactive.Proofs.Listings
import Reactive.Pool
import Reactive.Proofs.Workers
import Reactive.Machine.Stepping
import Reactive.Proofs.Stepping
import Reactive.Proofs.Settling
import Reactive.Proofs.Books
import Reactive.Proofs.Consuming
import Reactive.Proofs.Outputs
import Reactive.Proofs.Positions
import Reactive.Proofs.Keyed
import Reactive.Proofs.Binding
import Reactive.Proofs.Coherence
import Reactive.Proofs.Emitting
import Reactive.Proofs.Registering
import Reactive.Proofs.Undisturbed
import Reactive.Proofs.Arrivals
import Reactive.Proofs.Projecting
import Reactive.Proofs.Footprint
import Reactive.Proofs.Purity
import Reactive.Proofs.Parsing
import Reactive.Proofs.Chains
import Reactive.Proofs.Resolution
import Reactive.Proofs.Advancing
import Reactive.Proofs.Recovering
import Reactive.Proofs.Locating
import Reactive.Proofs.Slicing
import Reactive.Proofs.Aborting
import Reactive.Proofs.Declaring
import Reactive.Proofs.TypeTexts
import Reactive.Proofs.Overloading
import Reactive.Proofs.Extracting
import Reactive.Proofs.LowLinks
import Reactive.Proofs.Blocks
import Reactive.Proofs.Enabling
