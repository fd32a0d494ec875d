import PatternGraph.Json.Writer
import PatternGraph.Session.Machine
import PatternGraph.Settings
import PatternGraph.Proofs.Index.Diagram
import PatternGraph.Proofs.Index.Refinement
import PatternGraph.Proofs.DisjointSet.Classes
import PatternGraph.Proofs.Query.Coverage
import PatternGraph.Proofs.Query.Expansion
import PatternGraph.Proofs.Query.NestedLoops
import PatternGraph.Proofs.Query.Satisfaction
import PatternGraph.Proofs.Query.Ledger
import PatternGraph.Proofs.Query.LoweringSteps
import PatternGraph.Proofs.Types
import PatternGraph.Proofs.Query.Extension
import PatternGraph.Proofs.Query.Places
import PatternGraph.Proofs.Query.LoweringRun
import PatternGraph.Proofs.Query.Lowered
import PatternGraph.Proofs.Query.Matches
import PatternGraph.Proofs.Query.Interpretation
import PatternGraph.Proofs.Query.Answers
import PatternGraph.Proofs.Query.Agreement
import PatternGraph.Proofs.Query.Naming
import PatternGraph.Proofs.Query.Suspension
import PatternGraph.Proofs.Query.Streams
import PatternGraph.Proofs.Query.Pulls
import PatternGraph.Proofs.Query.Stacks
import PatternGraph.Proofs.Store.Removing
import PatternGraph.Proofs.Session.Adding
import PatternGraph.Proofs.Session.Owed
import PatternGraph.Proofs.Session.Reachable
import PatternGraph.Proofs.Session.Coherence
import PatternGraph.Proofs.Session.Queries
import PatternGraph.Proofs.Session.Steps
import PatternGraph.Proofs.Session.Mirrors
import PatternGraph.Proofs.Session.MirrorSteps
import PatternGraph.Proofs.Session.Freshness
import PatternGraph.Proofs.Store.Housing
import PatternGraph.Proofs.Store.Arrivals
import PatternGraph.Proofs.Store.Rewiring
import PatternGraph.Proofs.Store.Ageing
import PatternGraph.Proofs.Store.Sound
import PatternGraph.Proofs.Store.Moves
import PatternGraph.Proofs.Session.History
import PatternGraph.Proofs.Session.Duties
import PatternGraph.Proofs.Session.Undertaking
import PatternGraph.Proofs.Session.Orderly
import PatternGraph.Proofs.Session.Exclusive
import PatternGraph.Proofs.Session.Poised
import PatternGraph.Proofs.Session.Agreement
import PatternGraph.Proofs.Store.Drawn
import PatternGraph.Proofs.Store.Underway
import PatternGraph.Proofs.Store.Attaching
import PatternGraph.Proofs.Store.Drifting
import PatternGraph.Proofs.Store.Closure
import PatternGraph.Proofs.Session.Running
import PatternGraph.Proofs.Session.Tidy
import PatternGraph.Proofs.Session.Bringing
import PatternGraph.Proofs.Session.Connecting
import PatternGraph.Proofs.Session.Closing
import PatternGraph.Proofs.Session.Failing
import PatternGraph.Proofs.Store.Replay
import PatternGraph.Proofs.Store.Journal
import PatternGraph.Proofs.Session.Backlog
import PatternGraph.Proofs.Session.Aims
import PatternGraph.Proofs.Session.EventLog
import PatternGraph.Proofs.Session.Listings
import PatternGraph.Proofs.Session.Deliveries
import PatternGraph.Proofs.Session.Phases
import PatternGraph.Proofs.Session.Observing
import PatternGraph.Proofs.Session.Courses
import PatternGraph.Proofs.Session.Tending
import PatternGraph.Proofs.Query.Gathering
import PatternGraph.Proofs.Session.Feeding
import PatternGraph.Proofs.Session.Conservation
import PatternGraph.Proofs.Session.Subscriptions
import PatternGraph.Proofs.Session.Listening
import PatternGraph.Proofs.Session.Destruction
import PatternGraph.Proofs.Session.Pairs
import PatternGraph.Proofs.Query.Relevance
import PatternGraph.Proofs.Session.Content
import PatternGraph.Proofs.Query.Language
import PatternGraph.Proofs.Query.Failing
import PatternGraph.Proofs.Query.Refusals
import PatternGraph.Proofs.Query.Crowding
import PatternGraph.Proofs.Query.Acceptance
import PatternGraph.Proofs.Query.Renaming
import PatternGraph.Proofs.Query.Reordering
import PatternGraph.Proofs.Query.Correspondence
import PatternGraph.Proofs.Query.ItemOrder
import PatternGraph.Proofs.Session.Joining
import PatternGraph.Proofs.Query.Product
import PatternGraph.Proofs.Query.Growth
import PatternGraph.Proofs.Query.Mirroring
import PatternGraph.Proofs.Query.Planning
import PatternGraph.Proofs.Query.Linking
import PatternGraph.Proofs.Query.SlotTable
import PatternGraph.Proofs.Index.Selection
import PatternGraph.Proofs.Store.Clearing
import PatternGraph.Proofs.Session.Clearing
import PatternGraph.Proofs.Query.RowBytes
import PatternGraph.Proofs.Query.GoingOn
import PatternGraph.Proofs.Query.RowStream
import PatternGraph.Proofs.Query.Projection
import PatternGraph.Proofs.DisjointSet.Calls
import PatternGraph.Proofs.DisjointSet.Ranks
import PatternGraph.Proofs.Query.Narrowing
import PatternGraph.Proofs.Query.Enumeration
