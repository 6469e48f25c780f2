import Motif.Aggregator
import Motif.Algebra.Basic
import Motif.Algebra.OfPlan
import Motif.Algebra.Rows
import Motif.Bag
import Motif.Binding
import Motif.Catalog.Basic
import Motif.Catalog.Components
import Motif.Catalog.Resolution
import Motif.Closure
import Motif.Decimal.Float
import Motif.Decimal.Shortest
import Motif.Document
import Motif.Engine.Basic
import Motif.Engine.Evaluation
import Motif.Engine.Listener
import Motif.Engine.Matching
import Motif.Engine.Preparation
import Motif.Engine.Statistics
import Motif.Engine.Subscription
import Motif.Engine.Update
import Motif.Evaluator
import Motif.Evaluator.Stock
import Motif.Event
import Motif.Failure
import Motif.Fault
import Motif.Firsts
import Motif.Index
import Motif.Issue
import Motif.Json
import Motif.Mask
import Motif.Match
import Motif.Model
import Motif.Network.Basic
import Motif.Network.Cascade
import Motif.Network.Construct
import Motif.Network.Install
import Motif.Network.Node
import Motif.Network.Pull
import Motif.Pattern.Body
import Motif.Pattern.Constraint
import Motif.Pattern.Document
import Motif.Pattern.Normal
import Motif.Pattern.Query
import Motif.Plan.Basic
import Motif.Plan.Greedy
import Motif.Plan.Slots
import Motif.Plan.Validity
import Motif.PlanError
import Motif.Proofs.Additions
import Motif.Proofs.Aggregator
import Motif.Proofs.Algebra.Constraints
import Motif.Proofs.Algebra.Extensions
import Motif.Proofs.Algebra.Folds
import Motif.Proofs.Algebra.Joins
import Motif.Proofs.Algebra.OfPlan
import Motif.Proofs.Algebra.Positive
import Motif.Proofs.Algebra.Reads
import Motif.Proofs.Algebra.Shows
import Motif.Proofs.Algebra.Value
import Motif.Proofs.Algebra.WellFormed
import Motif.Proofs.Bag
import Motif.Proofs.Bindings
import Motif.Proofs.Closure
import Motif.Proofs.Components
import Motif.Proofs.Confinement
import Motif.Proofs.Derivation
import Motif.Proofs.Engine.Agreement
import Motif.Proofs.Engine.Aloof
import Motif.Proofs.Engine.Answering
import Motif.Proofs.Engine.Building
import Motif.Proofs.Engine.Complaints
import Motif.Proofs.Engine.Deferring
import Motif.Proofs.Engine.Fixpoint
import Motif.Proofs.Engine.Flushing
import Motif.Proofs.Engine.Houses
import Motif.Proofs.Engine.Installing
import Motif.Proofs.Engine.Isolation
import Motif.Proofs.Engine.Listening
import Motif.Proofs.Engine.Mirror
import Motif.Proofs.Engine.Nesting
import Motif.Proofs.Engine.Netting
import Motif.Proofs.Engine.Preparing
import Motif.Proofs.Engine.Provision
import Motif.Proofs.Engine.Quiet
import Motif.Proofs.Engine.Relevance
import Motif.Proofs.Engine.Runs
import Motif.Proofs.Engine.Searching
import Motif.Proofs.Engine.Serving
import Motif.Proofs.Engine.Session
import Motif.Proofs.Engine.Sound
import Motif.Proofs.Engine.Undisturbed
import Motif.Proofs.Engine.Unfailing
import Motif.Proofs.Engine.Updating
import Motif.Proofs.Event
import Motif.Proofs.Expression
import Motif.Proofs.Greedy
import Motif.Proofs.History
import Motif.Proofs.Index
import Motif.Proofs.Log
import Motif.Proofs.Mask
import Motif.Proofs.Meaning
import Motif.Proofs.Merging
import Motif.Proofs.Model
import Motif.Proofs.Network.ActiveDomain
import Motif.Proofs.Network.Additions
import Motif.Proofs.Network.Annexes
import Motif.Proofs.Network.Announcing
import Motif.Proofs.Network.Building
import Motif.Proofs.Network.Chronicle
import Motif.Proofs.Network.Confinement
import Motif.Proofs.Network.Construction
import Motif.Proofs.Network.Delta
import Motif.Proofs.Network.Ending
import Motif.Proofs.Network.Exact
import Motif.Proofs.Network.Expansion
import Motif.Proofs.Network.Flatness
import Motif.Proofs.Network.Flow
import Motif.Proofs.Network.Growth
import Motif.Proofs.Network.Indexing
import Motif.Proofs.Network.Insertion
import Motif.Proofs.Network.Installation
import Motif.Proofs.Network.Laying
import Motif.Proofs.Network.Loops
import Motif.Proofs.Network.Mounted
import Motif.Proofs.Network.Mounting
import Motif.Proofs.Network.Parts
import Motif.Proofs.Network.Reading
import Motif.Proofs.Network.Refusals
import Motif.Proofs.Network.Regular
import Motif.Proofs.Network.Rendering
import Motif.Proofs.Network.Renders
import Motif.Proofs.Network.Requests
import Motif.Proofs.Network.Resting
import Motif.Proofs.Network.Rest
import Motif.Proofs.Network.Saturated
import Motif.Proofs.Network.Settling
import Motif.Proofs.Network.Spreading
import Motif.Proofs.Network.Steps
import Motif.Proofs.Network.Termination
import Motif.Proofs.Network.Traces
import Motif.Proofs.Network.Updating
import Motif.Proofs.Network.Wiring
import Motif.Proofs.Node
import Motif.Proofs.Normal
import Motif.Proofs.NormalForm
import Motif.Proofs.Operators
import Motif.Proofs.Ordering
import Motif.Proofs.Pairing
import Motif.Proofs.Positions
import Motif.Proofs.Reach
import Motif.Proofs.Receive
import Motif.Proofs.Registration
import Motif.Proofs.Relational
import Motif.Proofs.Removal
import Motif.Proofs.Resolution
import Motif.Proofs.Respond
import Motif.Proofs.Schema
import Motif.Proofs.Search.Acceptance
import Motif.Proofs.Search.Alike
import Motif.Proofs.Search.Calls
import Motif.Proofs.Search.Derived
import Motif.Proofs.Search.Exact
import Motif.Proofs.Search.Following
import Motif.Proofs.Search.Frames
import Motif.Proofs.Search.Grounding
import Motif.Proofs.Search.Maintained
import Motif.Proofs.Search.Operations
import Motif.Proofs.Search.Parallel
import Motif.Proofs.Search.Paths
import Motif.Proofs.Search.Provision
import Motif.Proofs.Search.Slots
import Motif.Proofs.Stratification
import Motif.Proofs.Table
import Motif.Proofs.Tarjan
import Motif.Proofs.Traversal
import Motif.Reach
import Motif.Schema
import Motif.Search.Operation
import Motif.Search.Plan
import Motif.Search.Run
import Motif.Sequence
import Motif.Settings
import Motif.Settings.Environment
import Motif.Settings.Sources
import Motif.Table
import Motif.Text.Characters
import Motif.Text.Digits
import Motif.Text.Quoted
import Motif.Text.Reader
import Motif.Toml.Document
import Motif.Toml.Scalar
import Motif.Toml.Tables
import Motif.Toml.Text
import Motif.Value
import Motif.Value.Order
import Motif.Proofs.Engine.Recomputation
