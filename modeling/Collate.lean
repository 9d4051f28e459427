import Collate.Error
import Collate.Entries
import Collate.Table
import Collate.Strand
import Collate.Lock
import Collate.Store.Recency
import Collate.Store
import Collate.Merge
import Collate.Inlet
import Collate.Settings
import Collate.Window
import Collate.Source
import Collate.Progress
import Collate.Feed.Lifecycle
import Collate.Layer
import Collate.System
import Collate.Lookup
import Collate.Walk
import Collate.Resolution
import Collate.Distinct
import Collate.Rule
import Collate.Assembler
import Collate.Pipeline
import Collate.Feed.Consumer
import Collate.Assembly
import Collate.Simulation.Atom
import Collate.Simulation.Plan
import Collate.Simulation.Session
import Collate.Simulation.Outcome
import Collate.Simulation.Activity
import Collate.Simulation.Run
import Collate.Simulation.Transactions
import Collate.Json.Grammar
import Collate.Json.Scan
import Collate.Json.Numeral
import Collate.Json.Record
import Collate.Settings.Coding
import Collate.Settings.Text
import Collate.Proofs.Entries
import Collate.Proofs.Contents
import Collate.Proofs.Lock
import Collate.Proofs.Calls
import Collate.Proofs.Gathering
import Collate.Proofs.Steps
import Collate.Proofs.Reach
import Collate.Proofs.Coherence
import Collate.Proofs.Fields
import Collate.Proofs.Traffic
import Collate.Proofs.Exclusion
import Collate.Proofs.Feed.Batch
import Collate.Proofs.Feed.Course
import Collate.Proofs.Feed.Materialisation
import Collate.Proofs.Transparency
import Collate.Proofs.Unfailing
import Collate.Proofs.Harmony
import Collate.Proofs.Windows
import Collate.Proofs.Pipeline
import Collate.Proofs.Stream
import Collate.Proofs.Company
import Collate.Proofs.Delivery
import Collate.Proofs.Waiting
import Collate.Proofs.Store.Links
import Collate.Proofs.Store.Ranking
import Collate.Proofs.Store.Uses
import Collate.Proofs.Pipeline.Order
import Collate.Proofs.Feed.Status
import Collate.Proofs.Feed.Service
import Collate.Proofs.Feed.Lifecycle
import Collate.Proofs.Feed.Snapshots
import Collate.Proofs.Errands
import Collate.Proofs.Authority
import Collate.Proofs.Store.Evictions
import Collate.Proofs.Store.Loss
import Collate.Proofs.Feed.Failure
import Collate.Proofs.Feed.Forgetting
import Collate.Proofs.Conduct
import Collate.Proofs.Proceedings
import Collate.Proofs.Novelty
import Collate.Proofs.Batching
import Collate.Proofs.Joining
import Collate.Proofs.Solitude
import Collate.Proofs.Store.Repetition
import Collate.Proofs.Chain
import Collate.Proofs.WriteThrough
import Collate.Proofs.Peeking
import Collate.Proofs.Feed.Merging
import Collate.Proofs.Feed.Refusal
import Collate.Proofs.Setbacks
import Collate.Proofs.Nesting
import Collate.Proofs.Feed.Integrity
import Collate.Proofs.Direct
import Collate.Proofs.Store.Batches
import Collate.Proofs.Observation
import Collate.Proofs.Reports
import Collate.Proofs.Audience
import Collate.Proofs.Pipeline.Record
import Collate.Proofs.Pipeline.Waking
import Collate.Proofs.Batcher
import Collate.Proofs.Partition
import Collate.Proofs.Json.Skipping
import Collate.Proofs.Json.Reading
import Collate.Proofs.Settings.Coding
import Collate.Proofs.Settings.Text
import Collate.Proofs.Settings
import Collate.Proofs.Store.Operations
import Collate.Proofs.Store.Rounds
import Collate.Proofs.Store.Slab
