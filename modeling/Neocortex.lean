import Neocortex.Python.Text
import Neocortex.Python.Json
import Neocortex.Python.Render
import Neocortex.Python.JsonRoundTrip
import Neocortex.Python.Equality
import Neocortex.Publication.Records
import Neocortex.Library.Checks
import Neocortex.Library.Durable
import Neocortex.Publication.Directory
import Neocortex.Publication.Operations
import Neocortex.Publication.RoundTrip
import Neocortex.Publication.Journal
import Neocortex.Publication.Stored
import Neocortex.Publication.Drafts
import Neocortex.Publication.Growth
import Neocortex.Publication.Epochs
import Neocortex.Publication.Exclusive
import Neocortex.Publication.Torn
import Neocortex.Publication.Readable
import Neocortex.Publication.Replay
import Neocortex.Library.Terminated
import Neocortex.Inventory.Paths
import Neocortex.Inventory.Tree
import Neocortex.Inventory.Order
import Neocortex.Library.Tables
import Neocortex.Inventory.Records
import Neocortex.Inventory.Database
import Neocortex.Inventory.Traversal
import Neocortex.Inventory.Scanner
import Neocortex.Inventory.Retention
import Neocortex.Framework.Records
import Neocortex.Framework.Budget
import Neocortex.Framework.Lifecycle
import Neocortex.Framework.Ledger
import Neocortex.Framework.Evolution
import Neocortex.Framework.Exact
import Neocortex.Library.SharedClaims
import Neocortex.Resources.Devices
import Neocortex.Resources.Coordinator
import Neocortex.Resources.Scheduling
import Neocortex.Resources.Operations
import Neocortex.Resources.Accounting
import Neocortex.Resources.Conservation
import Neocortex.Resources.Ceilings
import Neocortex.Library.Rows
import Neocortex.Semantic.Records
import Neocortex.Semantic.Queue
import Neocortex.Semantic.Generations
import Neocortex.Semantic.Steps
import Neocortex.Semantic.Statements
import Neocortex.Semantic.Schema
import Neocortex.Semantic.Control
import Neocortex.Semantic.Projection
import Neocortex.Semantic.Attempts
import Neocortex.Semantic.Leases
import Neocortex.Semantic.Heads
import Neocortex.Semantic.Batches
import Neocortex.Semantic.Clone
import Neocortex.Framework.Stages
import Neocortex.Library.Connections
import Neocortex.Framework.Statements
import Neocortex.Framework.Cancellation
import Neocortex.Actions.Ledger
import Neocortex.Actions.Reconciliation
import Neocortex.Actions.Histories
import Neocortex.Library.Pages
import Neocortex.Actions.TrashEvidence
import Neocortex.Actions.Recovery
import Neocortex.Actions.Interrupted
import Neocortex.Actions.Trash
import Neocortex.Actions.Transitions
import Neocortex.Actions.Frontier
import Neocortex.Actions.WriteAhead
import Neocortex.Actions.Turns
import Neocortex.Actions.Followed
import Neocortex.Actions.EmptyDirectories
import Neocortex.Python.Words
import Neocortex.Library.Generator
import Neocortex.Chunking.Windows
import Neocortex.Chunking.Chunks
import Neocortex.Chunking.Coverage
import Neocortex.Chunking.Spans
import Neocortex.Chunking.Lookahead
import Neocortex.Elastic.Map
import Neocortex.Elastic.Works
import Neocortex.Elastic.Moves
import Neocortex.Elastic.Invariant
import Neocortex.Elastic.Window
import Neocortex.Elastic.Results
import Neocortex.Elastic.Admission
import Neocortex.Artifacts.Records
import Neocortex.Artifacts.Storage
import Neocortex.Artifacts.Registration
import Neocortex.Artifacts.Outcomes
import Neocortex.Artifacts.Atomic
import Neocortex.Artifacts.Updates
import Neocortex.Artifacts.Replays
import Neocortex.Retrieval.Witnesses
import Neocortex.Library.Borders
import Neocortex.Library.Runs
import Neocortex.Retrieval.Tokens
import Neocortex.Retrieval.Literal
import Neocortex.Retrieval.Snippets
import Neocortex.Library.TopGroups
import Neocortex.Retrieval.ExactSearch
import Neocortex.Retrieval.VectorPages
import Neocortex.Library.Winners
import Neocortex.Retrieval.NumericSearch
import Neocortex.Retrieval.ExactIndex
import Neocortex.Knowledge.Fusion
import Neocortex.Knowledge.Clusters
import Neocortex.Inventory.Plans
import Neocortex.Inventory.PlanRuns
import Neocortex.Inventory.Successors
import Neocortex.Inventory.Lineage
import Neocortex.Inventory.LineageRuns
import Neocortex.Inventory.ScanRuns
import Neocortex.Archive.Zip
import Neocortex.Archive.Layout
import Neocortex.Archive.Preflight
import Neocortex.Archive.Extents
import Neocortex.Archive.Extraction
import Neocortex.Deduplication.Grouping
import Neocortex.Deduplication.Partition
import Neocortex.Deduplication.Classes
import Neocortex.Deduplication.Keepers
import Neocortex.Deduplication.PlanDigest
import Neocortex.Documents.Names
import Neocortex.Documents.Application
import Neocortex.Semantic.Isolation
import Neocortex.Foundation.FileIdentity
