import NetworkAnalysis.Adjacency.Compressed
import NetworkAnalysis.Adjacency.CountingSort
import NetworkAnalysis.Adjacency.Flat
import NetworkAnalysis.Adjacency.Packed
import NetworkAnalysis.Adjacency.Row
import NetworkAnalysis.Centrality.Betweenness
import NetworkAnalysis.Centrality.Exploration
import NetworkAnalysis.Command.Arguments
import NetworkAnalysis.Command.Failure
import NetworkAnalysis.Command.FileTree
import NetworkAnalysis.Command.Findings
import NetworkAnalysis.Command.Invocation
import NetworkAnalysis.Command.Layout
import NetworkAnalysis.Command.Session
import NetworkAnalysis.Command.Usage
import NetworkAnalysis.Command.ValueFile
import NetworkAnalysis.Command.World
import NetworkAnalysis.Community.Detection
import NetworkAnalysis.Community.Level
import NetworkAnalysis.Community.Move
import NetworkAnalysis.Community.Relabel
import NetworkAnalysis.Component.Partition
import NetworkAnalysis.Component.Search
import NetworkAnalysis.Decimal.Shortest
import NetworkAnalysis.Decimal.Text
import NetworkAnalysis.Direction
import NetworkAnalysis.EdgeFile
import NetworkAnalysis.Error
import NetworkAnalysis.Export
import NetworkAnalysis.Graph
import NetworkAnalysis.Heap
import NetworkAnalysis.IdMap
import NetworkAnalysis.Json
import NetworkAnalysis.Loading
import NetworkAnalysis.Main
import NetworkAnalysis.Network
import NetworkAnalysis.Paged
import NetworkAnalysis.Progress
import NetworkAnalysis.Proofs.Adjacency
import NetworkAnalysis.Proofs.Centrality.Betweenness
import NetworkAnalysis.Proofs.Centrality.Dependency
import NetworkAnalysis.Proofs.Centrality.Directions
import NetworkAnalysis.Proofs.Centrality.Interruption
import NetworkAnalysis.Proofs.Centrality.Layers
import NetworkAnalysis.Proofs.Centrality.Leftovers
import NetworkAnalysis.Proofs.Centrality.PathCounts
import NetworkAnalysis.Proofs.Centrality.Reuse
import NetworkAnalysis.Proofs.Centrality.Shares
import NetworkAnalysis.Proofs.Centrality.Sweep
import NetworkAnalysis.Proofs.Centrality.Walks
import NetworkAnalysis.Proofs.Command.FinalPaths
import NetworkAnalysis.Proofs.Command.Sessions
import NetworkAnalysis.Proofs.Command.ValueFile
import NetworkAnalysis.Proofs.Community.Aggregates
import NetworkAnalysis.Proofs.Community.Appearance
import NetworkAnalysis.Proofs.Community.Choice
import NetworkAnalysis.Proofs.Community.Coarsening
import NetworkAnalysis.Proofs.Community.Collapse
import NetworkAnalysis.Proofs.Community.Containment
import NetworkAnalysis.Proofs.Community.Convergence
import NetworkAnalysis.Proofs.Community.Gain
import NetworkAnalysis.Proofs.Community.Interruption
import NetworkAnalysis.Proofs.Community.Joins
import NetworkAnalysis.Proofs.Community.Levels
import NetworkAnalysis.Proofs.Community.LocalOptimum
import NetworkAnalysis.Proofs.Community.Matrix
import NetworkAnalysis.Proofs.Community.Pairs
import NetworkAnalysis.Proofs.Community.Passes
import NetworkAnalysis.Proofs.Community.Quality
import NetworkAnalysis.Proofs.Community.Renumbering
import NetworkAnalysis.Proofs.Community.ScaleInvariance
import NetworkAnalysis.Proofs.Community.Scaling
import NetworkAnalysis.Proofs.Community.Scratch
import NetworkAnalysis.Proofs.Community.Settling
import NetworkAnalysis.Proofs.Community.Shrinking
import NetworkAnalysis.Proofs.Community.Spreading
import NetworkAnalysis.Proofs.Community.Stability
import NetworkAnalysis.Proofs.Community.WellFormed
import NetworkAnalysis.Proofs.Community.Workers
import NetworkAnalysis.Proofs.Component.Closing
import NetworkAnalysis.Proofs.Component.Correctness
import NetworkAnalysis.Proofs.Component.Interruption
import NetworkAnalysis.Proofs.Component.Invariant
import NetworkAnalysis.Proofs.Component.Recursive
import NetworkAnalysis.Proofs.Component.Roots
import NetworkAnalysis.Proofs.Component.Run
import NetworkAnalysis.Proofs.Component.Simulation
import NetworkAnalysis.Proofs.Component.Steps
import NetworkAnalysis.Proofs.Compressed
import NetworkAnalysis.Proofs.CostOrder
import NetworkAnalysis.Proofs.CountingSort
import NetworkAnalysis.Proofs.Declarations
import NetworkAnalysis.Proofs.Double.Addition
import NetworkAnalysis.Proofs.Double.Fractions
import NetworkAnalysis.Proofs.Double.Order
import NetworkAnalysis.Proofs.Double.Rounding
import NetworkAnalysis.Proofs.EdgeFile
import NetworkAnalysis.Proofs.Export
import NetworkAnalysis.Proofs.Fractions
import NetworkAnalysis.Proofs.Heap
import NetworkAnalysis.Proofs.LoadFallback
import NetworkAnalysis.Proofs.LoadOutcome
import NetworkAnalysis.Proofs.LoadSuccess
import NetworkAnalysis.Proofs.LoadedGraph
import NetworkAnalysis.Proofs.Paged
import NetworkAnalysis.Proofs.PagedAccess
import NetworkAnalysis.Proofs.Progress
import NetworkAnalysis.Proofs.Relationships
import NetworkAnalysis.Proofs.Rows
import NetworkAnalysis.Proofs.ScaledLoad
import NetworkAnalysis.Proofs.ShortestPath.Arrangement
import NetworkAnalysis.Proofs.ShortestPath.Branches
import NetworkAnalysis.Proofs.ShortestPath.Distances
import NetworkAnalysis.Proofs.ShortestPath.Frontier
import NetworkAnalysis.Proofs.ShortestPath.Interruption
import NetworkAnalysis.Proofs.ShortestPath.Invariant
import NetworkAnalysis.Proofs.ShortestPath.Optimality
import NetworkAnalysis.Proofs.ShortestPath.Routes
import NetworkAnalysis.Proofs.ShortestPath.TargetCost
import NetworkAnalysis.Proofs.ShortestPath.Ties
import NetworkAnalysis.Proofs.Sorting
import NetworkAnalysis.Proofs.SortingHeap
import NetworkAnalysis.Proofs.SortingMapped
import NetworkAnalysis.Proofs.SortingOrdered
import NetworkAnalysis.Proofs.StorageAgreement
import NetworkAnalysis.Proofs.TextLines
import NetworkAnalysis.Proofs.Transpose
import NetworkAnalysis.Proofs.Varint
import NetworkAnalysis.Proofs.VarintForm
import NetworkAnalysis.Proofs.Visitor
import NetworkAnalysis.Proofs.VisitorStops
import NetworkAnalysis.Proofs.Watched
import NetworkAnalysis.Queue
import NetworkAnalysis.Run
import NetworkAnalysis.Scalar
import NetworkAnalysis.Settings
import NetworkAnalysis.SettingsFile
import NetworkAnalysis.ShortestPath.Paths
import NetworkAnalysis.ShortestPath.Search
import NetworkAnalysis.Sorting.HeapSort
import NetworkAnalysis.Sorting.Introsort
import NetworkAnalysis.Source
import NetworkAnalysis.Statistics
import NetworkAnalysis.Table
import NetworkAnalysis.Text.Number
import NetworkAnalysis.Text.Padding
import NetworkAnalysis.Text.Split
import NetworkAnalysis.Timing
import NetworkAnalysis.Toml.Document
import NetworkAnalysis.Toml.Quoted
import NetworkAnalysis.Toml.Scalar
import NetworkAnalysis.Toml.Value
import NetworkAnalysis.Varint
import NetworkAnalysis.Word
