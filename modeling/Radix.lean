import Radix.Lib.Digits
import Radix.Lib.Trie
import Radix.Lib.LastWrite
import Radix.Lib.Fallible
import Radix.Lib.Interleaving
import Radix.Lib.Tickets
import Radix.Lib.Roster
import Radix.Lib.Chains
import Radix.Lib.Census
import Radix.Lib.Draws
import Radix.Lib.Memory
import Radix.Lib.Traced
import Radix.Lib.Amortized
import Radix.Utils.Bitmap
import Radix.Utils.Words
import Radix.Utils.EdgeArray
import Radix.Graph.Compaction
import Radix.Graph.Neighbours
import Radix.Graph.Insert
import Radix.Graph.Deletion
import Radix.Graph.VertexArray
import Radix.Graph.Actions
import Radix.Graph.Pages
import Radix.Graph.Expansion
import Radix.Graph.Scratch
import Radix.Graph.Timestamps
import Radix.Graph.Permanence
import Radix.Graph.Reports
import Radix.Graph.Sortedness
import Radix.Graph.Refusals
import Radix.Graph.Integrity
import Radix.Graph.Interchange
import Radix.Graph.Steps
import Radix.Graph.Writers
import Radix.Graph.Lossless
import Radix.Graph.Readers
import Radix.Graph.Visible
import Radix.Sort.Model
import Radix.Sort.Optimizer
import Radix.Sort.AverageSize
import Radix.Sort.Pruning
import Radix.Sort.Dictionary
import Radix.Sort.Calls
import Radix.Sort.Transform
import Radix.Sort.Widths
import Radix.Sort.Once
import Radix.Sort.Recycling
import Radix.Sort.Walks
import Radix.Sort.Returned
import Radix.Sort.Cuts
import Radix.Graph.Model
import Radix.Graph.History
import Radix.Graph.Ledger
import Radix.Graph.Digraph
import Radix.Graph.Runs
import Radix.Graph.Refinement
import Radix.Graph.Versions
import Radix.Graph.Schedules
import Radix.Graph.Identity
import Radix.Graph.Retirement
import Radix.Graph.Translation
import Radix.Graph.Vectors
import Radix.Graph.Memory
import Radix.Graph.Bounds
import Radix.Graph.Built
import Radix.Graph.Served
import Radix.Lib.Search
import Radix.Analytics.Containers
import Radix.Analytics.Adjacency
import Radix.Analytics.Bfs
import Radix.Analytics.BfsSteps
import Radix.Analytics.BfsRuns
import Radix.Analytics.Reachability
import Radix.Lib.Labels
import Radix.Analytics.Components
import Radix.Analytics.Connectivity
import Radix.Lib.Ranks
import Radix.Analytics.PageRank
import Radix.Analytics.Scores
import Radix.Lib.Distances
import Radix.Lib.Buckets
import Radix.Lib.Settled
import Radix.Analytics.DeltaStep
import Radix.Analytics.Relaxing
import Radix.Analytics.DeltaRuns
import Radix.Analytics.ShortestPaths
import Radix.Graph.Amortized
import Radix.Graph.Updates
import Radix.Lib.Merging
import Radix.Lib.Triangles
import Radix.Analytics.Current
import Radix.Analytics.Triangles
import Radix.Analytics.TriangleCounts
import Radix.Lib.Geodesics
import Radix.Analytics.Betweenness
import Radix.Analytics.PathCounts
import Radix.Analytics.PathRuns
import Radix.Analytics.Centrality
import Radix.Analytics.BrandesRuns
import Radix.Lib.Linearizable
import Radix.Sort.Mixed
import Radix.Sort.Linear
import Radix.Sort.Progress
import Radix.Sort.Packed
import Radix.Lib.Agreement
import Radix.Sort.Tuning
import Radix.Graph.Tuning
import Radix.Graph.Expansions
import Radix.Graph.ArrayCalls
