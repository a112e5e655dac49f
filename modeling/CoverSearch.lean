import CoverSearch.Case
import CoverSearch.Directory
import CoverSearch.Graph.Drawing
import CoverSearch.Program.Trial
import CoverSearch.Record.Writer
import CoverSearch.Proofs.Ranking.Dominance
import CoverSearch.Proofs.Ranking.Layers
import CoverSearch.Proofs.Ranking.Fronts
import CoverSearch.Proofs.Ranking.Preference
import CoverSearch.Proofs.Archive.History
import CoverSearch.Proofs.Analysis.Objectives
import CoverSearch.Proofs.Frontier.Objectives
import CoverSearch.Proofs.Frontier.Update
import CoverSearch.Proofs.Search.Guard
import CoverSearch.Proofs.Graph.Discovery
import CoverSearch.Proofs.Graph.Accept
import CoverSearch.Proofs.Graph.Paths
import CoverSearch.Proofs.Ranking.Survivors
import CoverSearch.Proofs.Search.Population
import CoverSearch.Proofs.Ranking.Evaluation
import CoverSearch.Proofs.Ranking.Elite
import CoverSearch.Proofs.Search.Elitism
import CoverSearch.Proofs.Search.Approach
import CoverSearch.Proofs.Archive.Tests
import CoverSearch.Proofs.Frontier.Stages
import CoverSearch.Proofs.Search.Suite
import CoverSearch.Proofs.Ranking.Cycles
import CoverSearch.Proofs.Ranking.Countdown
import CoverSearch.Proofs.Value.Packing
import CoverSearch.Proofs.Value.Nearest
import CoverSearch.Proofs.Value.Rounding
import CoverSearch.Proofs.Value.Arithmetic
import CoverSearch.Proofs.Ranking.Comparisons
import CoverSearch.Proofs.Graph.Dependents
import CoverSearch.Proofs.Coverage
import CoverSearch.Proofs.Graph.Fitness
import CoverSearch.Proofs.Value.Normalize
import CoverSearch.Proofs.Value.Hops
import CoverSearch.Proofs.Graph.Levels
import CoverSearch.Proofs.Search.Covered
import CoverSearch.Proofs.Search.Course
import CoverSearch.Proofs.Search.Bookkeeping
import CoverSearch.Proofs.Search.Recording
import CoverSearch.Proofs.Search.Budget
import CoverSearch.Proofs.Random.Answers
import CoverSearch.Proofs.Breeding
import CoverSearch.Proofs.Search.Positions
import CoverSearch.Proofs.Search.Needs
import CoverSearch.Proofs.Search.Prepared
import CoverSearch.Proofs.Search.Return
import CoverSearch.Proofs.Text.Utf8
import CoverSearch.Proofs.Analysis.Records
import CoverSearch.Proofs.Json.Tokens
import CoverSearch.Proofs.Json.RoundTrip
import CoverSearch.Proofs.Json.Values
import CoverSearch.Proofs.Record.RoundTrip
import CoverSearch.Proofs.Directory.Visits
import CoverSearch.Proofs.Directory.Load
import CoverSearch.Proofs.Frontier.Closure
import CoverSearch.Proofs.Frontier.Alignment
import CoverSearch.Proofs.Json.Spelling
import CoverSearch.Proofs.Json.Fields
import CoverSearch.Proofs.Record.Edits
import CoverSearch.Proofs.Record.Tolerance
import CoverSearch.Proofs.Value.Monotone
import CoverSearch.Proofs.Graph.Progress
import CoverSearch.Proofs.Graph.Parents
import CoverSearch.Proofs.Ranking.Density
import CoverSearch.Proofs.Archive.Reordering
import CoverSearch.Proofs.Random.Streams
import CoverSearch.Proofs.Breeding.Siblings
import CoverSearch.Proofs.Graph.Neighbours
import CoverSearch.Proofs.Names
