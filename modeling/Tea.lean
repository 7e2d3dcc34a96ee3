import Tea.Graph.Build
import Tea.Base.Arith
import Tea.Lib.Draw
import Tea.Graph.Adjacency
import Tea.Graph.Contents
import Tea.Graph.Ties
import Tea.Lib.ParallelFor
import Tea.Tables.Bias
import Tea.Tables.Alias
import Tea.Tables.AliasExact
import Tea.Tables.Trunk
import Tea.Tables.AuxIndex
import Tea.Graph.WellFormed
import Tea.Tables.Pat
import Tea.Tables.Hpat
import Tea.Tables.HpatLayout
import Tea.Tables.PatLayout
import Tea.Sampling.NeighborSets
import Tea.Sampling.Node2Vec
import Tea.Sampling.Neighborhood
import Tea.Sampling.Rejection
import Tea.Sampling.RejectionLaw
import Tea.Sampling.Choice
import Tea.Sampling.Rng
import Tea.Walk.Engine
import Tea.Walk.Steps
import Tea.Walk.Valid
import Tea.Sampling.AuxCache
import Tea.Walk.Interference
import Tea.Walk.Live
import Tea.Lib.Expect
import Tea.Sampling.Law
import Tea.Sampling.AliasLaw
import Tea.Sampling.Exact
import Tea.Walk.Determinism
import Tea.Sampling.Rebuild
import Tea.Sampling.Underflow
import Tea.Walk.Starts
import Tea.Csv.Reader
import Tea.Csv.Bounds
import Tea.Csv.Faithful
import Tea.Csv.RoundTrip
import Tea.Csv.Safe
import Tea.Sampling.Softmax
import Tea.Sampling.Period
import Tea.Sampling.Resolution
import Tea.Sampling.Permutation
import Tea.Tables.Machine
import Tea.Cli.Verify
import Tea.Cli.Run
import Tea.Lib.Laws
import Tea.Lib.Paths
import Tea.Lib.Reweigh
import Tea.Lib.Tape
import Tea.Walk.Law
import Tea.Walk.InputLaw
import Tea.Walk.Node2vecLaw
import Tea.Sampling.WordLaw
import Tea.Walk.WordLaw
import Tea.Cli.Program
import Tea.Cli.EndToEnd
import Tea.Cli.Reproducible
import Tea.Walk.Input
import Tea.Walk.Length
import Tea.Walk.Support
import Tea.Walk.Symmetry
import Tea.Walk.Causality
import Tea.Lib.Requests
import Tea.Walk.Cost
import Tea.Sampling.Memory
import Tea.Csv.Errors
import Tea.Cli.RoundTrip
import Tea.Cli.Distribution
