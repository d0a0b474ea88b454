import TfTree.Arena.Commit
import TfTree.Arena.Frozen
import TfTree.Arena.Layout
import TfTree.Arena.View
import TfTree.Bridge.Authority
import TfTree.Bridge.Clock
import TfTree.Bridge.Config
import TfTree.Bridge.Discover
import TfTree.Bridge.Emit
import TfTree.Bridge.Index
import TfTree.Bridge.Ingest
import TfTree.Bridge.Names
import TfTree.Bridge.Parse
import TfTree.Bridge.RoundTrip
import TfTree.Bridge.Run
import TfTree.Bridge.Ledger
import TfTree.Bridge.Drift
import TfTree.Bridge.WordIndex
import TfTree.Bridge.Spelling
import TfTree.Bridge.Halted
import TfTree.Bridge.Statics
import TfTree.Conc.Pool
import TfTree.Conc.Prog
import TfTree.Conc.System
import TfTree.Core.Error
import TfTree.Data.Bytes
import TfTree.Data.DirectMapped
import TfTree.Data.Emit
import TfTree.Data.OkPrefix
import TfTree.Data.Probe
import TfTree.Data.Rooted
import TfTree.Data.StableSort
import TfTree.Data.Text
import TfTree.Frame.Intern
import TfTree.Frame.Lone
import TfTree.Frame.Table
import TfTree.Ingest.Fill
import TfTree.Ingest.Spill
import TfTree.Math.Interp
import TfTree.Math.Iso3
import TfTree.Plan.Batch
import TfTree.Plan.Compile
import TfTree.Plan.Decide
import TfTree.Plan.Eval
import TfTree.Plan.FoldArray
import TfTree.Plan.Guard
import TfTree.Plan.Layout
import TfTree.Plan.Topology
import TfTree.Ring.Carry
import TfTree.Ring.Checked
import TfTree.Ring.Extrapolation
import TfTree.Ring.Mem
import TfTree.Ring.Race
import TfTree.Ring.Sample
import TfTree.Ring.Search
import TfTree.Ring.Writer
import TfTree.Shm.Claim
import TfTree.Shm.Participant
import TfTree.Shm.Push
import TfTree.Shm.Identity
import TfTree.Shm.Acquire
import TfTree.Topo.Lock
import TfTree.Topo.Mem
import TfTree.Topo.SetParent
import TfTree.Topo.Snapshot
import TfTree.Topo.Walk
import TfTree.Tree.Arena
import TfTree.Tree.Cache
import TfTree.Tree.Capacity
import TfTree.Data.Bisect
import TfTree.Math.ExpLog
import TfTree.Math.Screw
import TfTree.Plan.Access
import TfTree.Plan.Adaptive
import TfTree.Plan.Span
import TfTree.Ring.Window
import TfTree.Conc.Cut
import TfTree.Ring.Heartbeat
import TfTree.Data.Motion
import TfTree.Math.Rigid
import TfTree.Math.Velocity
import TfTree.Plan.Image
import TfTree.Plan.Twist
import TfTree.Conc.Replay
import TfTree.Plan.Extrapolating
import TfTree.Data.Taylor
import TfTree.Math.Series
import TfTree.Math.Reference
import TfTree.Ring.ConstantTwist
import TfTree.Data.Reading
import TfTree.Data.Frames
import TfTree.Ingest.Cdr
import TfTree.Ingest.CdrRoundTrip
import TfTree.Ingest.Groups
import TfTree.Ingest.Chunk
import TfTree.Ingest.Source
import TfTree.Ingest.Contribution
import TfTree.Ingest.Distribution
import TfTree.Shm.Register
import TfTree.Shm.Session
import TfTree.Shm.IdentityRecord
import TfTree.Shm.Inherit
import TfTree.Bridge.Loud
import TfTree.Doctor.Forest
import TfTree.Doctor.Snapshot
import TfTree.Doctor.Stamps
import TfTree.Math.Slerp
import TfTree.Math.ScrewAxis
import TfTree.Math.ScrewPower
import TfTree.Math.Invariance
import TfTree.Math.Rot3
import TfTree.CAbi.Layout
import TfTree.Shm.Serve
import TfTree.Data.Chain
import TfTree.Frame.Fill
import TfTree.Tree.Build
import TfTree.Bridge.Cycle
import TfTree.Tree.Built
import TfTree.Data.Numerals
import TfTree.Data.Keyed
import TfTree.Ingest.Callback
import TfTree.Ingest.Survey
import TfTree.Ingest.EdgeReport
import TfTree.Ingest.SurveySpec
import TfTree.Ingest.Surveyed
import TfTree.Ingest.Walked
import TfTree.Ingest.Truncated
import TfTree.Ingest.FillTree
import TfTree.Ingest.Filled
import TfTree.Ingest.FillSpec
import TfTree.Ingest.Ingested
import TfTree.Ingest.Merged
import TfTree.Tree.Writer
import TfTree.Tree.ClockOffset
