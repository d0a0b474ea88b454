import Mathlib
import TfTree.Data.Numerals

/-!
# What `doctor` captures

`tf_tree_cli/src/doctor.rs`: the snapshot of a topology, the stream of observed pushes, and the
findings of the checks on them.
-/

namespace TfTree.Doctor

/-- `Check`, the variants of the checks here. -/
inductive Check where
  | cycle
  | shortBuffer
  | inconsistentRate
  | unreachable
  deriving DecidableEq, Repr

/-- `Severity`. -/
inductive Severity where
  | warn
  | error
  deriving DecidableEq, Repr

/-- `Finding`. -/
structure Finding where
  check : Check
  severity : Severity
  message : String
  deriving DecidableEq, Repr

/-- `FrameInfo`, as far as the checks read it. -/
structure FrameInfo where
  id : ℕ
  name : String
  parent : ℕ
  deriving DecidableEq, Repr

/-- `EdgeKind`. -/
inductive EdgeKind where
  | dynamic
  | static
  | tombstone
  deriving DecidableEq, Repr

/-- `EdgeInfo`, as far as the checks read it. -/
structure EdgeInfo where
  id : ℕ
  parent : ℕ
  child : ℕ
  kind : EdgeKind
  capacity : UInt32
  head : UInt64
  newestStamp : Option Int64
  deriving DecidableEq

/-- `Snapshot`, as far as the checks read it. -/
structure Snapshot where
  frames : List FrameInfo
  edges : List EdgeInfo

namespace Snapshot

/-- `Snapshot::frame_label` (lines 402–408). -/
def frameLabel (snap : Snapshot) (id : ℕ) : String :=
  match snap.frames.find? fun f => f.id = id with
  | some f => f.name
  | none => s!"frame#{id}"

/-- `Snapshot::edge_index` (lines 416–418): the last edge of an id stays in the map. -/
def edgeIndex (snap : Snapshot) (id : ℕ) : Option EdgeInfo :=
  snap.edges.reverse.find? fun e => e.id = id

/-- `Snapshot::edge_label` (lines 422–429). -/
def edgeLabel (snap : Snapshot) (e : EdgeInfo) : String :=
  s!"{snap.frameLabel e.parent}->{snap.frameLabel e.child} (edge#{e.id})"

end Snapshot

/-- `PushSample`, as far as the checks here read it. -/
structure PushSample where
  edge : ℕ
  stampNs : Int64
  arrivalDelayNs : Int64
  deriving DecidableEq

/-- `Observations`. -/
structure Observations where
  events : List PushSample

/-- `Observations::by_edge` (lines 488–494). A `BTreeMap` is its entries in order. -/
def Observations.byEdge (obs : Observations) : List (ℕ × List PushSample) :=
  ((obs.events.map PushSample.edge).toFinset.sort (· ≤ ·)).map fun edge =>
    (edge, obs.events.filter fun s => s.edge = edge)

end TfTree.Doctor
