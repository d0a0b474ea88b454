import Mathlib.Data.PNat.Basic
import TfTree.Data.Numerals

/-!
# Identifiers and error values

`tf_tree_core/src/error.rs`. Errors carry identifiers, never names.
-/

namespace TfTree

/-- `FrameId`: a nonzero frame index; `0` is the root sentinel. -/
abbrev FrameId := ℕ+

/-- `FrameId::new`: `none` exactly for the root sentinel. -/
def FrameId.new (index : ℕ) : Option FrameId :=
  if h : 0 < index then some ⟨index, h⟩ else none

/-- `EdgeId`. -/
abbrev EdgeId := ℕ

/-- `LookupError`. -/
inductive LookupError where
  | unknownFrame (hash : ℕ)
  | disconnected (target source cutAt : FrameId)
  | treeTooDeep (depth : ℕ)
  | noData (edge : EdgeId)
  | extrapolation (edge : EdgeId) (requested oldest newest : ℤ)
  | slotRecycled (edge : EdgeId)
  | slotContended (edge : EdgeId)
  | topologyChanged (plan current : ℕ)
  | timeDomainMismatch (expected got : ℕ)
  | mixedTimeDomains (edge : EdgeId) (expected got : ℕ)
  | unknownEdge (edge : EdgeId)
  | frameOutOfRange (frame : FrameId)
  | bufferTooSmall (need got : ℕ)
  | wrongElementType
  | childDetached
  | missingEdge (child : FrameId)
  | derivativesUnavailable (edge : EdgeId) (interp : ℕ)
  | noSegment (edge : EdgeId)
  deriving DecidableEq, Repr

/-- `PushError`. -/
inductive PushError where
  | nonMonotonicStamp (edge : EdgeId) (last got : ℤ)
  | claimRevoked (edge : EdgeId)
  deriving DecidableEq, Repr

theorem FrameId.new_eq_some {index : ℕ} {f : FrameId} :
    FrameId.new index = some f ↔ (f : ℕ) = index := by
  unfold FrameId.new
  constructor
  · intro h
    split_ifs at h
    cases h; rfl
  · rintro rfl
    rw [dif_pos f.pos]
    rfl

theorem FrameId.new_eq_none {index : ℕ} : FrameId.new index = none ↔ index = 0 := by
  unfold FrameId.new
  split_ifs with h
  · simp; omega
  · simp; omega

end TfTree
