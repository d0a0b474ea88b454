import Mathlib
import TfTree.Data.Text

/-!
# Frame names and publishers

`names.rs` of `tf_tree_bridge`, and the samples and publishers of its `lib.rs`.

* `NameNormalizer.normalize_eq`: a name is normalized the same way whenever it is seen;
  the sets and counters of the normalizer only decide what is reported.
-/

namespace TfTree.Bridge

open Data

/-! ## Samples and publishers -/

/-- `Publisher` (`lib.rs`, lines 90–106). -/
inductive Publisher where
  | gid (id : String) (name : Option String)
  | topic (t : String)
  | unattributed
  | declared
  deriving DecidableEq, Repr

/-- `Publisher::key`: the identity. Publishers are equal in the code exactly if it is
    the same. -/
def Publisher.key : Publisher → String
  | .gid id _ => id
  | .topic t => t
  | .unattributed => "<unattributed>"
  | .declared => "<declared>"

/-- `[qw qx qy qz tx ty tz]`. -/
abbrev PoseWords (F : Type) := Vector F 7

/-- `Sample` (`lib.rs`, lines 39–51). Instants are nanoseconds; the reading `0` is
    `SteadyNanos::UNKNOWN`. -/
structure Sample (F : Type) where
  frameId : String
  childFrameId : String
  stampNanos : ℤ
  received : ℤ
  pose : PoseWords F

/-- `Topic` (`ingest.rs`). -/
inductive Topic where
  | tf
  | tfStatic
  deriving DecidableEq, Repr

/-! ## Names -/

/-- `Normalized` (`names.rs`). -/
structure Normalized where
  name : String
  strippedSlash : Bool
  prefixed : Bool
  firstSight : Bool
  deriving DecidableEq, Repr

/-- `NameNormalizer` (`names.rs`, lines 33–39). -/
structure NameNormalizer where
  tfPrefix : Option String
  seen : Std.TreeSet String
  remaps : List (String × String)
  stripped : ℕ

/-- `MAX_TRACKED_NAMES`. -/
def maxTrackedNames : ℕ := 8192

/-- `str::strip_prefix('/')`, with the string itself where it does not apply. -/
def stripSlash (raw : String) : String × Bool :=
  match raw.toList with
  | '/' :: rest => (String.ofList rest, true)
  | _ => (raw, false)

namespace NameNormalizer

/-- `NameNormalizer::new`. -/
def new : NameNormalizer := ⟨none, ∅, [], 0⟩

/-- `NameNormalizer::with_prefix` (lines 50–60). -/
def withPrefix (tfPrefix : String) : NameNormalizer :=
  let p := trimEndMatches '/' (trim tfPrefix.toList)
  { new with tfPrefix := if p = [] then none else some (String.ofList p) }

/-- The name a body gets under the prefix (lines 82–85). -/
def apply (tfPrefix : Option String) (body : String) : String × Bool :=
  match tfPrefix with
  | some p => (p ++ "/" ++ body, true)
  | none => (body, false)

/-- `NameNormalizer::normalize` (lines 67–104); `none` is `NameError::Empty`. -/
def normalize (n : NameNormalizer) (raw : String) : Option Normalized × NameNormalizer :=
  if raw = "" then (none, n)
  else
    let (body, strippedSlash) := stripSlash raw
    if body = "" then (none, n)
    else
      let stripped := if strippedSlash then n.stripped + 1 else n.stripped
      let (name, prefixed) := apply n.tfPrefix body
      let firstSight := !(n.seen.contains raw || decide (n.seen.size ≥ maxTrackedNames))
      let seen := if firstSight then n.seen.insert raw else n.seen
      let remaps :=
        if firstSight && (strippedSlash || prefixed) then n.remaps ++ [(raw, name)] else n.remaps
      (some ⟨name, strippedSlash, prefixed, firstSight⟩, ⟨n.tfPrefix, seen, remaps, stripped⟩)

/-- `NameNormalizer::note_stripped`. -/
def noteStripped (n : NameNormalizer) (k : ℕ) : NameNormalizer :=
  { n with stripped := n.stripped + k }

/-- The name `raw` stands for, `none` where it is refused. -/
def nameOf (tfPrefix : Option String) (raw : String) : Option String :=
  if raw = "" ∨ (stripSlash raw).1 = "" then none
  else some (apply tfPrefix (stripSlash raw).1).1

/-- A name is normalized the same way whenever it is seen. -/
theorem normalize_eq (n : NameNormalizer) (raw : String) :
    (n.normalize raw).1.map Normalized.name = nameOf n.tfPrefix raw := by
  unfold normalize nameOf
  by_cases h : raw = ""
  · rw [if_pos h, if_pos (Or.inl h)]
    rfl
  · rw [if_neg h]
    by_cases hb : (stripSlash raw).1 = ""
    · rw [if_pos (Or.inr hb)]
      show (if (stripSlash raw).1 = "" then _ else _ : Option Normalized × _).1.map _ = _
      rw [if_pos hb]
      rfl
    · rw [if_neg (by rintro (h' | h'); exacts [h h', hb h'])]
      show (if (stripSlash raw).1 = "" then _ else _ : Option Normalized × _).1.map _ = _
      rw [if_neg hb]
      rfl

@[simp] theorem normalize_tfPrefix (n : NameNormalizer) (raw : String) :
    (n.normalize raw).2.tfPrefix = n.tfPrefix := by
  unfold normalize
  by_cases h : raw = ""
  · rw [if_pos h]
  · rw [if_neg h]
    show (if (stripSlash raw).1 = "" then _ else _ :
      Option Normalized × NameNormalizer).2.tfPrefix = _
    by_cases hb : (stripSlash raw).1 = ""
    · rw [if_pos hb]
    · rw [if_neg hb]

@[simp] theorem noteStripped_tfPrefix (n : NameNormalizer) (k : ℕ) :
    (n.noteStripped k).tfPrefix = n.tfPrefix := rfl

end NameNormalizer

end TfTree.Bridge
