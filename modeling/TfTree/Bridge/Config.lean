import TfTree.Bridge.Names
import TfTree.Math.Interp

/-!
# The topology a bridge is given

The types of `config.rs` (`tf_tree_bridge`), and the rewriting of the declared names.
-/

namespace TfTree.Bridge

open Data

variable {F : Type}

/-- The operations of `f64` the bridge uses besides the arithmetic. Nothing is assumed
    about them here. -/
class Floats (F : Type) extends Scalar F where
  isFinite : F → Bool
  /-- `<`, `false` on a `NaN`. -/
  lt : F → F → Bool
  /-- `<=`, `false` on a `NaN`. -/
  le : F → F → Bool
  abs : F → F
  ceil : F → F
  max : F → F → F
  mulAdd : F → F → F → F
  /-- `as f64` of an integer. -/
  ofInt : ℤ → F
  /-- `as i64`: saturating, `0` for a `NaN`. -/
  toI64 : F → ℤ
  /-- The digits of `{:?}`. -/
  debug : F → List Char
  /-- `str::parse::<f64>`. -/
  parse : List Char → Option F

/-- A number of hundredths, for the examples. -/
structure Hundredths where
  n : ℤ
  deriving DecidableEq, Repr

/-- The decimals of `r < 100` hundredths, without a zero at the end. -/
def decimals (r : ℕ) : List Char :=
  if r % 10 = 0 then digits (r / 10) else digits (r / 10) ++ digits (r % 10)

/-- The hundredths that one or two decimals stand for. -/
def parseDecimals (s : List Char) : Option ℕ :=
  if s.length = 1 then (parseDigits s).map (10 * ·)
  else if s.length = 2 then parseDigits s
  else none

/-- Hundredths calculate as numbers with two decimals do. -/
instance : Floats Hundredths where
  add a b := ⟨a.n + b.n⟩
  sub a b := ⟨a.n - b.n⟩
  mul a b := ⟨a.n * b.n / 100⟩
  neg a := ⟨-a.n⟩
  div a b := ⟨a.n * 100 / b.n⟩
  zero := ⟨0⟩
  one := ⟨100⟩
  natCast k := ⟨100 * k⟩
  isFinite _ := true
  lt a b := decide (a.n < b.n)
  le a b := decide (a.n ≤ b.n)
  abs a := ⟨|a.n|⟩
  ceil a := ⟨-(-a.n / 100) * 100⟩
  max a b := ⟨max a.n b.n⟩
  mulAdd a b c := ⟨(a.n * b.n + c.n * 100) / 100⟩
  ofInt i := ⟨100 * i⟩
  toI64 a := a.n.tdiv 100
  debug a := (if a.n < 0 then ['-'] else []) ++ digits (a.n.natAbs / 100) ++
    '.' :: decimals (a.n.natAbs % 100)
  parse s := do
    let (whole, fraction) ← splitOnce ['.'] (splitSign s).2
    return ⟨signed (splitSign s).1 (100 * (← parseDigits whole) + (← parseDecimals fraction))⟩

/-- `RingSize` (lines 57–67). -/
inductive RingSize (F : Type) where
  | slots (n : ℕ)
  | history (rateHz secs : F)
  deriving DecidableEq

/-- `EdgeShape` (lines 82–93). -/
inductive EdgeShape (F : Type) where
  | static (pose : PoseWords F)
  | dynamic (ring : RingSize F)
  deriving DecidableEq

/-- `EdgeConfig` (lines 97–108). -/
structure EdgeConfig (F : Type) where
  parent : String
  child : String
  shape : EdgeShape F
  interp : Option InterpPolicy
  domain : Option ℕ
  deriving DecidableEq

/-- `EdgeConfig::key`. -/
def EdgeConfig.key (e : EdgeConfig F) : String × String := (e.parent, e.child)

/-- `SystemDomain::TAG`. -/
def systemTag : ℕ := 0

/-- `TopologyConfig` (lines 120–131), with its `Default`. -/
structure TopologyConfig (F : Type) where
  frames : List String := []
  frameHeadroom : ℕ := 0
  defaultInterp : InterpPolicy := .scLerp
  defaultDomain : ℕ := systemTag
  edges : List (EdgeConfig F) := []
  deriving DecidableEq

/-- The name the rewriting gives: one that does not normalize is kept. -/
def NameNormalizer.rename (n : NameNormalizer) (s : String) : String × NameNormalizer :=
  let (r, n) := n.normalize s
  (r.elim s Normalized.name, n)

/-- The frames of `rewritten`, in order. -/
def NameNormalizer.renameAll (n : NameNormalizer) : List String → List String × NameNormalizer
  | [] => ([], n)
  | s :: ss =>
    let (s, n) := n.rename s
    let (ss, n) := n.renameAll ss
    (s :: ss, n)

/-- The edges of `rewritten`, in order. -/
def NameNormalizer.renameEdges (n : NameNormalizer) :
    List (EdgeConfig F) → List (EdgeConfig F) × NameNormalizer
  | [] => ([], n)
  | e :: es =>
    let (parent, n) := n.rename e.parent
    let (child, n) := n.rename e.child
    let (es, n) := n.renameEdges es
    ({ e with parent := parent, child := child } :: es, n)

/-- `TopologyConfig::rewritten` (lines 212–231), with the normalizer it leaves. -/
def TopologyConfig.rewritten (c : TopologyConfig F) (n : NameNormalizer) :
    TopologyConfig F × NameNormalizer :=
  let (frames, n) := n.renameAll c.frames
  let (edges, n) := n.renameEdges c.edges
  ({ c with frames := frames, edges := edges }, n)

/-! ## The prefix under the rewriting -/

theorem rename_tfPrefix (n : NameNormalizer) (s : String) :
    (n.rename s).2.tfPrefix = n.tfPrefix := n.normalize_tfPrefix s

theorem renameAll_tfPrefix (n : NameNormalizer) (ss : List String) :
    (n.renameAll ss).2.tfPrefix = n.tfPrefix := by
  induction ss generalizing n with
  | nil => rfl
  | cons s ss ih => exact (ih _).trans (rename_tfPrefix n s)

theorem renameEdges_tfPrefix (n : NameNormalizer) (es : List (EdgeConfig F)) :
    (n.renameEdges es).2.tfPrefix = n.tfPrefix := by
  induction es generalizing n with
  | nil => rfl
  | cons e es ih => exact (ih _).trans ((rename_tfPrefix _ _).trans (rename_tfPrefix n _))

theorem rewritten_tfPrefix (c : TopologyConfig F) (n : NameNormalizer) :
    (c.rewritten n).2.tfPrefix = n.tfPrefix := by
  show ((n.renameAll c.frames).2.renameEdges c.edges).2.tfPrefix = _
  rw [renameEdges_tfPrefix, renameAll_tfPrefix]

end TfTree.Bridge
