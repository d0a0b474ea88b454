import TfTree.Data.Region
import Mathlib.Order.Basic
import Mathlib.Algebra.Order.Group.Nat

/-!
# The layout of an arena

`tf_tree_arena/src/layout.rs`: the regions that the capacities of an arena imply, and
`tf_tree_arena/src/check.rs`: the validation of a header that comes from elsewhere.

`u32` and `u64` fields are natural numbers; `usize` has 64 bits and no sum here comes
near it (`computeSizes_lt`).

Results:
* `nextPow2_spec`: the least power of two that is not below.
* `computeSizes_lt`: the sizes of the regions fit `usize`.
* `ArenaHeader.Valid.of_validate`: what an accepted header says about its offsets.
-/

namespace TfTree

/-! ## Model of `layout.rs` -/

/-- `align64`. -/
def align64 (n : ℕ) : ℕ := (n + 63) / 64 * 64

/-- The loop of `next_pow2`, from `p = 2^k` on. -/
def nextPow2Loop (n k : ℕ) : ℕ := if 2 ^ k < n then nextPow2Loop n (k + 1) else 2 ^ k
termination_by n - 2 ^ k
decreasing_by
  have := Nat.two_pow_pos k
  rw [pow_succ]
  omega

/-- `next_pow2`, of `layout.rs` and of `arena_view.rs`. -/
def nextPow2 (n : ℕ) : ℕ := nextPow2Loop n 0

/-- `TOPO_BLOCKS`, of the arena. -/
def arenaTopoBlocks : ℕ := 4

/-- `FRAME_HASH_STRIDE`. -/
def frameHashStride : ℕ := 8 + 4 + 4

/-- `DEFAULT_MAX_PARTICIPANTS`. -/
def defaultMaxParticipants : ℕ := 64

/-- The regions, in header order. -/
inductive RegionId where
  | header
  | frameTable
  | frameHash
  | topo
  | claim
  | participant
  | edge
  | stamp
  | pose
  | edgeCounters
  | participantCounters
  deriving DecidableEq, Repr

/-- The index of a region (`R_HEADER` to `R_PARTICIPANT_COUNTERS`). -/
def RegionId.index : RegionId → ℕ
  | header => 0
  | frameTable => 1
  | frameHash => 2
  | topo => 3
  | claim => 4
  | participant => 5
  | edge => 6
  | stamp => 7
  | pose => 8
  | edgeCounters => 9
  | participantCounters => 10

/-- `ArenaLayout`, without its edge capacities, which no offset depends on. -/
structure ArenaLayout where
  maxFrames : ℕ
  maxEdges : ℕ
  maxParticipants : ℕ
  regions : List Region
  topoStride : ℕ
  slots : ℕ

/-- `topo_stride` of `compute`. -/
def computeTopoStride (maxFrames : ℕ) : ℕ := align64 (maxFrames * 12)

/-- `sizes` of `compute` (lines 153–165). -/
def computeSizes (maxFrames maxEdges maxParticipants slots : ℕ) : List ℕ :=
  [320,
    align64 (maxFrames * 64),
    align64 (nextPow2 (2 * maxFrames) * frameHashStride),
    arenaTopoBlocks * computeTopoStride maxFrames,
    align64 (maxEdges * 64),
    align64 (maxParticipants * 128),
    align64 (maxEdges * 128),
    align64 (slots * 8),
    align64 (slots * 64),
    align64 (maxEdges * 128),
    align64 (maxParticipants * 128)]

/-- `compute` (lines 137–184), for the sum of the capacities. -/
def compute (maxFrames maxEdges maxParticipants slots : ℕ) : ArenaLayout where
  maxFrames := maxFrames
  maxEdges := maxEdges
  maxParticipants := maxParticipants
  regions := packRegions 0 (computeSizes maxFrames maxEdges maxParticipants slots)
  topoStride := computeTopoStride maxFrames
  slots := slots

namespace ArenaLayout

/-- `self.computed.regions[R]`. -/
def region (l : ArenaLayout) (R : RegionId) : Region := (l.regions[R.index]?).getD ⟨0, 0⟩

/-- `ArenaLayout::total_size`. -/
def totalSize (l : ArenaLayout) : ℕ :=
  (l.region .participantCounters).offset + (l.region .participantCounters).size

/-- `ArenaLayout::from_totals` (lines 252–275); `none` is `ArenaTooLarge`. -/
def fromTotals (maxFrames maxEdges totalSlots : ℕ) : Option ArenaLayout :=
  let l := compute maxFrames maxEdges defaultMaxParticipants totalSlots
  if l.totalSize > 2 ^ 32 - 1 then none else some l

end ArenaLayout

/-- `fnv1a_u32`. -/
def fnv1aU32 (h v : BitVec 32) : BitVec 32 :=
  (List.range 4).foldl (fun h i => (h ^^^ (v >>> (8 * i) &&& 0xff#32)) * 0x01000193#32) h

/-- `layout_hash`: the size and the alignment of the header, then the strides. -/
def layoutHash : ℕ :=
  (([320, 64, 320, 64, frameHashStride, 12, arenaTopoBlocks, 64, 128, 128, 8, 64, 128, 128] :
    List ℕ).foldl (fun h v => fnv1aU32 h (BitVec.ofNat 32 v)) 0x811c9dc5#32).toNat

/-! ## Model of `check.rs` -/

/-- The fields of `ArenaHeader` that the validation and the views read. -/
structure ArenaHeader where
  magic : ℕ
  formatVersion : ℕ
  layoutHash : ℕ
  arenaSize : ℕ
  maxFrames : ℕ
  maxEdges : ℕ
  stampSlots : ℕ
  poseSlots : ℕ
  frameTableOff : ℕ
  frameHashOff : ℕ
  topoBlockOff : ℕ
  topoBlockStride : ℕ
  claimTableOff : ℕ
  participantTableOff : ℕ
  maxParticipants : ℕ
  edgeTableOff : ℕ
  stampArenaOff : ℕ
  poseArenaOff : ℕ
  edgeCountersOff : ℕ
  participantCountersOff : ℕ
  deriving DecidableEq, Repr

/-- `u64::from_le_bytes(TF_TREE_MAGIC)`, of the bytes `TF_TREE\0`. -/
def tfTreeMagic : ℕ :=
  [0x54, 0x46, 0x5f, 0x54, 0x52, 0x45, 0x45, 0x00].foldr (fun byte n => byte + 256 * n) 0

/-- `FORMAT_VERSION`. -/
def formatVersion : ℕ := 3

/-- The part of `ShmError` that `validate_arena_header` returns. -/
inductive ShmError where
  | sizeMismatch (actual expected : ℕ)
  | badMagic
  | versionMismatch (found expected : ℕ)
  | layoutMismatch (found expected : ℕ)
  | headerInconsistent
  deriving DecidableEq, Repr

/-- `x as u32`. -/
def asU32 (x : ℕ) : ℕ := x % 2 ^ 32

/-- `matches` of `validate_arena_header` (lines 197–214). -/
def headerMatches (implied : ArenaLayout) (h : ArenaHeader) : Bool :=
  implied.totalSize = h.arenaSize
    && asU32 (implied.region .frameTable).offset = h.frameTableOff
    && asU32 (implied.region .frameHash).offset = h.frameHashOff
    && asU32 (implied.region .topo).offset = h.topoBlockOff
    && asU32 implied.topoStride = h.topoBlockStride
    && asU32 (implied.region .claim).offset = h.claimTableOff
    && asU32 (implied.region .participant).offset = h.participantTableOff
    && implied.maxParticipants = h.maxParticipants
    && asU32 (implied.region .edge).offset = h.edgeTableOff
    && asU32 (implied.region .stamp).offset = h.stampArenaOff
    && asU32 (implied.region .pose).offset = h.poseArenaOff
    && asU32 (implied.region .edgeCounters).offset = h.edgeCountersOff
    && asU32 (implied.region .participantCounters).offset = h.participantCountersOff
    && h.stampSlots = h.poseSlots

/-- `validate_arena_header` (lines 170–219). -/
def validateArenaHeader (h : ArenaHeader) (size : ℕ) : Except ShmError Unit :=
  if h.magic ≠ tfTreeMagic then .error .badMagic
  else if h.formatVersion ≠ formatVersion then
    .error (.versionMismatch h.formatVersion formatVersion)
  else if h.layoutHash ≠ layoutHash then .error (.layoutMismatch h.layoutHash layoutHash)
  else if h.arenaSize ≠ size then .error (.sizeMismatch size h.arenaSize)
  else
    match ArenaLayout.fromTotals h.maxFrames h.maxEdges h.stampSlots with
    | none => .error .headerInconsistent
    | some implied => if headerMatches implied h then .ok () else .error .headerInconsistent

/-- `write_header_at` (`heap.rs` lines 190–241), of the fields of `ArenaHeader` above. -/
def writeHeader (layout : ArenaLayout) : ArenaHeader where
  magic := tfTreeMagic
  formatVersion := formatVersion
  layoutHash := layoutHash
  arenaSize := layout.totalSize
  maxFrames := layout.maxFrames
  maxEdges := layout.maxEdges
  stampSlots := asU32 layout.slots
  poseSlots := asU32 layout.slots
  frameTableOff := asU32 (layout.region .frameTable).offset
  frameHashOff := asU32 (layout.region .frameHash).offset
  topoBlockOff := asU32 (layout.region .topo).offset
  topoBlockStride := asU32 layout.topoStride
  claimTableOff := asU32 (layout.region .claim).offset
  participantTableOff := asU32 (layout.region .participant).offset
  maxParticipants := layout.maxParticipants
  edgeTableOff := asU32 (layout.region .edge).offset
  stampArenaOff := asU32 (layout.region .stamp).offset
  poseArenaOff := asU32 (layout.region .pose).offset
  edgeCountersOff := asU32 (layout.region .edgeCounters).offset
  participantCountersOff := asU32 (layout.region .participantCounters).offset

/-! ## The regions of a layout -/

section Regions

variable {mf me mp slots : ℕ} {R R' : RegionId}

theorem le_align64 (n : ℕ) : n ≤ align64 n := by
  unfold align64
  omega

theorem align64_lt (n : ℕ) : align64 n < n + 64 := by
  unfold align64
  omega

theorem dvd_align64 (n : ℕ) : 64 ∣ align64 n := Nat.dvd_mul_left _ _

theorem RegionId.index_injective : Function.Injective RegionId.index := by
  intro R R' h
  cases R <;> cases R' <;> first | rfl | cases h

/-- The loop stops before it has passed twice its bound. -/
theorem nextPow2Loop_le {n k : ℕ} (h : 2 ^ k ≤ 2 * n + 1) : nextPow2Loop n k ≤ 2 * n + 1 := by
  induction hm : n - 2 ^ k using Nat.strong_induction_on generalizing k with
  | _ m ih =>
    have hpos := Nat.two_pow_pos k
    rw [nextPow2Loop]
    by_cases hlt : 2 ^ k < n
    · rw [if_pos hlt]
      have hpow : 2 ^ (k + 1) = 2 * 2 ^ k := by rw [pow_succ, Nat.mul_comm]
      exact ih _ (by omega) (by omega) rfl
    · rw [if_neg hlt]
      exact h

theorem nextPow2_le (n : ℕ) : nextPow2 n ≤ 2 * n + 1 := nextPow2Loop_le (by simp)

theorem nextPow2Loop_pow (n k : ℕ) : ∃ j, nextPow2Loop n k = 2 ^ j := by
  induction k using nextPow2Loop.induct (n := n) with
  | case1 k h ih =>
    rw [nextPow2Loop, if_pos h]
    exact ih
  | case2 k h =>
    rw [nextPow2Loop, if_neg h]
    exact ⟨k, rfl⟩

theorem nextPow2_pow (n : ℕ) : ∃ k, nextPow2 n = 2 ^ k := nextPow2Loop_pow n 0

theorem nextPow2Loop_spec {n k : ℕ} (h : ∀ i < k, 2 ^ i < n) :
    ∃ j, nextPow2Loop n k = 2 ^ j ∧ n ≤ 2 ^ j ∧ ∀ i < j, 2 ^ i < n := by
  induction k using nextPow2Loop.induct (n := n) with
  | case1 k hlt ih =>
    rw [nextPow2Loop, if_pos hlt]
    refine ih fun i hi => ?_
    rcases Nat.lt_succ_iff_lt_or_eq.mp hi with hi | rfl
    · exact h i hi
    · exact hlt
  | case2 k hge =>
    rw [nextPow2Loop, if_neg hge]
    exact ⟨k, rfl, not_lt.mp hge, h⟩

/-- The least power of two that is not below `n`. -/
theorem nextPow2_spec (n : ℕ) : ∃ j, nextPow2 n = 2 ^ j ∧ n ≤ 2 ^ j ∧ ∀ i < j, 2 ^ i < n :=
  nextPow2Loop_spec fun _ hi => absurd hi (Nat.not_lt_zero _)

theorem computeSizes_dvd : ∀ n ∈ computeSizes mf me mp slots, 64 ∣ n := by
  intro n hn
  simp only [computeSizes, List.mem_cons, List.not_mem_nil, or_false] at hn
  rcases hn with rfl | rfl | rfl | rfl | rfl | rfl | rfl | rfl | rfl | rfl | rfl
  · exact ⟨5, rfl⟩
  case inr.inr.inr.inl => exact Dvd.dvd.mul_left (dvd_align64 _) _
  all_goals exact dvd_align64 _

/-- The sizes of the regions, together. -/
theorem computeSizes_le (mf me mp slots : ℕ) :
    (computeSizes mf me mp slots).sum ≤ 176 * mf + 320 * me + 256 * mp + 72 * slots + 1155 := by
  have h := align64_lt
  have h2 := nextPow2_le (2 * mf)
  have h3 := h (nextPow2 (2 * mf) * frameHashStride)
  have h4 := h (mf * 12)
  simp only [computeSizes, computeTopoStride, arenaTopoBlocks, frameHashStride, List.sum_cons,
    List.sum_nil] at h3 ⊢
  have h5 := h (mf * 64)
  have h6 := h (me * 64)
  have h7 := h (mp * 128)
  have h8 := h (me * 128)
  have h9 := h (slots * 8)
  have h10 := h (slots * 64)
  omega

/-- The sizes of the regions of `u32` counts fit `usize`. -/
theorem computeSizes_lt (hf : mf < 2 ^ 32) (he : me < 2 ^ 32) (hp : mp < 2 ^ 32)
    (hs : slots < 2 ^ 32) : (computeSizes mf me mp slots).sum < 2 ^ 64 := by
  have hle := computeSizes_le mf me mp slots
  omega

theorem compute_get (R : RegionId) : (compute mf me mp slots).regions[R.index]? =
    some ((compute mf me mp slots).region R) := by
  cases R <;> rfl

theorem compute_mem (R : RegionId) : (compute mf me mp slots).region R ∈
    packRegions 0 (computeSizes mf me mp slots) := List.mem_of_getElem? (compute_get R)

/-- Two regions of a layout share no byte. -/
theorem compute_disjoint (h : R ≠ R') :
    ((compute mf me mp slots).region R).Disjoint ((compute mf me mp slots).region R') := by
  have hne : R.index ≠ R'.index := fun he => h (RegionId.index_injective he)
  rcases Nat.lt_or_gt_of_ne hne with hlt | hlt
  · exact .inl (pack_before hlt (compute_get R) (compute_get R'))
  · exact .inr (pack_before hlt (compute_get R') (compute_get R))

theorem compute_totalSize : (compute mf me mp slots).totalSize =
    (computeSizes mf me mp slots).sum := by
  have hlast : (packRegions 0 (computeSizes mf me mp slots)).getLast? =
      some ((compute mf me mp slots).region .participantCounters) := rfl
  exact (pack_last hlast).trans (Nat.zero_add _)

/-- Every region of a layout ends inside its total size. -/
theorem compute_end (R : RegionId) : ((compute mf me mp slots).region R).offset +
    ((compute mf me mp slots).region R).size ≤ (compute mf me mp slots).totalSize := by
  have hend : _ ≤ 0 + (computeSizes mf me mp slots).sum := pack_end (compute_mem R)
  rwa [Nat.zero_add, ← compute_totalSize] at hend

/-- Every region of a layout begins at a multiple of 64. -/
theorem compute_aligned (R : RegionId) : 64 ∣ ((compute mf me mp slots).region R).offset :=
  pack_aligned (Nat.dvd_zero _) computeSizes_dvd (compute_mem R)

end Regions

/-! ## Accepted headers -/

/-- The layout that the counts of a header imply. -/
def ArenaHeader.implied (h : ArenaHeader) : ArenaLayout :=
  compute h.maxFrames h.maxEdges defaultMaxParticipants h.stampSlots

/-- The offset a header records for a region. -/
def ArenaHeader.off (h : ArenaHeader) : RegionId → ℕ
  | .header => 0
  | .frameTable => h.frameTableOff
  | .frameHash => h.frameHashOff
  | .topo => h.topoBlockOff
  | .claim => h.claimTableOff
  | .participant => h.participantTableOff
  | .edge => h.edgeTableOff
  | .stamp => h.stampArenaOff
  | .pose => h.poseArenaOff
  | .edgeCounters => h.edgeCountersOff
  | .participantCounters => h.participantCountersOff

/-- The header records the layout that its counts imply, for an arena of `size` bytes. -/
structure ArenaHeader.Valid (h : ArenaHeader) (size : ℕ) : Prop where
  totalSize : h.implied.totalSize = size
  fits : size < 2 ^ 32
  off : ∀ R, h.off R = (h.implied.region R).offset
  stride : h.topoBlockStride = h.implied.topoStride
  participants : h.maxParticipants = defaultMaxParticipants
  slots : h.stampSlots = h.poseSlots

section Validate

variable {h : ArenaHeader} {size : ℕ}

theorem asU32_of_lt {x : ℕ} (hx : x < 2 ^ 32) : asU32 x = x := Nat.mod_eq_of_lt hx

/-- The stride of the topology blocks is smaller than the region they fill. -/
theorem topoStride_le (h : ArenaHeader) : h.implied.topoStride ≤ h.implied.totalSize := by
  have hend : (h.implied.region .topo).offset + (h.implied.region .topo).size ≤
    h.implied.totalSize := compute_end .topo
  have hsize : (h.implied.region .topo).size = 4 * h.implied.topoStride := rfl
  omega

/-- The geometry an accepted header records. -/
theorem headerMatches_valid (hm : headerMatches h.implied h = true)
    (hlarge : h.implied.totalSize < 2 ^ 32) : h.Valid h.arenaSize := by
  have hoff : ∀ R, asU32 (h.implied.region R).offset = (h.implied.region R).offset := by
    intro R
    have hend : (h.implied.region R).offset + (h.implied.region R).size ≤ h.implied.totalSize :=
      compute_end R
    exact asU32_of_lt (by omega)
  have hstride : asU32 h.implied.topoStride = h.implied.topoStride :=
    asU32_of_lt (lt_of_le_of_lt (topoStride_le h) hlarge)
  simp only [headerMatches, hoff, hstride, Bool.and_eq_true, decide_eq_true_eq] at hm
  obtain ⟨⟨⟨⟨⟨⟨⟨⟨⟨⟨⟨⟨⟨h1, h2⟩, h3⟩, h4⟩, h5⟩, h6⟩, h7⟩, h8⟩, h9⟩, h10⟩, h11⟩, h12⟩, h13⟩, h14⟩ := hm
  refine ⟨h1, h1 ▸ hlarge, fun R => ?_, h5.symm, h8.symm, h14⟩
  cases R with
  | header => rfl
  | frameTable => exact h2.symm
  | frameHash => exact h3.symm
  | topo => exact h4.symm
  | claim => exact h6.symm
  | participant => exact h7.symm
  | edge => exact h9.symm
  | stamp => exact h10.symm
  | pose => exact h11.symm
  | edgeCounters => exact h12.symm
  | participantCounters => exact h13.symm

/-- **Step lemma.** What the validation accepts. -/
theorem ArenaHeader.Valid.of_validate (hok : validateArenaHeader h size = .ok ()) :
    h.Valid size := by
  unfold validateArenaHeader at hok
  by_cases h1 : h.magic ≠ tfTreeMagic
  · rw [if_pos h1] at hok
    cases hok
  by_cases h2 : h.formatVersion ≠ TfTree.formatVersion
  · rw [if_neg h1, if_pos h2] at hok
    cases hok
  by_cases h3 : h.layoutHash ≠ TfTree.layoutHash
  · rw [if_neg h1, if_neg h2, if_pos h3] at hok
    cases hok
  by_cases h4 : h.arenaSize ≠ size
  · rw [if_neg h1, if_neg h2, if_neg h3, if_pos h4] at hok
    cases hok
  rw [if_neg h1, if_neg h2, if_neg h3, if_neg h4, ArenaLayout.fromTotals] at hok
  obtain rfl := not_not.mp h4
  by_cases hlarge : h.implied.totalSize > 2 ^ 32 - 1
  · rw [show compute h.maxFrames h.maxEdges defaultMaxParticipants h.stampSlots = h.implied
      from rfl,
      if_pos hlarge] at hok
    cases hok
  · rw [show compute h.maxFrames h.maxEdges defaultMaxParticipants h.stampSlots = h.implied
      from rfl,
      if_neg hlarge] at hok
    by_cases hm : headerMatches h.implied h = true
    · exact headerMatches_valid hm (by omega)
    · simp only [hm] at hok
      cases hok

/-- The header this version writes for a layout that fits is accepted. -/
theorem validate_writeHeader {mf me slots : ℕ}
    (hfits : (compute mf me defaultMaxParticipants slots).totalSize < 2 ^ 32) :
    validateArenaHeader (writeHeader (compute mf me defaultMaxParticipants slots))
      (writeHeader (compute mf me defaultMaxParticipants slots)).arenaSize = .ok () := by
  -- the poses alone take more bytes than there are slots
  have hpose : ((compute mf me defaultMaxParticipants slots).region .pose).size =
    align64 (slots * 64) := rfl
  have hend : ((compute mf me defaultMaxParticipants slots).region .pose).offset +
    ((compute mf me defaultMaxParticipants slots).region .pose).size ≤
      (compute mf me defaultMaxParticipants slots).totalSize := compute_end .pose
  have hle := le_align64 (slots * 64)
  have hslots : asU32 slots = slots := asU32_of_lt (by omega)
  have hsame : ArenaLayout.fromTotals mf me (asU32 slots) =
      some (compute mf me defaultMaxParticipants slots) := by
    rw [hslots, ArenaLayout.fromTotals]
    exact if_neg (by omega)
  have hmatch : headerMatches (compute mf me defaultMaxParticipants slots)
      (writeHeader (compute mf me defaultMaxParticipants slots)) = true := by
    simp only [headerMatches, writeHeader, decide_true, Bool.and_true]
  have hcounts : ArenaLayout.fromTotals
      (writeHeader (compute mf me defaultMaxParticipants slots)).maxFrames
      (writeHeader (compute mf me defaultMaxParticipants slots)).maxEdges
      (writeHeader (compute mf me defaultMaxParticipants slots)).stampSlots =
        some (compute mf me defaultMaxParticipants slots) := hsame
  generalize compute mf me defaultMaxParticipants slots = layout at hcounts hmatch
  have hmagic : (writeHeader layout).magic = tfTreeMagic := rfl
  have hversion : (writeHeader layout).formatVersion = formatVersion := rfl
  have hhash : (writeHeader layout).layoutHash = layoutHash := rfl
  unfold validateArenaHeader
  rw [if_neg (not_not.mpr hmagic), if_neg (not_not.mpr hversion), if_neg (not_not.mpr hhash),
    if_neg (not_not.mpr rfl), hcounts]
  exact if_pos hmatch

end Validate

end TfTree
