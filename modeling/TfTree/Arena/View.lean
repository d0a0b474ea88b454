import TfTree.Arena.Layout

/-!
# The slices of an arena view

`tf_tree_core/src/arena_view.rs`: the slices and the record references that an
`ArenaView` forms from an accepted header, and the rings it forms from the edge
records, whose content nothing has validated.

Results:
* `Formed.within`: every slice lies inside its region.
* `Formed.aligned`: every slice is aligned for its element type.
* `arena_slices_safe`: the two, over any accepted header and any edge records.
-/

namespace TfTree

/-! ## Model of `arena_view.rs` -/

/-- The geometry an `EdgeRecord` holds: what `ring_bytes` reads of it. -/
structure EdgeRecord where
  capacity : ℕ
  stampOff : ℕ
  poseOff : ℕ
  deriving DecidableEq, Repr

/-- `frame_hashes`: the slots of the interning table. -/
def ArenaHeader.hashSlots (h : ArenaHeader) : ℕ := nextPow2 (2 * h.maxFrames)

namespace ArenaView

variable (h : ArenaHeader)

/-- `ArenaView::frame_hashes`: `AtomicU64`. -/
def frameHashes : Slice := ⟨h.frameHashOff, 8, 8, h.hashSlots⟩

/-- `ArenaView::frame_ids`: `AtomicU32`. -/
def frameIds : Slice := ⟨h.frameHashOff + h.hashSlots * 8, 4, 4, h.hashSlots⟩

/-- `ArenaView::frame_claiming`: `AtomicU32`. -/
def frameClaiming : Slice := ⟨h.frameHashOff + h.hashSlots * (8 + 4), 4, 4, h.hashSlots⟩

/-- `ArenaView::frame_record_ptr`: `FrameRecord`. -/
def frameRecord (id : ℕ) : Option Slice :=
  if id ≥ h.maxFrames then none else some ⟨h.frameTableOff + id * 64, 64, 64, 1⟩

/-- The offset of a topology block. -/
def blockOff (index : ℕ) : ℕ := h.topoBlockOff + index * h.topoBlockStride

/-- `ArenaView::topo_block`: `parent`, `edge_of_child` and `depth`. -/
def topoBlock (index : ℕ) : List Slice :=
  [⟨blockOff h index, 4, 4, h.maxFrames⟩, ⟨blockOff h index + h.maxFrames * 4, 4, 4, h.maxFrames⟩,
    ⟨blockOff h index + h.maxFrames * 8, 2, 2, h.maxFrames⟩]

/-- `ArenaView::participants`: `ParticipantRecord`. -/
def participants : Slice := ⟨h.participantTableOff, 128, 64, h.maxParticipants⟩

/-- `ArenaView::edge_slot_off`. -/
def edgeSlotOff (id tableOff stride : ℕ) : Option ℕ :=
  if id ≥ h.maxEdges then none else some (tableOff + id * stride)

/-- `ArenaView::claim`: `ClaimRecord`. -/
def claim (id : ℕ) : Option Slice :=
  (edgeSlotOff h id h.claimTableOff 64).map fun off => ⟨off, 64, 64, 1⟩

/-- `ArenaView::edge_counters`: `EdgeCounters`. -/
def edgeCounters (id : ℕ) : Option Slice :=
  (edgeSlotOff h id h.edgeCountersOff 128).map fun off => ⟨off, 128, 64, 1⟩

/-- `ArenaView::participant_counters`: `ParticipantCounters`. -/
def participantCounters (slot : ℕ) : Option Slice :=
  if slot ≥ h.maxParticipants then none
  else some ⟨h.participantCountersOff + slot * 128, 128, 64, 1⟩

/-- `ArenaView::edge`: `EdgeRecord`. -/
def edge (id : ℕ) : Option Slice :=
  (edgeSlotOff h id h.edgeTableOff 128).map fun off => ⟨off, 128, 64, 1⟩

/-- `u32::is_power_of_two`. -/
def isPowerOfTwo (n : ℕ) : Bool := n ≠ 0 && n &&& (n - 1) = 0

/-- `ArenaView::ring_bytes` (lines 411–429). The sums of `u32` values do not saturate. -/
def ringBytes (edge : EdgeRecord) : Option (ℕ × ℕ × ℕ) :=
  if ¬ isPowerOfTwo edge.capacity then none
  else if edge.stampOff + edge.capacity > h.stampSlots ∨
      edge.poseOff + edge.capacity > h.poseSlots then none
  else some (h.stampArenaOff + edge.stampOff * 8, h.poseArenaOff + edge.poseOff * 64, edge.capacity)

/-- `ArenaView::ring_of`: the stamps (`AtomicI64`) and the poses (`PoseSlot`). -/
def ringOf (edge : EdgeRecord) : Option (Slice × Slice) :=
  (ringBytes h edge).map fun (stampByteOff, poseByteOff, cap) =>
    (⟨stampByteOff, 8, 8, cap⟩, ⟨poseByteOff, 64, 64, cap⟩)

end ArenaView

/-- The slices a view forms over the header `h`, by the region they belong to; the
    edge records hold anything. -/
inductive Formed (h : ArenaHeader) : RegionId → Slice → Prop
  | header : Formed h .header ⟨0, 320, 64, 1⟩
  | frameRecord {id : ℕ} {s : Slice} : ArenaView.frameRecord h id = some s → Formed h .frameTable s
  | frameHashes : Formed h .frameHash (ArenaView.frameHashes h)
  | frameIds : Formed h .frameHash (ArenaView.frameIds h)
  | frameClaiming : Formed h .frameHash (ArenaView.frameClaiming h)
  | topoBlock {index : ℕ} {s : Slice} : index < arenaTopoBlocks →
      s ∈ ArenaView.topoBlock h index → Formed h .topo s
  | claim {id : ℕ} {s : Slice} : ArenaView.claim h id = some s → Formed h .claim s
  | participants : Formed h .participant (ArenaView.participants h)
  | edge {id : ℕ} {s : Slice} : ArenaView.edge h id = some s → Formed h .edge s
  | stamps {edge : EdgeRecord} {stamps poses : Slice} :
      ArenaView.ringOf h edge = some (stamps, poses) → Formed h .stamp stamps
  | poses {edge : EdgeRecord} {stamps poses : Slice} :
      ArenaView.ringOf h edge = some (stamps, poses) → Formed h .pose poses
  | edgeCounters {id : ℕ} {s : Slice} : ArenaView.edgeCounters h id = some s →
      Formed h .edgeCounters s
  | participantCounters {slot : ℕ} {s : Slice} : ArenaView.participantCounters h slot = some s →
      Formed h .participantCounters s

/-! ## The slices of an accepted header -/

section Slices

variable {h : ArenaHeader} {size base : ℕ} {R : RegionId} {s : Slice}

/-- A record of a table of `n` records. -/
theorem table_within {n stride off i : ℕ} {a : Region} (hoff : off = a.offset + i * stride)
    (hi : i < n) (hn : n * stride ≤ a.size) (align : ℕ) :
    (⟨off, stride, align, 1⟩ : Slice).Within a :=
  Slice.within_element rfl hi hoff hn

theorem edgeSlotOff_eq {id tableOff stride off : ℕ}
    (he : ArenaView.edgeSlotOff h id tableOff stride = some off) :
    id < h.maxEdges ∧ off = tableOff + id * stride := by
  unfold ArenaView.edgeSlotOff at he
  by_cases hid : id ≥ h.maxEdges
  · rw [if_pos hid] at he
    cases he
  · rw [if_neg hid] at he
    exact ⟨not_le.mp hid, (Option.some_inj.mp he).symm⟩

/-- What `ring_bytes` accepts. -/
structure RingFits (h : ArenaHeader) (edge : EdgeRecord) : Prop where
  powerOfTwo : ArenaView.isPowerOfTwo edge.capacity = true
  stamps : edge.stampOff + edge.capacity ≤ h.stampSlots
  poses : edge.poseOff + edge.capacity ≤ h.poseSlots

theorem ringBytes_eq_some {edge : EdgeRecord} {bytes : ℕ × ℕ × ℕ} :
    ArenaView.ringBytes h edge = some bytes ↔ RingFits h edge ∧
      bytes = (h.stampArenaOff + edge.stampOff * 8, h.poseArenaOff + edge.poseOff * 64,
        edge.capacity) := by
  unfold ArenaView.ringBytes
  by_cases hp : ArenaView.isPowerOfTwo edge.capacity = true
  · rw [if_neg (not_not.mpr hp)]
    by_cases hout : edge.stampOff + edge.capacity > h.stampSlots ∨
        edge.poseOff + edge.capacity > h.poseSlots
    · rw [if_pos hout]
      constructor
      · intro hnone
        cases hnone
      · rintro ⟨hfits, -⟩
        have h1 := hfits.stamps
        have h2 := hfits.poses
        omega
    · rw [if_neg hout]
      obtain ⟨h1, h2⟩ := not_or.mp hout
      constructor
      · intro hsome
        exact ⟨⟨hp, not_lt.mp h1, not_lt.mp h2⟩, (Option.some_inj.mp hsome).symm⟩
      · rintro ⟨-, rfl⟩
        rfl
  · rw [if_pos hp]
    constructor
    · intro hnone
      cases hnone
    · rintro ⟨hfits, -⟩
      exact absurd hfits.powerOfTwo hp

theorem ringOf_eq_some {edge : EdgeRecord} {stamps poses : Slice}
    (hr : ArenaView.ringOf h edge = some (stamps, poses)) : RingFits h edge ∧
      stamps = ⟨h.stampArenaOff + edge.stampOff * 8, 8, 8, edge.capacity⟩ ∧
      poses = ⟨h.poseArenaOff + edge.poseOff * 64, 64, 64, edge.capacity⟩ := by
  unfold ArenaView.ringOf at hr
  obtain ⟨bytes, hbytes, heq⟩ := Option.map_eq_some_iff.mp hr
  obtain ⟨hfits, rfl⟩ := ringBytes_eq_some.mp hbytes
  obtain ⟨rfl, rfl⟩ := Prod.mk.injEq _ _ _ _ ▸ heq
  exact ⟨hfits, rfl, rfl⟩

/-- A record of a table with one record for each edge. -/
theorem edgeSlot_within {id tableOff stride align : ℕ} {a : Region}
    (he : (ArenaView.edgeSlotOff h id tableOff stride).map
      (fun off => (⟨off, stride, align, 1⟩ : Slice)) = some s) (hoff : tableOff = a.offset)
    (hn : h.maxEdges * stride ≤ a.size) : s.Within a := by
  obtain ⟨off, hslot, rfl⟩ := Option.map_eq_some_iff.mp he
  obtain ⟨hid, rfl⟩ := edgeSlotOff_eq hslot
  exact table_within (by rw [hoff]) hid hn align

/-- The arrays of a topology block lie inside the blocks. -/
theorem topoBlock_within (hv : h.Valid size) {index : ℕ} (hi : index < arenaTopoBlocks)
    (hs : s ∈ ArenaView.topoBlock h index) : s.Within (h.implied.region .topo) := by
  have hoff : h.topoBlockOff = (h.implied.region .topo).offset := hv.off .topo
  have hstride : h.topoBlockStride = align64 (h.maxFrames * 12) := hv.stride
  have hsize : (h.implied.region .topo).size = 4 * align64 (h.maxFrames * 12) := rfl
  have hblock := le_align64 (h.maxFrames * 12)
  have hlast : (index + 1) * align64 (h.maxFrames * 12) ≤ 4 * align64 (h.maxFrames * 12) :=
    Nat.mul_le_mul_right _ hi
  rw [Nat.add_mul, Nat.one_mul] at hlast
  simp only [ArenaView.topoBlock, ArenaView.blockOff, hstride, List.mem_cons, List.not_mem_nil,
    or_false] at hs
  unfold Slice.Within
  rcases hs with rfl | rfl | rfl
  · dsimp only
    omega
  · dsimp only
    omega
  · dsimp only
    omega

/-- The three arrays of the interning table lie inside their region. -/
theorem hashArray_within (hv : h.Valid size) (before : ℕ) {elem align : ℕ}
    (hfit : before + elem ≤ frameHashStride) :
    (⟨h.frameHashOff + h.hashSlots * before, elem, align, h.hashSlots⟩ : Slice).Within
      (h.implied.region .frameHash) := by
  have hoff : h.frameHashOff = (h.implied.region .frameHash).offset := hv.off .frameHash
  have hsize : (h.implied.region .frameHash).size = align64 (h.hashSlots * frameHashStride) := rfl
  have hle := le_align64 (h.hashSlots * frameHashStride)
  have hmul : h.hashSlots * (before + elem) ≤ h.hashSlots * frameHashStride :=
    Nat.mul_le_mul_left _ hfit
  rw [Nat.mul_add] at hmul
  unfold Slice.Within
  dsimp only
  omega

/-- **Step lemma.** Every slice lies inside its region. -/
theorem Formed.within (hv : h.Valid size) (hs : Formed h R s) :
    s.Within (h.implied.region R) := by
  have hoff := hv.off R
  cases hs with
  | header => exact Slice.within_start rfl (Nat.le_refl 320)
  | frameRecord hrec =>
    have hsize : (h.implied.region .frameTable).size = align64 (h.maxFrames * 64) := rfl
    have hle := le_align64 (h.maxFrames * 64)
    unfold ArenaView.frameRecord at hrec
    split_ifs at hrec with hid
    obtain rfl := Option.some_inj.mp hrec
    refine table_within ?_ (not_le.mp hid) (by omega) 64
    rw [← hoff]
    rfl
  | frameHashes => exact hashArray_within hv 0 (by decide)
  | frameIds => exact hashArray_within hv 8 (by decide)
  | frameClaiming => exact hashArray_within hv (8 + 4) (by decide)
  | topoBlock hi hmem => exact topoBlock_within hv hi hmem
  | claim hrec =>
    have hsize : (h.implied.region .claim).size = align64 (h.maxEdges * 64) := rfl
    exact edgeSlot_within hrec hoff (hsize ▸ le_align64 _)
  | participants =>
    have hsize : (h.implied.region .participant).size = align64 (defaultMaxParticipants * 128) :=
      rfl
    refine Slice.within_start hoff ?_
    rw [hsize]
    show h.maxParticipants * 128 ≤ _
    rw [hv.participants]
    exact le_align64 _
  | edge hrec =>
    have hsize : (h.implied.region .edge).size = align64 (h.maxEdges * 128) := rfl
    exact edgeSlot_within hrec hoff (hsize ▸ le_align64 _)
  | stamps hr =>
    obtain ⟨hfits, rfl, -⟩ := ringOf_eq_some hr
    have hsize : (h.implied.region .stamp).size = align64 (h.stampSlots * 8) := rfl
    have hle := le_align64 (h.stampSlots * 8)
    have hend := hfits.stamps
    have hoff' : h.stampArenaOff = (h.implied.region .stamp).offset := hoff
    unfold Slice.Within
    dsimp only
    omega
  | poses hr =>
    obtain ⟨hfits, -, rfl⟩ := ringOf_eq_some hr
    have hsize : (h.implied.region .pose).size = align64 (h.stampSlots * 64) := rfl
    have hle := le_align64 (h.stampSlots * 64)
    have hend := hfits.poses
    have hslots := hv.slots
    have hoff' : h.poseArenaOff = (h.implied.region .pose).offset := hoff
    unfold Slice.Within
    dsimp only
    omega
  | edgeCounters hrec =>
    have hsize : (h.implied.region .edgeCounters).size = align64 (h.maxEdges * 128) := rfl
    exact edgeSlot_within hrec hoff (hsize ▸ le_align64 _)
  | participantCounters hrec =>
    have hsize : (h.implied.region .participantCounters).size =
      align64 (defaultMaxParticipants * 128) := rfl
    have hle := le_align64 (defaultMaxParticipants * 128)
    have hmax := hv.participants
    unfold ArenaView.participantCounters at hrec
    split_ifs at hrec with hid
    obtain rfl := Option.some_inj.mp hrec
    refine table_within ?_ (not_le.mp hid) (by rw [hmax, hsize]; exact hle) 64
    rw [← hoff]
    rfl

/-- A record of a table that begins at a multiple of 64. -/
theorem edgeSlot_aligned {id tableOff stride : ℕ} (hbase : 64 ∣ base) (hoff : 64 ∣ tableOff)
    (hstride : 64 ∣ stride) (he : (ArenaView.edgeSlotOff h id tableOff stride).map
      (fun off => (⟨off, stride, 64, 1⟩ : Slice)) = some s) : s.Aligned base := by
  obtain ⟨off, hslot, rfl⟩ := Option.map_eq_some_iff.mp he
  obtain ⟨-, rfl⟩ := edgeSlotOff_eq hslot
  exact Nat.dvd_add hbase (Nat.dvd_add hoff (Dvd.dvd.mul_left hstride _))

/-- The arrays of a topology block are aligned. -/
theorem topoBlock_aligned (hv : h.Valid size) (hbase : 64 ∣ base) {index : ℕ}
    (hs : s ∈ ArenaView.topoBlock h index) : s.Aligned base := by
  have hoff : h.topoBlockOff = (h.implied.region .topo).offset := hv.off .topo
  have hregion : 64 ∣ h.topoBlockOff := hoff ▸ compute_aligned .topo
  have hstride : h.topoBlockStride = align64 (h.maxFrames * 12) := hv.stride
  have hindex : 64 ∣ index * h.topoBlockStride := by
    rw [hstride]
    exact Dvd.dvd.mul_left (dvd_align64 _) _
  simp only [ArenaView.topoBlock, ArenaView.blockOff, List.mem_cons, List.not_mem_nil,
    or_false] at hs
  unfold Slice.Aligned
  rcases hs with rfl | rfl | rfl
  · dsimp only
    omega
  · dsimp only
    omega
  · dsimp only
    omega

/-- **Step lemma.** Every slice is aligned for its element type, over an aligned base. -/
theorem Formed.aligned (hv : h.Valid size) (hbase : 64 ∣ base) (hs : Formed h R s) :
    s.Aligned base := by
  have hoff : 64 ∣ h.off R := (hv.off R) ▸ compute_aligned R
  cases hs with
  | header => exact hbase
  | frameRecord hrec =>
    unfold ArenaView.frameRecord at hrec
    split_ifs at hrec
    obtain rfl := Option.some_inj.mp hrec
    exact Nat.dvd_add hbase (Nat.dvd_add hoff (Nat.dvd_mul_left _ _))
  | frameHashes =>
    show 8 ∣ base + h.off .frameHash
    omega
  | frameIds =>
    show 4 ∣ base + (h.off .frameHash + h.hashSlots * 8)
    omega
  | frameClaiming =>
    show 4 ∣ base + (h.off .frameHash + h.hashSlots * 12)
    omega
  | topoBlock hi hmem => exact topoBlock_aligned hv hbase hmem
  | claim hrec => exact edgeSlot_aligned hbase hoff (by decide) hrec
  | participants => exact Nat.dvd_add hbase hoff
  | edge hrec => exact edgeSlot_aligned hbase hoff (by decide) hrec
  | stamps hr =>
    obtain ⟨-, rfl, -⟩ := ringOf_eq_some hr
    show 8 ∣ base + (h.off .stamp + _ * 8)
    omega
  | poses hr =>
    obtain ⟨-, -, rfl⟩ := ringOf_eq_some hr
    exact Nat.dvd_add hbase (Nat.dvd_add hoff (Nat.dvd_mul_left _ _))
  | edgeCounters hrec => exact edgeSlot_aligned hbase hoff (by decide) hrec
  | participantCounters hrec =>
    unfold ArenaView.participantCounters at hrec
    split_ifs at hrec
    obtain rfl := Option.some_inj.mp hrec
    exact Nat.dvd_add hbase (Nat.dvd_add hoff (Dvd.dvd.mul_left (show 64 ∣ 128 by decide) _))

/-- **Main theorem.** Whatever the header is, if it is accepted for an arena of `size`
    bytes, the regions share no byte and end inside the arena, every slice a view forms
    lies inside its region and is aligned, whatever the edge records hold, and an edge
    record has a ring exactly when its extents fit. -/
theorem arena_slices_safe (hok : validateArenaHeader h size = .ok ()) (hbase : 64 ∣ base) :
    (∀ R s, Formed h R s → s.Within (h.implied.region R) ∧ s.offset + s.len * s.size ≤ size ∧
      s.Aligned base) ∧
    (∀ R R', R ≠ R' → (h.implied.region R).Disjoint (h.implied.region R')) ∧
    (∀ R, (h.implied.region R).offset + (h.implied.region R).size ≤ size) ∧
    ∀ edge, ArenaView.ringOf h edge = none ↔ ¬ RingFits h edge := by
  have hv := ArenaHeader.Valid.of_validate hok
  have hend : ∀ R, (h.implied.region R).offset + (h.implied.region R).size ≤ size := by
    intro R
    rw [← hv.totalSize]
    exact compute_end R
  refine ⟨fun R s hs => ?_, fun R R' hne => compute_disjoint hne, hend, fun edge => ?_⟩
  · have hin := hs.within hv
    exact ⟨hin, hin.2.trans (hend R), hs.aligned hv hbase⟩
  · rw [ArenaView.ringOf, Option.map_eq_none_iff, Option.eq_none_iff_forall_ne_some]
    constructor
    · intro hnone hfits
      exact hnone _ (ringBytes_eq_some.mpr ⟨hfits, rfl⟩)
    · intro hfits bytes hsome
      exact hfits (ringBytes_eq_some.mp hsome).1

/-- An arena of two frames and one edge of eight samples, built by this version. -/
def smallHeader : ArenaHeader := writeHeader (compute 2 1 defaultMaxParticipants 8)

theorem validate_smallHeader :
    validateArenaHeader smallHeader smallHeader.arenaSize = .ok () := by
  refine validate_writeHeader ?_
  rw [compute_totalSize]
  exact lt_of_le_of_lt (computeSizes_le 2 1 defaultMaxParticipants 8) (by decide)

/-- The ring of the edge lies inside the arena; a record that points past it has none. -/
theorem arena_slices_safe_small :
    (∀ stamps poses, ArenaView.ringOf smallHeader ⟨8, 0, 0⟩ = some (stamps, poses) →
      stamps.offset + stamps.len * stamps.size ≤ smallHeader.arenaSize) ∧
      ArenaView.ringOf smallHeader ⟨8, 1, 0⟩ = none := by
  obtain ⟨hin, -, -, hnone⟩ := arena_slices_safe validate_smallHeader (Nat.dvd_zero 64)
  refine ⟨fun stamps poses hr => (hin _ _ (.stamps hr)).2.1, (hnone _).mpr fun hfits => ?_⟩
  have hstamps := hfits.stamps
  exact absurd hstamps (by decide)

end Slices

end TfTree
