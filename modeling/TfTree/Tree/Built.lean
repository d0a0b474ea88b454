import Mathlib
import TfTree.Arena.View
import TfTree.Tree.Build

/-!
# What a built arena holds

The arena of a `build_with` (`tf_tree/src/tree.rs`) that succeeds: its ids, its topology,
its rings and its header.

Results:
* `Wired.ring`: the ring of a declared edge has its capacity, inside the two regions.
* `Wired.disjoint`: no two rings share a byte.
* `buildWith_built`: a build that succeeds holds what is declared, and a child with two
  parents or a cycle makes it fail.
-/

namespace TfTree

open Conc

variable {F : Type}

/-- `ArenaView::ring`, as the bytes it reads. -/
def Arena.ring (a : Arena F) (id : EdgeId) : Option (Slice × Slice) :=
  (a.edge id).bind fun e => ArenaView.ringOf a.header e.toEdgeRecord

namespace TreeBuilder

variable {b : TreeBuilder F}

/-- The arena is the declared one. -/
structure Built [Scalar F] (b : TreeBuilder F) (a : Arena F) : Prop where
  /-- A declared name is found under its id. -/
  find : ∀ name ∈ b.names, ∀ fuel,
    a.find fuel (Bridge.asBytes name) = some (.ok (b.idOf name))
  /-- Different names have different ids. -/
  distinct : ∀ name ∈ b.names, ∀ name' ∈ b.names, b.idOf name = b.idOf name' → name = name'
  /-- There are no other ids. -/
  count : a.frames.frameCount = b.names.length
  /-- The edge `i` of the declaration is the edge `i + 1`, and links its child to its parent. -/
  link : ∀ (i : ℕ) (e : EdgeDecl F), b.edges[i]? = some e →
    a.topology.mem.block.parent (b.idOf e.child) = b.idOf e.parent ∧
    a.topology.mem.block.edgeOfChild (b.idOf e.child) = i + 1 ∧
    ∃ off, a.edge (i + 1) = some (b.record e.kind (b.idOf e.parent) (b.idOf e.child) off)
  /-- The other frames are roots. -/
  root : ∀ f < a.header.maxFrames, (∀ e ∈ b.edges, (b.idOf e.child : ℕ) ≠ f) →
    a.topology.mem.block.parent f = 0 ∧ a.topology.mem.block.edgeOfChild f = 0
  /-- A dynamic edge has a ring of its capacity, inside the regions of the rings. -/
  ring : ∀ (i : ℕ) (e : EdgeDecl F) (cfg : EdgeCfg), b.edges[i]? = some e →
    e.kind = .dynamic cfg → ∃ stamps poses, a.ring (i + 1) = some (stamps, poses) ∧
      stamps.len = cfg.capacity.get ∧ poses.len = cfg.capacity.get ∧
      stamps.Within (a.header.implied.region .stamp) ∧
      poses.Within (a.header.implied.region .pose)
  /-- No two rings share a byte. -/
  disjoint : ∀ (id id' : EdgeId) (stamps poses stamps' poses' : Slice),
    a.ring id = some (stamps, poses) → a.ring id' = some (stamps', poses') →
    (id ≠ id' → stamps.bytes.Disjoint stamps'.bytes ∧ poses.bytes.Disjoint poses'.bytes) ∧
    stamps.bytes.Disjoint poses'.bytes
  /-- The header is accepted. -/
  header : validateArenaHeader a.header a.header.arenaSize = .ok ()

/-! ## The frames -/

section Frames

variable [Scalar F] {l : SizedLayout} {a : Arena F} {name : String}

theorem Wired.find (h : b.Wired l b.edges a) (hname : name ∈ b.names) (fuel : ℕ) :
    a.find fuel (Bridge.asBytes name) = some (.ok (b.idOf name)) := by
  have hk : (b.names.map Bridge.asBytes)[b.names.idxOf name]? = some (Bridge.asBytes name) := by
    rw [List.getElem?_map, List.getElem?_idxOf hname]
    rfl
  unfold Arena.find
  rw [h.names.run_find hk]
  dsimp only
  rw [show FrameId.new (b.names.idxOf name + 1) = some (b.idOf name) from
    dif_pos (Nat.succ_pos _)]

omit [Scalar F] in
theorem map_edgeLinks (b : TreeBuilder F) (done : List (EdgeDecl F)) :
    (b.edgeLinks done).map Prod.fst = (done.map b.link).map Prod.fst := by
  apply List.ext_getElem?
  intro i
  simp only [edgeLinks, List.getElem?_map, List.getElem?_mapIdx, Option.map_map]
  rfl

theorem Wired.link (h : b.Wired l b.edges a) (hchildren : (b.edges.map EdgeDecl.child).Nodup)
    {i : ℕ} {e : EdgeDecl F} (hi : b.edges[i]? = some e) :
    a.topology.mem.block.parent (b.idOf e.child) = b.idOf e.parent ∧
      a.topology.mem.block.edgeOfChild (b.idOf e.child) = i + 1 := by
  have he := List.mem_of_getElem? hi
  have hlt := h.id_lt (ends_mem he).2
  have hnodup := nodup_links hchildren
  rw [h.parent _ hlt, h.edge _ hlt]
  refine ⟨linked_of_mem hnodup (List.mem_map_of_mem he), ?_⟩
  refine linked_of_mem (by rw [map_edgeLinks]; exact hnodup) (List.mem_of_getElem? (i := i) ?_)
  rw [edgeLinks, List.getElem?_mapIdx, hi]
  rfl

theorem Wired.root (h : b.Wired l b.edges a) {f : ℕ} (hf : f < l.maxFrames)
    (hfresh : ∀ e ∈ b.edges, (b.idOf e.child : ℕ) ≠ f) :
    a.topology.mem.block.parent f = 0 ∧ a.topology.mem.block.edgeOfChild f = 0 := by
  have hlinks : ∀ x ∈ (b.edges.map b.link).map Prod.fst, x ≠ f := by
    intro x hx
    obtain ⟨p, hp, rfl⟩ := List.mem_map.mp hx
    obtain ⟨e, he, rfl⟩ := List.mem_map.mp hp
    exact hfresh e he
  rw [h.parent f hf, h.edge f hf]
  constructor
  · exact linked_of_fresh fun p hp => hlinks _ (List.mem_map_of_mem hp)
  · refine linked_of_fresh fun p hp => hlinks _ ?_
    rw [← map_edgeLinks]
    exact List.mem_map_of_mem hp

end Frames

/-! ## The rings -/

section Rings

variable {i j : ℕ} {e : EdgeDecl F} {es : List (EdgeDecl F)}

theorem slotsOf_take_succ (hi : es[i]? = some e) :
    slotsOf (es.take (i + 1)) = slotsOf (es.take i) + e.capacity := by
  rw [List.take_add_one, hi]
  exact slotsOf_concat

theorem slotsOf_take_mono (es : List (EdgeDecl F)) (h : i ≤ j) :
    slotsOf (es.take i) ≤ slotsOf (es.take j) := by
  obtain ⟨k, rfl⟩ := Nat.exists_eq_add_of_le h
  rw [List.take_add]
  simp [slotsOf]

/-- The slots of an edge end where those of a later one begin. -/
theorem slotsOf_take_lt (hi : es[i]? = some e) (h : i < j) :
    slotsOf (es.take i) + e.capacity ≤ slotsOf (es.take j) := by
  rw [← slotsOf_take_succ hi]
  exact slotsOf_take_mono es h

/-- The slots of an edge are among those of all. -/
theorem slotsOf_take_le (hi : es[i]? = some e) :
    slotsOf (es.take i) + e.capacity ≤ slotsOf es := by
  have hle := slotsOf_take_lt hi (List.getElem?_eq_some_iff.mp hi).1
  rwa [List.take_length] at hle

/-- The header of a layout that fits is valid, and counts the slots. -/
theorem Fits.header (hfits : b.Fits) :
    validateArenaHeader (writeHeader b.implied) (writeHeader b.implied).arenaSize = .ok () ∧
      (writeHeader b.implied).stampSlots = b.slots ∧
      (writeHeader b.implied).poseSlots = b.slots := by
  have hslots : asU32 b.slots = b.slots := by
    have hpose : (b.implied.region .pose).size = align64 (b.slots * 64) := rfl
    have hend : (b.implied.region .pose).offset + (b.implied.region .pose).size ≤
      b.implied.totalSize := compute_end .pose
    have hle := le_align64 (b.slots * 64)
    have hbytes := hfits.bytes
    exact asU32_of_lt (by omega)
  exact ⟨validate_writeHeader hfits.bytes, hslots, hslots⟩

variable [Scalar F] {l : SizedLayout} {a : Arena F} {cfg : EdgeCfg}

theorem record_dynamic (b : TreeBuilder F) (hkind : e.kind = .dynamic cfg) (parent child : FrameId)
    (off : ℕ) : (b.record e.kind parent child off).toEdgeRecord = ⟨cfg.capacity.get, off, off⟩ := by
  rw [hkind]
  rfl

theorem Wired.edge_eq (h : b.Wired l b.edges a) (hl : l.toArenaLayout = b.implied)
    (hi : b.edges[i]? = some e) : a.edge (i + 1) =
      some (b.record e.kind (b.idOf e.parent) (b.idOf e.child) (slotsOf (b.edges.take i))) := by
  have hlt := (List.getElem?_eq_some_iff.mp hi).1
  have hmax : i + 1 < a.header.maxEdges := by
    rw [h.header, hl]
    show i + 1 < b.edges.length + 1 + b.edgeHeadroom
    omega
  unfold Arena.edge
  rw [if_pos hmax, h.record i e hi]

/-- The ring of a declared dynamic edge. -/
theorem Wired.ring (h : b.Wired l b.edges a) (hl : l.toArenaLayout = b.implied) (hfits : b.Fits)
    (hi : b.edges[i]? = some e) (hkind : e.kind = .dynamic cfg) :
    a.ring (i + 1) = some
      (⟨a.header.stampArenaOff + slotsOf (b.edges.take i) * 8, 8, 8, cfg.capacity.get⟩,
        ⟨a.header.poseArenaOff + slotsOf (b.edges.take i) * 64, 64, 64, cfg.capacity.get⟩) := by
  obtain ⟨-, hstamps, hposes⟩ := hfits.header
  have hle := slotsOf_take_le hi
  have hcap : e.capacity = cfg.capacity.get := by
    unfold EdgeDecl.capacity
    rw [hkind]
  have hring : RingFits a.header ⟨cfg.capacity.get, slotsOf (b.edges.take i),
      slotsOf (b.edges.take i)⟩ := by
    rw [h.header, hl]
    refine ⟨cfg.powerOfTwo, ?_, ?_⟩
    · rw [hstamps, ← hcap]
      exact hle
    · rw [hposes, ← hcap]
      exact hle
  unfold Arena.ring
  rw [h.edge_eq hl hi, Option.bind_some, record_dynamic b hkind, ArenaView.ringOf,
    ringBytes_eq_some.mpr ⟨hring, rfl⟩]
  rfl

/-- An edge with a ring is a declared dynamic one. -/
theorem Wired.of_ring (h : b.Wired l b.edges a) {id : EdgeId} {stamps poses : Slice}
    (hring : a.ring id = some (stamps, poses)) :
    ∃ (i : ℕ) (e : EdgeDecl F) (cfg : EdgeCfg),
      id = i + 1 ∧ b.edges[i]? = some e ∧ e.kind = .dynamic cfg := by
  obtain ⟨slot, hslot, hof⟩ := Option.bind_eq_some_iff.mp hring
  obtain rfl : a.edges id = slot := by
    unfold Arena.edge at hslot
    split_ifs at hslot
    exact Option.some_inj.mp hslot
  have hpow := (ringOf_eq_some hof).1.powerOfTwo
  have hpos : (a.edges id).capacity ≠ 0 := by
    intro h0
    rw [h0] at hpow
    exact absurd hpow (by decide)
  obtain ⟨i, rfl⟩ : ∃ i : ℕ, id = i + 1 := by
    refine Nat.exists_eq_succ_of_ne_zero fun h0 => hpos (h.spare id (.inl h0))
  have hlt : i < b.edges.length := by
    by_contra hge
    exact hpos (h.spare (i + 1) (.inr (by omega)))
  have hi := List.getElem?_eq_getElem hlt
  rw [h.record i _ hi] at hpos
  cases hkind : b.edges[i].kind with
  | static iso =>
    rw [hkind] at hpos
    exact absurd rfl hpos
  | dynamic cfg => exact ⟨i, b.edges[i], cfg, rfl, hi, hkind⟩

/-- Rings share no byte. -/
theorem Wired.disjoint (h : b.Wired l b.edges a) (hl : l.toArenaLayout = b.implied)
    (hfits : b.Fits) {id id' : EdgeId} {stamps poses stamps' poses' : Slice}
    (hring : a.ring id = some (stamps, poses)) (hring' : a.ring id' = some (stamps', poses'))
    (hne : id ≠ id') :
    stamps.bytes.Disjoint stamps'.bytes ∧ poses.bytes.Disjoint poses'.bytes := by
  obtain ⟨i, e, cfg, rfl, hi, hkind⟩ := h.of_ring hring
  obtain ⟨j, e', cfg', rfl, hj, hkind'⟩ := h.of_ring hring'
  have hcap : e.capacity = cfg.capacity.get := by
    unfold EdgeDecl.capacity
    rw [hkind]
  have hcap' : e'.capacity = cfg'.capacity.get := by
    unfold EdgeDecl.capacity
    rw [hkind']
  rw [h.ring hl hfits hi hkind] at hring
  rw [h.ring hl hfits hj hkind'] at hring'
  obtain ⟨rfl, rfl⟩ := Prod.mk.inj (Option.some_inj.mp hring)
  obtain ⟨rfl, rfl⟩ := Prod.mk.inj (Option.some_inj.mp hring')
  have hij : i ≠ j := fun hij => hne (congrArg (· + 1) hij)
  rcases Nat.lt_or_gt_of_ne hij with hlt | hlt
  · have hbefore := slotsOf_take_lt hi hlt
    rw [hcap] at hbefore
    exact ⟨Slice.disjoint_of_before hbefore, Slice.disjoint_of_before hbefore⟩
  · have hbefore := slotsOf_take_lt hj hlt
    rw [hcap'] at hbefore
    exact ⟨(Slice.disjoint_of_before hbefore).symm, (Slice.disjoint_of_before hbefore).symm⟩

end Rings

/-! ## The arena -/

section Arena

variable [Scalar F] {l : SizedLayout} {a : Arena F} {hash : List UInt8 → ℕ}
  {uuid : Vector UInt8 16} {fuel : ℕ}

theorem Wired.within (h : b.Wired l b.edges a) (hl : l.toArenaLayout = b.implied) (hfits : b.Fits)
    {id : EdgeId} {stamps poses : Slice} (hring : a.ring id = some (stamps, poses)) :
    stamps.Within (a.header.implied.region .stamp) ∧
      poses.Within (a.header.implied.region .pose) := by
  obtain ⟨slot, -, hof⟩ := Option.bind_eq_some_iff.mp hring
  have hvalid := ArenaHeader.Valid.of_validate hfits.header.1
  rw [← hl, ← h.header] at hvalid
  exact ⟨(Formed.stamps hof).within hvalid, (Formed.poses hof).within hvalid⟩

/-- An arena with all the edges wired is the declared one. -/
theorem Wired.built (h : b.Wired l b.edges a) (hl : l.toArenaLayout = b.implied) (hfits : b.Fits) :
    b.Built a where
  find := fun name hname fuel => h.find hname fuel
  distinct := fun name hname name' _ heq => idOf_inj hname (congrArg PNat.val heq)
  count := by rw [h.names.count, List.length_map]
  link := fun i e hi => by
    obtain ⟨hparent, hedge⟩ := h.link hfits.children hi
    exact ⟨hparent, hedge, _, h.edge_eq hl hi⟩
  root := fun f hf hfresh => by
    rw [h.header] at hf
    exact h.root hf hfresh
  ring := fun i e cfg hi hkind => by
    have hring := h.ring hl hfits hi hkind
    obtain ⟨hstamps, hposes⟩ := h.within hl hfits hring
    exact ⟨_, _, hring, rfl, rfl, hstamps, hposes⟩
  disjoint := fun id id' stamps poses stamps' poses' hring hring' => by
    refine ⟨h.disjoint hl hfits hring hring', ?_⟩
    have hregions : (a.header.implied.region .stamp).Disjoint (a.header.implied.region .pose) :=
      compute_disjoint (by decide)
    exact Slice.disjoint_of_within (h.within hl hfits hring).1 (h.within hl hfits hring').2 hregions
  header := by
    rw [h.header, hl]
    exact hfits.header.1

/-- **Main theorem.** A build that succeeds leaves the arena that is declared; a child with
    two parents or a cycle makes it fail. Of two names with one hash the first 48 bytes
    differ, and no name hashes to the mark of an empty slot. -/
theorem buildWith_built (b : TreeBuilder F) (hapart : Apart hash b.names) :
    (∀ a, b.buildWith hash uuid fuel = some (.ok a) → b.Built a) ∧
      (¬ (b.edges.map EdgeDecl.child).Nodup ∨ b.Cyclic →
        ∃ e, b.buildWith hash uuid fuel = some (.error e)) := by
  cases hl : b.layout hash with
  | error e =>
    have hbuild : b.buildWith hash uuid fuel = some (.error e) := by
      rw [buildWith, hl]
    refine ⟨fun a hok => ?_, fun _ => ⟨e, hbuild⟩⟩
    cases hbuild.symm.trans hok
  | ok l =>
    obtain ⟨hfits, hlayout⟩ := b.layout_ok hl
    rcases buildWith_spec hl hapart uuid fuel with
      ⟨-, h, hbuild⟩ | ⟨-, -, child, hbuild⟩ | ⟨-, hacyclic, a, hwired, hbuild⟩
    · refine ⟨fun a hok => ?_, fun _ => ⟨_, hbuild⟩⟩
      cases hbuild.symm.trans hok
    · refine ⟨fun a hok => ?_, fun _ => ⟨_, hbuild⟩⟩
      cases hbuild.symm.trans hok
    · refine ⟨fun a' hok => ?_, fun hbad => ?_⟩
      · obtain rfl := Except.ok.inj (Option.some_inj.mp (hbuild.symm.trans hok))
        exact hwired.built hlayout hfits
      · rcases hbad with hdup | hcyclic
        · exact absurd hfits.children hdup
        · exact absurd hcyclic hacyclic

end Arena

end TreeBuilder

/-! ## A chain of frames -/

/-- `EdgeCfg::new(Capacity::slots(n))`. -/
def EdgeCfg.ofSlots (n : ℕ) : EdgeCfg where
  capacity := .slots n
  powerOfTwo := isPowerOfTwo_nextPow2U32 n
  interp := none
  domain := none
  nominalRateMhz := 0

/-- A frame on its own, and a chain of three frames. -/
def chainBuilder : TreeBuilder Bridge.Hundredths where
  frames := ["map"]
  edges := [⟨"odom", "base", .dynamic (.ofSlots 1)⟩, ⟨"base", "laser", .dynamic (.ofSlots 1)⟩]

/-- The first eight bytes of the digests of the names. -/
def chainHash (name : List UInt8) : ℕ :=
  if name = [109, 97, 112] then 0x93fb99a1e1c31c90
  else if name = [111, 100, 111, 109] then 0xf0ffe62bd865533e
  else if name = [98, 97, 115, 101] then 0x11b97e32cf3f8fde
  else if name = [108, 97, 115, 101, 114] then 0xb292ee8b5d0ec227
  else 1

theorem names_chain : chainBuilder.names = ["map", "odom", "base", "laser"] := by decide

theorem fits_chain : chainBuilder.Fits where
  children := by
    show (["base", "laser"] : List String).Nodup
    decide
  frames := by
    rw [names_chain]
    decide
  edges := by decide
  bytes := by
    have hslots : chainBuilder.slots = 2 := by
      show nextPow2U32 1 + (nextPow2U32 1 + 0) = 2
      rw [nextPow2U32_one]
    rw [TreeBuilder.implied, names_chain, hslots, compute_totalSize]
    exact lt_of_le_of_lt (computeSizes_le 5 3 defaultMaxParticipants 2) (by decide)

theorem not_cyclic_chain : ¬ chainBuilder.Cyclic := by
  -- the height of a frame in the chain
  let height : String → ℕ := fun name =>
    if name = "laser" then 2 else if name = "base" then 1 else 0
  have hstep : ∀ x y, chainBuilder.Declares x y → height y < height x := by
    rintro x y ⟨e, he, rfl, rfl⟩
    rcases List.mem_cons.mp he with rfl | he
    · decide
    · rw [List.mem_singleton.mp he]
      decide
  rintro ⟨name, hname⟩
  have hlt : ∀ y, Relation.TransGen chainBuilder.Declares name y → height y < height name := by
    intro y hy
    induction hy with
    | single h => exact hstep _ _ h
    | tail _ h ih => exact (hstep _ _ h).trans ih
  exact lt_irrefl _ (hlt name hname)

theorem apart_chain : Apart chainHash chainBuilder.names := by
  rw [names_chain]
  exact ⟨by decide, by decide⟩

theorem built_chain : ∃ a,
    chainBuilder.buildWith chainHash (Vector.replicate 16 0) 0 = some (.ok a) ∧
      chainBuilder.Built a := by
  obtain ⟨l, hl⟩ := TreeBuilder.layout_ok_iff.mpr fits_chain
  rcases TreeBuilder.buildWith_spec hl apart_chain (Vector.replicate 16 0) 0 with
    ⟨hdup, -⟩ | ⟨-, hcyclic, -⟩ | ⟨-, -, a, hwired, hbuild⟩
  · refine absurd ?_ hdup
    rw [names_chain]
    decide
  · exact absurd hcyclic not_cyclic_chain
  · exact ⟨a, hbuild, hwired.built (TreeBuilder.layout_ok hl).2 fits_chain⟩

/-- The chain is built as it is declared. -/
theorem buildWith_built_chain :
    ∃ a, chainBuilder.buildWith chainHash (Vector.replicate 16 0) 0 = some (.ok a) ∧
      chainBuilder.Built a := by
  obtain ⟨a, hbuild, -⟩ := built_chain
  exact ⟨a, hbuild, (TreeBuilder.buildWith_built chainBuilder apart_chain).1 a hbuild⟩

/-! ## Two names with one id -/

/-- The name of a camera; the last letter is behind byte 48. -/
def cameraName (last : String) : String :=
  "camera_front_left_of_the_second_trailer_behind_rig_" ++ last

/-- Two frames on their own. -/
def twinBuilder : TreeBuilder Bridge.Hundredths where
  frames := [cameraName "a", cameraName "b"]

/-- A hash that both names share. -/
def twinHash (_ : List UInt8) : ℕ := 0x53a469d9dd2f7617

theorem names_twin : twinBuilder.names = [cameraName "a", cameraName "b"] := by decide

theorem stored_twin : FrameRecord.stored (Bridge.asBytes (cameraName "b")) =
    FrameRecord.stored (Bridge.asBytes (cameraName "a")) := by decide

theorem fits_twin : twinBuilder.Fits where
  children := List.nodup_nil
  frames := by
    rw [names_twin]
    decide
  edges := by decide
  bytes := by
    have hslots : twinBuilder.slots = 0 := rfl
    rw [TreeBuilder.implied, names_twin, hslots, compute_totalSize]
    exact lt_of_le_of_lt (computeSizes_le 3 1 defaultMaxParticipants 0) (by decide)

/-- A name that is stored as the first one of the table, with its hash, is found under `1`. -/
theorem Arena.find_shared [Scalar F] {a : Arena F} {n n' : String} (h : a.Holds [n'])
    (hhash : a.table.hash (Bridge.asBytes n) = a.table.hash (Bridge.asBytes n'))
    (hname : FrameRecord.stored (Bridge.asBytes n) = FrameRecord.stored (Bridge.asBytes n'))
    (fuel : ℕ) : a.find fuel (Bridge.asBytes n) = some (.ok 1) := by
  unfold Arena.find
  rw [h.run_find_shared (k := 0) rfl hhash hname]
  rfl

/-- Two declared names of one hash that are stored alike get one id. -/
theorem buildWith_merges_twin :
    ∃ a, twinBuilder.buildWith twinHash (Vector.replicate 16 0) 0 = some (.ok a) ∧
      cameraName "a" ∈ twinBuilder.names ∧ cameraName "b" ∈ twinBuilder.names ∧
      cameraName "a" ≠ cameraName "b" ∧ a.frames.frameCount = 1 ∧
      a.find 0 (Bridge.asBytes (cameraName "a")) = some (.ok 1) ∧
      a.find 0 (Bridge.asBytes (cameraName "b")) = some (.ok 1) := by
  obtain ⟨l, hl⟩ : ∃ l, twinBuilder.layout twinHash = .ok l :=
    TreeBuilder.layout_ok_iff.mpr fits_twin
  have hframes : l.maxFrames = 3 := by
    rw [(TreeBuilder.layout_ok hl).2]
    show twinBuilder.names.length + 1 + 0 = 3
    rw [names_twin]
    rfl
  generalize ha : Arena.fresh (F := Bridge.Hundredths) l twinHash (Vector.replicate 16 0) = a
  have hempty : a.Holds [] := by
    rw [← ha]
    exact InternMem.filled_init _
  have hroom : 0 < a.table.capacity := by
    rw [← ha]
    show 0 < l.maxFrames - 1
    omega
  have hhash : ∀ n, a.table.hash n = twinHash [] := by
    rw [← ha]
    exact fun _ => rfl
  have hsame : ∀ n n', a.table.hash n = a.table.hash n' := fun n n' => by rw [hhash, hhash]
  -- the first name takes the id `1`, and the second one finds its slot
  have hne : a.table.hash (Bridge.asBytes (cameraName "a")) ≠ 0 := by
    rw [hhash]
    decide
  obtain ⟨m, hrun, hfilled⟩ := hempty.run_new 0 claimUnrecorded 0 hroom hne nofun
  have hholds : ({ a with frames := m } : Arena _).Holds [cameraName "a"] := hfilled
  have hfirst := Arena.intern_ok hrun
  have hsecond := Arena.intern_ok (hholds.run_shared 0 claimUnrecorded 0 (k := 0) rfl (hsame _ _)
    stored_twin)
  refine ⟨{ a with frames := m }, ?_, ?_, ?_, by decide, hfilled.count, ?_, ?_⟩
  · rw [TreeBuilder.buildWith, hl]
    dsimp only
    rw [ha, names_twin, Arena.internAll, hfirst]
    show (Arena.internAll 0 [cameraName "b"] { a with frames := m } >>= _) = _
    rw [Arena.internAll, hsecond]
    rfl
  · rw [names_twin]
    exact List.mem_cons_self
  · rw [names_twin]
    exact List.mem_cons_of_mem _ List.mem_cons_self
  · exact Arena.find_shared hholds rfl rfl 0
  · exact Arena.find_shared hholds (hsame _ _) stored_twin 0

end TfTree
