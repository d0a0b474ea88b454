import Mathlib
import TfTree.Bridge.Index
import TfTree.Data.Chain
import TfTree.Frame.Fill
import TfTree.Tree.Arena
import TfTree.Tree.Capacity

/-!
# Building a tree

`TreeBuilder` (`tf_tree/src/tree.rs`): the declarations it collects, the layout they take
(`ArenaLayout::new`), and `build_with`, which interns the names, declares the edges and wires
the topology, on a fresh arena that nobody else uses.

Results:
* `TreeBuilder.layout_ok_iff`: which declarations have a layout.
* `TreeBuilder.buildWith_spec`: a builder that has a layout either refuses two names of one
  hash, or the first edge that leads back to its own child, or builds what is declared.
-/

namespace TfTree

open Conc

variable {F : Type}

/-! ## Model of `layout.rs` -/

/-- `LayoutError`. -/
inductive LayoutError where
  | capacityNotPowerOfTwo (edge capacity : ℕ)
  | edgeCountMismatch (maxEdges got : ℕ)
  | arenaTooLarge (totalSize : ℕ)
  deriving DecidableEq, Repr

/-- The loop of `ArenaLayout::new` over the capacities, from the edge `edge` on. -/
def checkCapacities (edge : ℕ) : List ℕ → Except LayoutError Unit
  | [] => .ok ()
  | capacity :: rest =>
    if capacity ≠ 0 ∧ ArenaView.isPowerOfTwo capacity = false then
      .error (.capacityNotPowerOfTwo edge capacity)
    else checkCapacities (edge + 1) rest

/-- `ArenaLayout::new` (lines 191–227). -/
def ArenaLayout.new (maxFrames maxEdges : ℕ) (edgeCapacities : List ℕ) :
    Except LayoutError ArenaLayout :=
  if edgeCapacities.length ≠ maxEdges then
    .error (.edgeCountMismatch maxEdges edgeCapacities.length)
  else
    match checkCapacities 0 edgeCapacities with
    | .error e => .error e
    | .ok () =>
      let l := compute maxFrames maxEdges defaultMaxParticipants edgeCapacities.sum
      if l.totalSize > 2 ^ 32 - 1 then .error (.arenaTooLarge l.totalSize) else .ok l

/-! ## Model of `tree.rs` -/

theorem isPowerOfTwo_nextPow2U32 (n : ℕ) : ArenaView.isPowerOfTwo (nextPow2U32 n) = true := by
  have hpow : ∀ k, ArenaView.isPowerOfTwo (2 ^ k) = true := by
    intro k
    unfold ArenaView.isPowerOfTwo
    simp only [Bool.and_eq_true, decide_eq_true_eq]
    exact Nat.ne_zero_and_sub_one_eq_zero_iff_isPowerOfTwo.mpr ⟨k, rfl⟩
  unfold nextPow2U32
  split_ifs
  · exact hpow 31
  · obtain ⟨k, hk⟩ := nextPow2_pow n
    rw [hk]
    exact hpow k

theorem nextPow2U32_one : nextPow2U32 1 = 1 := by
  simp [nextPow2U32, nextPow2, nextPow2Loop]

/-- `InterpPolicy::as_u8`. -/
def InterpPolicy.asU8 : InterpPolicy → ℕ
  | .scLerp => 0
  | .lerpSlerp => 1

/-- `EdgeCfg`; a `Capacity` is built by `slots` and `history` only. -/
structure EdgeCfg where
  capacity : Capacity
  powerOfTwo : ArenaView.isPowerOfTwo capacity.get = true
  interp : Option InterpPolicy
  domain : Option ℕ
  nominalRateMhz : ℕ

/-- `EdgeDeclKind`. -/
inductive EdgeDeclKind (F : Type) where
  | static (iso : Iso3 F)
  | dynamic (cfg : EdgeCfg)

/-- `EdgeDecl`. -/
structure EdgeDecl (F : Type) where
  parent : String
  child : String
  kind : EdgeDeclKind F

/-- The capacity an edge reserves: none for a static one. -/
def EdgeDecl.capacity (e : EdgeDecl F) : ℕ :=
  match e.kind with
  | .static _ => 0
  | .dynamic cfg => cfg.capacity.get

/-- `TreeBuilder`, with the values of `TreeBuilder::new`. -/
structure TreeBuilder (F : Type) where
  defaultInterp : InterpPolicy := .scLerp
  defaultDomain : ℕ := Bridge.systemTag
  frames : List String := []
  edges : List (EdgeDecl F) := []
  frameHeadroom : ℕ := 0
  edgeHeadroom : ℕ := 0

/-- `BuildError`; `edgeCapacityExceeded` is `Topology(CapacityExceeded)`. -/
inductive BuildError where
  | duplicateEdge (child : ℕ)
  | tooManyFrames
  | tooManyEdges
  | layout (e : LayoutError)
  | frame (e : FrameError)
  | topology (e : TopologyError)
  | edgeCapacityExceeded

/-- A step of `build_with`: `none` when it waits for ever, or panics. -/
abbrev Build (α : Type) := ExceptT BuildError Option α

/-- The layout of a builder, with the `u32` its count of frames is. -/
structure SizedLayout extends ArenaLayout where
  maxFrames_lt : maxFrames < 2 ^ 32

/-- `seen.insert(name)` and `names.push(name)`. -/
def pushName (names : List String) (name : String) : List String :=
  if name ∈ names then names else names ++ [name]

/-- Step 2: the first child that `children` holds already. -/
def duplicateChild (children : List String) : List (EdgeDecl F) → Option String
  | [] => none
  | e :: es =>
    if e.child ∈ children then some e.child else duplicateChild (e.child :: children) es

theorem ArenaLayout.new_ok {maxFrames maxEdges : ℕ} {caps : List ℕ} {l : ArenaLayout}
    (h : ArenaLayout.new maxFrames maxEdges caps = .ok l) :
    l = compute maxFrames maxEdges defaultMaxParticipants caps.sum ∧ l.totalSize < 2 ^ 32 := by
  unfold ArenaLayout.new at h
  split_ifs at h with hlen
  cases hcaps : checkCapacities 0 caps with
  | error e =>
    rw [hcaps] at h
    cases h
  | ok u =>
    rw [hcaps] at h
    dsimp only at h
    split_ifs at h with hsize
    obtain rfl := Except.ok.inj h
    exact ⟨rfl, by omega⟩

namespace TreeBuilder

variable (b : TreeBuilder F)

/-- Step 1: the unique names in first-seen order. -/
def names : List String :=
  (b.frames ++ b.edges.flatMap fun e => [e.parent, e.child]).foldl pushName []

/-- Step 4: the capacities by edge id, with the sentinel and the headroom. -/
def capacities : List ℕ :=
  0 :: (b.edges.map EdgeDecl.capacity ++ List.replicate b.edgeHeadroom 0)

/-- Steps 2 to 5, up to the allocation (lines 482–513). -/
def layout (hash : List UInt8 → ℕ) : Except BuildError SizedLayout :=
  match duplicateChild [] b.edges with
  | some child => .error (.duplicateEdge (hash (Bridge.asBytes child)))
  | none =>
    let maxFrames := b.names.length + 1 + b.frameHeadroom
    let maxEdges := b.edges.length + 1 + b.edgeHeadroom
    if hf : maxFrames < 2 ^ 32 then
      if maxEdges < 2 ^ 32 then
        match hnew : ArenaLayout.new maxFrames maxEdges b.capacities with
        | .error e => .error (.layout e)
        | .ok l => .ok { l with
            maxFrames_lt := by
              rw [(ArenaLayout.new_ok hnew).1]
              exact hf }
      else .error .tooManyEdges
    else .error .tooManyFrames

/-- The record of an edge (lines 550–578). The running offset stays below the sum of the
    capacities, which is a `u32`. -/
def record (kind : EdgeDeclKind F) [Scalar F] (parent child : FrameId) (runningOff : ℕ) :
    EdgeSlot F :=
  match kind with
  | .static iso =>
    { capacity := 0
      stampOff := 0
      poseOff := 0
      parent := parent
      child := child
      kind := 1
      interp := 0
      domain := b.defaultDomain
      nominalRateMhz := 0
      staticPose := iso }
  | .dynamic cfg =>
    { capacity := cfg.capacity.get
      stampOff := runningOff
      poseOff := runningOff
      parent := parent
      child := child
      kind := 0
      interp := (cfg.interp.getD b.defaultInterp).asU8
      domain := cfg.domain.getD b.defaultDomain
      nominalRateMhz := cfg.nominalRateMhz
      staticPose := Iso3.fromBits fun _ => 0 }

end TreeBuilder

namespace Arena

variable [Scalar F]

/-- A zeroed arena with its header. -/
def fresh (l : SizedLayout) (hash : List UInt8 → ℕ) (uuid : Vector UInt8 16) : Arena F where
  header := writeHeader l.toArenaLayout
  instanceUuid := uuid
  table := ⟨l.maxFrames, l.maxFrames_lt, hash⟩
  maxFrames := rfl
  frames := .init fun _ => true
  topology := .init l.maxFrames
  edges := fun _ => ⟨⟨0, 0, 0⟩, 0, 0, 0, 0, 0, 0, Iso3.fromBits fun _ => 0⟩
  rings := emptyArena

/-- `ArenaView::intern`, as nobody, with the answers of nobody to ask. -/
def intern (a : Arena F) (fuel : ℕ) (name : String) : Build (FrameId × Arena F) :=
  match (a.table.internCore 0 claimUnrecorded fuel (Bridge.asBytes name)).run
      (InternOp.exec a.table) a.frames with
  | some (some (.ok id), m) =>
    match FrameId.new id with
    | some f => some (.ok (f, { a with frames := m }))
    | none => some (.error (.frame .capacityExceeded))
  | some (some (.error e), _) => some (.error (.frame e))
  | _ => none

/-- `ArenaBuilder::declare_edge`. -/
def declareEdge (a : Arena F) (id : EdgeId) (record : EdgeSlot F) : Build (Arena F) :=
  match ArenaView.edgeSlotOff a.header id a.header.edgeTableOff 128 with
  | none => some (.error .edgeCapacityExceeded)
  | some _ => some (.ok { a with edges := upd a.edges id record })

/-- `topology().set_parent`. -/
def setParent (a : Arena F) (child : FrameId) (parent edge : ℕ) : Build (Arena F) :=
  match a.topology.setParent child parent edge with
  | none => none
  | some (.error e, _) => some (.error (.topology e))
  | some (.ok (), t) => some (.ok { a with topology := t })

/-- Step 6: intern every name (lines 536–538). -/
def internAll (fuel : ℕ) : List String → Arena F → Build (Arena F)
  | [], a => pure a
  | n :: names, a => do
    let (_, a) ← a.intern fuel n
    internAll fuel names a

end Arena

namespace TreeBuilder

variable [Scalar F]

/-- Step 7 (lines 541–587), from the edge `i` on. -/
def declareEdges (b : TreeBuilder F) (fuel : ℕ) :
    ℕ → ℕ → List (EdgeDecl F) → Arena F → Build (Arena F)
  | _, _, [], a => pure a
  | i, runningOff, e :: es, a => do
    let edgeId := i + 1
    let (parent, a) ← a.intern fuel e.parent
    let (child, a) ← a.intern fuel e.child
    let a ← a.declareEdge edgeId (b.record e.kind parent child runningOff)
    let a ← a.setParent child parent edgeId
    b.declareEdges fuel (i + 1) (runningOff + e.capacity) es a

/-- `build_with` (lines 460–591), with the hash of the names, the id of the instance, and
    `fuel` for the waits of `intern`. -/
def buildWith (b : TreeBuilder F) (hash : List UInt8 → ℕ) (uuid : Vector UInt8 16) (fuel : ℕ) :
    Build (Arena F) :=
  match b.layout hash with
  | .error e => some (.error e)
  | .ok l => do
    let a ← Arena.internAll fuel b.names (.fresh l hash uuid)
    b.declareEdges fuel 0 0 b.edges a

end TreeBuilder

/-! ## The declarations -/

section Declarations

variable {b : TreeBuilder F} {names : List String} {name n : String}
  {es : List (EdgeDecl F)} {hash : List UInt8 → ℕ}

theorem mem_pushName : name ∈ pushName names n ↔ name ∈ names ∨ name = n := by
  unfold pushName
  split_ifs with hmem
  · constructor
    · exact Or.inl
    · rintro (h | rfl)
      · exact h
      · exact hmem
  · rw [List.mem_append, List.mem_singleton]

theorem nodup_pushName (h : names.Nodup) (n : String) : (pushName names n).Nodup := by
  unfold pushName
  split_ifs with hmem
  · exact h
  · exact List.nodup_append.mpr ⟨h, List.nodup_singleton n, fun a ha b hb hab => hmem (by
      rwa [← List.mem_singleton.mp hb, ← hab])⟩

theorem foldl_pushName (ns : List String) (h : names.Nodup) :
    (ns.foldl pushName names).Nodup ∧
      ∀ name, name ∈ ns.foldl pushName names ↔ name ∈ names ∨ name ∈ ns := by
  induction ns generalizing names with
  | nil => exact ⟨h, fun name => by simp⟩
  | cons n ns ih =>
    obtain ⟨hnodup, hmem⟩ := ih (nodup_pushName h n)
    refine ⟨hnodup, fun name => ?_⟩
    rw [List.foldl_cons, hmem, mem_pushName, List.mem_cons, or_assoc]

theorem TreeBuilder.names_nodup (b : TreeBuilder F) : b.names.Nodup :=
  (foldl_pushName _ List.nodup_nil).1

/-- The names are those of the frames and of the ends of the edges. -/
theorem TreeBuilder.mem_names : name ∈ b.names ↔
    name ∈ b.frames ∨ ∃ e ∈ b.edges, name = e.parent ∨ name = e.child := by
  rw [TreeBuilder.names, (foldl_pushName _ List.nodup_nil).2]
  simp

theorem duplicateChild_none {children : List String} : duplicateChild children es = none ↔
    (es.map EdgeDecl.child).Nodup ∧ ∀ e ∈ es, e.child ∉ children := by
  induction es generalizing children with
  | nil => simp [duplicateChild]
  | cons e es ih =>
    rw [duplicateChild]
    split_ifs with hmem
    · simp [hmem]
    · rw [ih, List.map_cons, List.nodup_cons, List.forall_mem_cons]
      constructor
      · rintro ⟨hnodup, hfresh⟩
        refine ⟨⟨fun hin => ?_, hnodup⟩, hmem, fun e' he' hc => ?_⟩
        · obtain ⟨e', he', heq⟩ := List.mem_map.mp hin
          exact hfresh e' he' (by rw [heq]; exact List.mem_cons_self)
        · exact hfresh e' he' (List.mem_cons_of_mem _ hc)
      · rintro ⟨⟨hout, hnodup⟩, -, hfresh⟩
        refine ⟨hnodup, fun e' he' hc => ?_⟩
        rcases List.mem_cons.mp hc with heq | hc
        · exact hout (heq ▸ List.mem_map_of_mem he')
        · exact hfresh e' he' hc

theorem checkCapacities_ok {edge : ℕ} {caps : List ℕ}
    (h : ∀ c ∈ caps, c = 0 ∨ ArenaView.isPowerOfTwo c = true) :
    checkCapacities edge caps = .ok () := by
  induction caps generalizing edge with
  | nil => rfl
  | cons c caps ih =>
    obtain ⟨hc, hrest⟩ := List.forall_mem_cons.mp h
    rw [checkCapacities, if_neg]
    · exact ih hrest
    · rintro ⟨h0, hpow⟩
      rcases hc with hc | hc
      · exact h0 hc
      · exact Bool.noConfusion (hpow.symm.trans hc)

theorem EdgeDecl.capacity_ok (e : EdgeDecl F) :
    e.capacity = 0 ∨ ArenaView.isPowerOfTwo e.capacity = true := by
  unfold EdgeDecl.capacity
  cases e.kind with
  | static iso => exact .inl rfl
  | dynamic cfg => exact .inr cfg.powerOfTwo

/-- The slots that the rings take. -/
def TreeBuilder.slots (b : TreeBuilder F) : ℕ := (b.edges.map EdgeDecl.capacity).sum

theorem TreeBuilder.capacities_ok (b : TreeBuilder F) :
    b.capacities.length = b.edges.length + 1 + b.edgeHeadroom ∧ b.capacities.sum = b.slots ∧
      checkCapacities 0 b.capacities = .ok () := by
  refine ⟨?_, ?_, checkCapacities_ok fun c hc => ?_⟩
  · simp [TreeBuilder.capacities]
    omega
  · simp [TreeBuilder.capacities, TreeBuilder.slots]
  · rcases List.mem_cons.mp hc with rfl | hc
    · exact .inl rfl
    · rcases List.mem_append.mp hc with hc | hc
      · obtain ⟨e, -, rfl⟩ := List.mem_map.mp hc
        exact e.capacity_ok
      · exact .inl (List.eq_of_mem_replicate hc)

/-- The layout that the declarations imply. -/
def TreeBuilder.implied (b : TreeBuilder F) : ArenaLayout :=
  compute (b.names.length + 1 + b.frameHeadroom) (b.edges.length + 1 + b.edgeHeadroom)
    defaultMaxParticipants b.slots

/-- A frame has one parent, the ids are `u32`, and so are the offsets. -/
structure TreeBuilder.Fits (b : TreeBuilder F) : Prop where
  children : (b.edges.map EdgeDecl.child).Nodup
  frames : b.names.length + 1 + b.frameHeadroom < 2 ^ 32
  edges : b.edges.length + 1 + b.edgeHeadroom < 2 ^ 32
  bytes : b.implied.totalSize < 2 ^ 32

theorem TreeBuilder.layout_ok {l : SizedLayout} (h : b.layout hash = .ok l) :
    b.Fits ∧ l.toArenaLayout = b.implied := by
  unfold TreeBuilder.layout at h
  cases hdup : duplicateChild [] b.edges with
  | some child =>
    rw [hdup] at h
    cases h
  | none =>
    rw [hdup] at h
    dsimp only at h
    split_ifs at h with hf he
    split at h
    · cases h
    · next l' hnew =>
      obtain rfl := Except.ok.inj h
      obtain ⟨hl, hsize⟩ := ArenaLayout.new_ok hnew
      rw [b.capacities_ok.2.1] at hl
      refine ⟨⟨(duplicateChild_none.mp hdup).1, hf, he, ?_⟩, hl⟩
      rw [TreeBuilder.implied, ← hl]
      exact hsize

/-- Which declarations have a layout. -/
theorem TreeBuilder.layout_ok_iff : (∃ l, b.layout hash = .ok l) ↔ b.Fits := by
  refine ⟨fun ⟨l, hl⟩ => (b.layout_ok hl).1, fun hfits => ?_⟩
  have hdup : duplicateChild [] b.edges = none :=
    duplicateChild_none.mpr ⟨hfits.children, fun _ _ => List.not_mem_nil⟩
  obtain ⟨hlen, hsum, hcheck⟩ := b.capacities_ok
  have hnew : ArenaLayout.new (b.names.length + 1 + b.frameHeadroom)
      (b.edges.length + 1 + b.edgeHeadroom) b.capacities = .ok b.implied := by
    have hbytes := hfits.bytes
    unfold TreeBuilder.implied at hbytes ⊢
    rw [ArenaLayout.new, if_neg (not_not_intro hlen), hcheck, hsum]
    dsimp only
    rw [if_neg (by omega)]
  unfold TreeBuilder.layout
  rw [hdup]
  dsimp only
  rw [dif_pos hfits.frames, if_pos hfits.edges]
  split
  · next e he =>
    cases hnew.symm.trans he
  · exact ⟨_, rfl⟩

/-- A builder without a layout reports neither a cycle nor a frame. -/
theorem TreeBuilder.layout_error {e : BuildError} (h : b.layout hash = .error e) :
    (∃ child, e = .duplicateEdge child) ∨ e = .tooManyFrames ∨ e = .tooManyEdges ∨
      ∃ e', e = .layout e' := by
  unfold TreeBuilder.layout at h
  cases hdup : duplicateChild [] b.edges with
  | some child =>
    rw [hdup] at h
    exact .inl ⟨_, (Except.error.inj h).symm⟩
  | none =>
    rw [hdup] at h
    dsimp only at h
    split_ifs at h
    · split at h
      · next e' he' => exact .inr (.inr (.inr ⟨e', (Except.error.inj h).symm⟩))
      · cases h
    · exact .inr (.inr (.inl (Except.error.inj h).symm))
    · exact .inr (.inl (Except.error.inj h).symm)

end Declarations

/-! ## The names -/

/-- Two names of one hash have different records, and no name has the hash that marks an
    empty slot. -/
structure Apart (hash : List UInt8 → ℕ) (names : List String) : Prop where
  ne_zero : ∀ n ∈ names, hash (Bridge.asBytes n) ≠ 0
  record : ∀ n ∈ names, ∀ n' ∈ names, hash (Bridge.asBytes n) = hash (Bridge.asBytes n') →
    FrameRecord.stored (Bridge.asBytes n) = FrameRecord.stored (Bridge.asBytes n') → n = n'

/-- The hashes of the names. -/
def hashesOf (hash : List UInt8 → ℕ) (names : List String) : List ℕ :=
  names.map fun n => hash (Bridge.asBytes n)

/-- The id of a name, by its place. -/
def idOf (names : List String) (name : String) : FrameId := (names.idxOf name).succPNat

theorem coe_idOf (names : List String) (name : String) :
    (idOf names name : ℕ) = names.idxOf name + 1 := rfl

theorem idOf_inj {names : List String} {n n' : String} (hn : n ∈ names)
    (h : (idOf names n : ℕ) = idOf names n') : n = n' := by
  rw [coe_idOf, coe_idOf] at h
  exact (List.idxOf_inj hn).mp (by omega)

section Names

variable {a : Arena F} {names done rest : List String} {n : String} {fuel : ℕ}

/-- The frame table of the arena holds the names. -/
abbrev Arena.Holds (a : Arena F) (names : List String) : Prop :=
  a.frames.Filled a.table (names.map Bridge.asBytes)

theorem Arena.intern_ok {m : InternMem} {k : ℕ}
    (h : (a.table.internCore 0 claimUnrecorded fuel (Bridge.asBytes n)).run
      (InternOp.exec a.table) a.frames = some (some (.ok (k + 1)), m)) :
    a.intern fuel n = some (.ok (k.succPNat, { a with frames := m })) := by
  unfold Arena.intern
  rw [h]
  dsimp only
  rw [show FrameId.new (k + 1) = some k.succPNat from dif_pos (Nat.succ_pos k)]

/-- A name of the table gets its id again. -/
theorem Arena.intern_known (h : a.Holds names) (hn : n ∈ names) :
    a.intern fuel n = some (.ok (idOf names n, a)) := by
  have hk : (names.map Bridge.asBytes)[names.idxOf n]? = some (Bridge.asBytes n) := by
    rw [List.getElem?_map, List.getElem?_idxOf hn]
    rfl
  exact Arena.intern_ok (h.run_known hk)

/-- **Step lemma.** A new name gets the next id, or shares its hash with one before it. -/
theorem Arena.intern_new (fuel : ℕ) (h : a.Holds done) (hroom : done.length < a.table.capacity)
    (hapart : Apart a.table.hash (done ++ [n])) (hn : n ∉ done) :
    (a.table.hash (Bridge.asBytes n) ∉ hashesOf a.table.hash done ∧ ∃ m,
      a.intern fuel n = some (.ok (done.length.succPNat, { a with frames := m })) ∧
      m.Filled a.table ((done ++ [n]).map Bridge.asBytes)) ∨
    (a.table.hash (Bridge.asBytes n) ∈ hashesOf a.table.hash done ∧
      a.intern fuel n =
        some (.error (.frame (.frameHashCollision (a.table.hash (Bridge.asBytes n)))))) := by
  by_cases hmem : a.table.hash (Bridge.asBytes n) ∈ hashesOf a.table.hash done
  · refine .inr ⟨hmem, ?_⟩
    obtain ⟨n', hn', hhash⟩ := List.mem_map.mp hmem
    obtain ⟨k, hk⟩ := List.mem_iff_getElem?.mp hn'
    have hdiffers : FrameRecord.stored (Bridge.asBytes n) ≠
        FrameRecord.stored (Bridge.asBytes n') := by
      intro hsame
      have heq := hapart.record n (by simp) n' (List.mem_append_left _ hn') hhash.symm hsame
      exact hn (heq ▸ hn')
    have hk' : (done.map Bridge.asBytes)[k]? = some (Bridge.asBytes n') := by
      rw [List.getElem?_map, hk]
      rfl
    unfold Arena.intern
    rw [h.run_collision hk' hhash.symm hdiffers]
  · refine .inl ⟨hmem, ?_⟩
    have hfresh : ∀ name' ∈ done.map Bridge.asBytes,
        a.table.hash name' ≠ a.table.hash (Bridge.asBytes n) := by
      intro name' hname' heq
      obtain ⟨n', hn', rfl⟩ := List.mem_map.mp hname'
      exact hmem (List.mem_map.mpr ⟨n', hn', heq⟩)
    obtain ⟨m, hrun, hfilled⟩ := h.run_new 0 claimUnrecorded fuel
      (by rwa [List.length_map]) (hapart.ne_zero n (by simp)) hfresh
    rw [List.length_map] at hrun
    refine ⟨m, Arena.intern_ok hrun, ?_⟩
    rw [List.map_append]
    exact hfilled

/-- **Run lemma.** The names get their places as ids, unless two of them have one hash. -/
theorem Arena.internAll_run (fuel : ℕ) (rest : List String) (h : a.Holds done)
    (hnodup : (done ++ rest).Nodup) (hroom : (done ++ rest).length ≤ a.table.capacity)
    (hapart : Apart a.table.hash (done ++ rest))
    (hdone : (hashesOf a.table.hash done).Nodup) :
    ((hashesOf a.table.hash (done ++ rest)).Nodup ∧ ∃ m,
      Arena.internAll fuel rest a = some (.ok { a with frames := m }) ∧
      m.Filled a.table ((done ++ rest).map Bridge.asBytes)) ∨
    (¬ (hashesOf a.table.hash (done ++ rest)).Nodup ∧ ∃ hash,
      Arena.internAll fuel rest a = some (.error (.frame (.frameHashCollision hash)))) := by
  induction rest generalizing a done with
  | nil =>
    rw [List.append_nil]
    exact .inl ⟨hdone, a.frames, rfl, h⟩
  | cons n rest ih =>
    have hsplit : done ++ n :: rest = done ++ [n] ++ rest := by simp
    rw [hsplit] at hnodup hroom hapart ⊢
    have hn : n ∉ done := fun hmem => by
      obtain ⟨hpre, -, -⟩ := List.nodup_append.mp hnodup
      exact (List.nodup_append.mp hpre).2.2 n hmem n (by simp) rfl
    have hpre : Apart a.table.hash (done ++ [n]) :=
      ⟨fun k hk => hapart.ne_zero k (List.mem_append_left _ hk), fun k hk k' hk' =>
        hapart.record k (List.mem_append_left _ hk) k' (List.mem_append_left _ hk')⟩
    have hlt : done.length < a.table.capacity := by
      simp only [List.length_append, List.length_singleton] at hroom
      omega
    rcases Arena.intern_new fuel h hlt hpre hn with ⟨hout, m, hrun, hfilled⟩ | ⟨hin, hrun⟩
    · have hnext : (hashesOf a.table.hash (done ++ [n])).Nodup := by
        rw [hashesOf, List.map_append]
        refine List.nodup_append.mpr ⟨hdone, List.nodup_singleton _, fun x hx y hy hxy => ?_⟩
        obtain rfl := List.mem_singleton.mp hy
        subst hxy
        exact hout hx
      have hstep : Arena.internAll fuel (n :: rest) a =
          Arena.internAll fuel rest { a with frames := m } := by
        rw [Arena.internAll, hrun]
        rfl
      rw [hstep]
      exact ih (a := { a with frames := m }) hfilled hnodup hroom hapart hnext
    · refine .inr ⟨fun hall => ?_, a.table.hash (Bridge.asBytes n), ?_⟩
      · rw [hashesOf, List.map_append, List.map_append] at hall
        obtain ⟨hall, -, -⟩ := List.nodup_append.mp hall
        exact (List.nodup_append.mp hall).2.2 _ hin _ (by simp) rfl
      · rw [Arena.internAll, hrun]
        rfl

end Names

/-! ## The edges -/

namespace Topology

variable {n : ℕ} {t : Topology n}

/-- What a mutation of a topology does. -/
theorem setParent_outcome (t : Topology n) (child : FrameId) (parent edge : ℕ) :
    ∃ res t', t.setParent child parent edge = some (res, t') ∧
      SetParentOutcome n t.mem child parent edge res t'.mem := by
  obtain ⟨res, m, hrun, hout⟩ := setParent_run t.forest child parent edge
  unfold Topology.setParent
  split
  · next hnone => cases hrun.symm.trans hnone
  · next res' m' hsome =>
    obtain ⟨rfl, rfl⟩ := Prod.mk.inj (Option.some_inj.mp (hrun.symm.trans hsome))
    exact ⟨_, _, rfl, hout⟩

end Topology

/-- A published link leads back exactly if it does among the links it stands for. -/
theorem Block.Forest.closes_iff {N q : ℕ} {c : FrameId} {blk : Block} {p : ℕ → ℕ}
    (h : blk.Forest N) (hq : q < N) (hp : ∀ f < N, blk.parent f = p f) :
    blk.Closes c q ↔ ∃ n, p^[n] q = c := by
  have hiter : ∀ n, p^[n] q = blk.parent^[n] q := fun n =>
    (iterate_congr (s := Set.Iio N) (fun f hf => h.lt f hf) (fun f hf => (hp f hf).symm) hq n).1
  unfold Block.Closes
  simp only [hiter]

namespace TreeBuilder

variable {b : TreeBuilder F} {l : SizedLayout} {done rest : List (EdgeDecl F)} {e : EdgeDecl F}
  {a : Arena F} {fuel : ℕ}

/-- The id of a declared name. -/
def idOf (b : TreeBuilder F) (name : String) : FrameId := TfTree.idOf b.names name

/-- The link of an edge. -/
def link (b : TreeBuilder F) (e : EdgeDecl F) : ℕ × ℕ := (b.idOf e.child, b.idOf e.parent)

/-- The links of the edges to their own ids. -/
def edgeLinks (b : TreeBuilder F) (done : List (EdgeDecl F)) : List (ℕ × ℕ) :=
  done.mapIdx fun i e => ((b.idOf e.child : ℕ), i + 1)

/-- The slots that the rings of the edges take. -/
def slotsOf (done : List (EdgeDecl F)) : ℕ := (done.map EdgeDecl.capacity).sum

/-- The arena after some edges: the names have their ids, the edges their records, and the
    topology their links. -/
structure Wired [Scalar F] (b : TreeBuilder F) (l : SizedLayout) (done : List (EdgeDecl F))
    (a : Arena F) : Prop where
  header : a.header = writeHeader l.toArenaLayout
  size : a.table.maxFrames = l.maxFrames
  names : a.Holds b.names
  rings : a.rings = emptyArena
  parent : ∀ f < l.maxFrames, a.topology.mem.block.parent f = linked 0 (done.map b.link) f
  edge : ∀ f < l.maxFrames, a.topology.mem.block.edgeOfChild f = linked 0 (b.edgeLinks done) f
  record : ∀ (i : ℕ) (e : EdgeDecl F), done[i]? = some e → a.edges (i + 1) =
    b.record e.kind (b.idOf e.parent) (b.idOf e.child) (slotsOf (done.take i))
  spare : ∀ id, id = 0 ∨ done.length < id → (a.edges id).capacity = 0

/-- The ends of the edge are names. -/
theorem ends_mem (he : e ∈ b.edges) : e.parent ∈ b.names ∧ e.child ∈ b.names :=
  ⟨mem_names.mpr (.inr ⟨e, he, .inl rfl⟩), mem_names.mpr (.inr ⟨e, he, .inr rfl⟩)⟩

variable [Scalar F]

/-- The ids of the names are frames of the arena. -/
theorem Wired.id_lt (h : b.Wired l done a) {name : String} (hname : name ∈ b.names) :
    (b.idOf name : ℕ) < l.maxFrames := by
  have hfits := h.names.fits
  have hidx := List.idxOf_lt_length_of_mem hname
  rw [List.length_map, InternTable.capacity, h.size] at hfits
  show b.names.idxOf name + 1 < l.maxFrames
  omega

/-- What the loop does with an edge whose ids and whose record have a place. -/
theorem Wired.declareEdges_cons (h : b.Wired l done a) (he : e ∈ b.edges)
    (hid : done.length + 1 < l.maxEdges) (rest : List (EdgeDecl F)) (off : ℕ) :
    b.declareEdges fuel done.length off (e :: rest) a =
      (({ a with
          edges := upd a.edges (done.length + 1)
            (b.record e.kind (b.idOf e.parent) (b.idOf e.child) off) } : Arena F).setParent
        (b.idOf e.child) (b.idOf e.parent) (done.length + 1) >>= fun a' =>
          b.declareEdges fuel (done.length + 1) (off + e.capacity) rest a') := by
  obtain ⟨hparent, hchild⟩ := ends_mem he
  have hslot : ArenaView.edgeSlotOff a.header (done.length + 1) a.header.edgeTableOff 128 =
      some (a.header.edgeTableOff + (done.length + 1) * 128) := by
    rw [h.header]
    exact if_neg (not_le.mpr hid)
  rw [declareEdges, Arena.intern_known h.names hparent]
  show (do
    let (child, a) ← a.intern fuel e.child
    let a ← a.declareEdge (done.length + 1) (b.record e.kind (b.idOf e.parent) child off)
    let a ← a.setParent child (b.idOf e.parent) (done.length + 1)
    b.declareEdges fuel (done.length + 1) (off + e.capacity) rest a) = _
  rw [Arena.intern_known h.names hchild]
  show (do
    let a ← a.declareEdge (done.length + 1)
      (b.record e.kind (b.idOf e.parent) (b.idOf e.child) off)
    let a ← a.setParent (b.idOf e.child) (b.idOf e.parent) (done.length + 1)
    b.declareEdges fuel (done.length + 1) (off + e.capacity) rest a) = _
  rw [Arena.declareEdge, hslot]
  rfl

omit [Scalar F] in
/-- The links of one more edge. -/
theorem edgeLinks_concat : b.edgeLinks (done ++ [e]) =
    b.edgeLinks done ++ [((b.idOf e.child : ℕ), done.length + 1)] := List.mapIdx_concat

omit [Scalar F] in
theorem slotsOf_concat : slotsOf (done ++ [e]) = slotsOf done + e.capacity := by
  simp [slotsOf]

/-- **Step lemma.** The next edge leads back to its own child, or it is wired. -/
theorem Wired.step (fuel : ℕ) (h : b.Wired l done a) (he : e ∈ b.edges)
    (hid : done.length + 1 < l.maxEdges) (rest : List (EdgeDecl F)) :
    (LinkCloses 0 (done.map b.link) (b.link e) ∧
      b.declareEdges fuel done.length (slotsOf done) (e :: rest) a =
        some (.error (.topology (.wouldCreateCycle (b.idOf e.child))))) ∨
    (¬ LinkCloses 0 (done.map b.link) (b.link e) ∧ ∃ a', b.Wired l (done ++ [e]) a' ∧
      b.declareEdges fuel done.length (slotsOf done) (e :: rest) a =
        b.declareEdges fuel (done ++ [e]).length (slotsOf (done ++ [e])) rest a') := by
  obtain ⟨hparent, hchild⟩ := ends_mem he
  have hp := h.id_lt hparent
  have hc := h.id_lt hchild
  rw [h.declareEdges_cons he hid]
  generalize hrec : b.record e.kind (b.idOf e.parent) (b.idOf e.child) (slotsOf done) = rec
  obtain ⟨res, t', hset, hout⟩ := a.topology.setParent_outcome (b.idOf e.child) (b.idOf e.parent)
    (done.length + 1)
  have hcloses := a.topology.forest.closes_iff (c := b.idOf e.child)
    (by rw [h.size]; exact hp) (fun f hf => h.parent f (by rwa [← h.size]))
  unfold Arena.setParent
  dsimp only
  rw [hset]
  match res, hout with
  | .error (.unknownFrame f), ⟨_, hf, hends⟩ =>
    rw [h.size] at hf
    rcases hends with rfl | rfl
    · omega
    · omega
  | .error (.wouldCreateCycle c), ⟨_, hc', hclose⟩ =>
    subst hc'
    exact .inl ⟨hcloses.mp hclose, rfl⟩
  | .ok (), ⟨_, _, hopen, _, _, _, hattached, _⟩ =>
    refine .inr ⟨fun hclose => hopen (hcloses.mpr hclose),
      { a with edges := upd a.edges (done.length + 1) rec, topology := t' }, ?_, ?_⟩
    · refine ⟨h.header, h.size, h.names, h.rings, fun f hf => ?_, fun f hf => ?_, ?_,
        fun id hid => ?_⟩
      · show t'.mem.block.parent f = _
        rw [hattached.parent f (by rw [h.size]; exact hf), List.map_append, List.map_singleton,
          linked_concat, upd_eq_update, Function.update_apply, Function.update_apply, h.parent f hf]
        rfl
      · show t'.mem.block.edgeOfChild f = _
        rw [hattached.edge f (by rw [h.size]; exact hf), edgeLinks_concat,
          linked_concat, upd_eq_update, Function.update_apply, Function.update_apply, h.edge f hf]
      · intro i e' hi
        show upd a.edges (done.length + 1) rec (i + 1) = _
        rcases Nat.lt_or_ge i done.length with hlt | hge
        · rw [List.getElem?_append_left hlt] at hi
          have hne : i + 1 ≠ done.length + 1 := by omega
          rw [upd_of_ne _ _ hne, h.record i e' hi, List.take_append_of_le_length hlt.le]
        · obtain ⟨rfl, rfl⟩ := InternMem.getElem?_concat_ge hge hi
          rw [upd_self, ← hrec, List.take_left]
      · rw [List.length_append, List.length_singleton] at hid
        have hne : id ≠ done.length + 1 := by omega
        show (upd a.edges (done.length + 1) rec id).capacity = 0
        rw [upd_of_ne _ _ hne]
        exact h.spare id (by omega)
    · rw [List.length_append, slotsOf_concat]
      rfl

/-- **Run lemma.** The loop stops at the first edge that leads back to its own child, or it
    wires them all. -/
theorem Wired.run (fuel : ℕ) (h : b.Wired l done a) (hrest : ∀ e ∈ rest, e ∈ b.edges)
    (hid : done.length + rest.length < l.maxEdges) :
    (∃ d e r, rest = d ++ e :: r ∧ LinkCloses 0 ((done ++ d).map b.link) (b.link e) ∧
      b.declareEdges fuel done.length (slotsOf done) rest a =
        some (.error (.topology (.wouldCreateCycle (b.idOf e.child))))) ∨
    ((∀ d e r, rest = d ++ e :: r → ¬ LinkCloses 0 ((done ++ d).map b.link) (b.link e)) ∧
      ∃ a', b.Wired l (done ++ rest) a' ∧
        b.declareEdges fuel done.length (slotsOf done) rest a = some (.ok a')) := by
  induction rest generalizing done a with
  | nil =>
    rw [List.append_nil]
    refine .inr ⟨fun d e r he => ?_, a, h, rfl⟩
    simp at he
  | cons e rest ih =>
    rw [List.length_cons] at hid
    obtain ⟨hmem, hrest⟩ := List.forall_mem_cons.mp hrest
    rcases h.step fuel hmem (by omega) rest with ⟨hclose, herr⟩ | ⟨hopen, a', hwired, hrun⟩
    · exact .inl ⟨[], e, rest, rfl, by rwa [List.append_nil], herr⟩
    · rw [hrun]
      have hid' : (done ++ [e]).length + rest.length < l.maxEdges := by
        rw [List.length_append, List.length_singleton]
        omega
      have hassoc : ∀ d, done ++ [e] ++ d = done ++ e :: d := by simp
      rcases ih hwired hrest hid' with ⟨d, e', r, rfl, hclose, herr⟩ | ⟨hopens, a'', hwired', hok⟩
      · exact .inl ⟨e :: d, e', r, rfl, by rwa [← hassoc], herr⟩
      · refine .inr ⟨fun d e' r he => ?_, a'', by rwa [← hassoc], hok⟩
        cases d with
        | nil =>
          obtain ⟨rfl, -⟩ := List.cons_eq_cons.mp he
          rw [List.append_nil]
          exact hopen
        | cons e'' d =>
          obtain ⟨rfl, htail⟩ := List.cons_eq_cons.mp he
          rw [← hassoc]
          exact hopens d e' r htail

/-! ## The whole build -/

omit [Scalar F] in
/-- The declared relation: `child` has the parent `parent`. -/
def Declares (b : TreeBuilder F) (child parent : String) : Prop :=
  ∃ e ∈ b.edges, e.child = child ∧ e.parent = parent

/-- The declared relation has a cycle. -/
def Cyclic (b : TreeBuilder F) : Prop := ∃ name, Relation.TransGen b.Declares name name

omit [Scalar F]

theorem idOf_injOn (b : TreeBuilder F) :
    Set.InjOn (fun name => (b.idOf name : ℕ)) {name | name ∈ b.names} :=
  fun _ hn _ _ h => idOf_inj hn h

/-- A cycle of the declared relation is one of the links. -/
theorem cyclic_iff (b : TreeBuilder F) : b.Cyclic ↔
    ∃ c, Relation.TransGen (fun x y => (x, y) ∈ b.edges.map b.link) c c := by
  have hlinks : b.edges.map b.link = (b.edges.map fun e => (e.child, e.parent)).map
      (Prod.map (fun name => (b.idOf name : ℕ)) fun name => (b.idOf name : ℕ)) := by
    rw [List.map_map]
    rfl
  have hends : ∀ l ∈ b.edges.map fun e => (e.child, e.parent), l.1 ∈ {name | name ∈ b.names} ∧
      l.2 ∈ {name | name ∈ b.names} := by
    intro l hl
    obtain ⟨e, he, rfl⟩ := List.mem_map.mp hl
    exact ⟨(ends_mem he).2, (ends_mem he).1⟩
  have hrel : b.Declares = fun x y => (x, y) ∈ b.edges.map fun e => (e.child, e.parent) := by
    funext x y
    simp [Declares]
  rw [hlinks, exists_cycle_renamed_iff b.idOf_injOn hends, Cyclic, hrel]

/-- Edges of different children have links of different ids. -/
theorem nodup_links (hchildren : (b.edges.map EdgeDecl.child).Nodup) :
    ((b.edges.map b.link).map Prod.fst).Nodup := by
  have hids : (b.edges.map EdgeDecl.child).map (fun name => (b.idOf name : ℕ)) =
      (b.edges.map b.link).map Prod.fst := by
    rw [List.map_map, List.map_map]
    rfl
  rw [← hids]
  refine hchildren.map_on fun n hn n' _ heq => ?_
  obtain ⟨e, he, rfl⟩ := List.mem_map.mp hn
  exact idOf_inj (ends_mem he).2 heq

/-- Some edge leads back to its own child when it is wired exactly if the declared relation
    has a cycle. -/
theorem exists_closing_iff (hchildren : (b.edges.map EdgeDecl.child).Nodup) :
    (∃ d e r, b.edges = d ++ e :: r ∧ LinkCloses 0 (d.map b.link) (b.link e)) ↔ b.Cyclic := by
  have hroot : ∀ l ∈ b.edges.map b.link, l.1 ≠ 0 := by
    intro l hl
    obtain ⟨e, -, rfl⟩ := List.mem_map.mp hl
    exact PNat.ne_zero _
  rw [cyclic_iff, ← exists_closes_iff hroot (nodup_links hchildren)]
  constructor
  · rintro ⟨d, e, r, he, hclose⟩
    exact ⟨d.map b.link, b.link e, r.map b.link, by simp [he], hclose⟩
  · rintro ⟨d, l, r, he, hclose⟩
    obtain ⟨d', r', hsplit, rfl, hr⟩ := List.map_eq_append_iff.mp he
    obtain ⟨e, r'', rfl, rfl, -⟩ := List.map_eq_cons_iff.mp hr
    exact ⟨d', e, r'', hsplit, hclose⟩

variable [Scalar F] {hash : List UInt8 → ℕ} {uuid : Vector UInt8 16}

/-- The arena before the edges. -/
theorem wired_nil {m : InternMem} (b : TreeBuilder F) (l : SizedLayout)
    (hm : m.Filled (Arena.fresh (F := F) l hash uuid).table (b.names.map Bridge.asBytes)) :
    b.Wired l [] { Arena.fresh l hash uuid with frames := m } where
  header := rfl
  size := rfl
  names := hm
  rings := rfl
  parent := fun f _ => by
    show (Topology.init l.maxFrames).mem.block.parent f = 0
    rw [show (Topology.init l.maxFrames).mem.block = Block.empty from TopoRun.init_block _]
    rfl
  edge := fun f _ => by
    show (Topology.init l.maxFrames).mem.block.edgeOfChild f = 0
    rw [show (Topology.init l.maxFrames).mem.block = Block.empty from TopoRun.init_block _]
    rfl
  record := nofun
  spare := fun _ _ => rfl

/-- **Main lemma.** What a builder that has a layout does. -/
theorem buildWith_spec {l : SizedLayout} (hl : b.layout hash = .ok l)
    (hapart : Apart hash b.names) (uuid : Vector UInt8 16) (fuel : ℕ) :
    (¬ (hashesOf hash b.names).Nodup ∧ ∃ h,
      b.buildWith hash uuid fuel = some (.error (.frame (.frameHashCollision h)))) ∨
    ((hashesOf hash b.names).Nodup ∧ b.Cyclic ∧ ∃ child,
      b.buildWith hash uuid fuel = some (.error (.topology (.wouldCreateCycle child)))) ∨
    ((hashesOf hash b.names).Nodup ∧ ¬ b.Cyclic ∧ ∃ a, b.Wired l b.edges a ∧
      b.buildWith hash uuid fuel = some (.ok a)) := by
  obtain ⟨hfits, hlayout⟩ := b.layout_ok hl
  have hframes : l.maxFrames = b.names.length + 1 + b.frameHeadroom := by
    rw [hlayout]
    rfl
  have hedges : l.maxEdges = b.edges.length + 1 + b.edgeHeadroom := by
    rw [hlayout]
    rfl
  have hroom : b.names.length ≤ (Arena.fresh (F := F) l hash uuid).table.capacity := by
    show b.names.length ≤ l.maxFrames - 1
    omega
  have hcount : ([] : List (EdgeDecl F)).length + b.edges.length < l.maxEdges := by
    rw [List.length_nil]
    omega
  have hbuild : b.buildWith hash uuid fuel =
      (Arena.internAll fuel b.names (.fresh l hash uuid) >>= fun a =>
        b.declareEdges fuel 0 0 b.edges a) := by
    rw [buildWith, hl]
  rw [hbuild]
  have hempty : (Arena.fresh (F := F) l hash uuid).Holds [] := InternMem.filled_init _
  rcases Arena.internAll_run fuel b.names hempty b.names_nodup hroom hapart List.nodup_nil with
    ⟨hnodup, m, hrun, hfilled⟩ | ⟨hdup, h, hrun⟩
  · refine .inr ?_
    rw [hrun]
    rcases (b.wired_nil l hfilled).run fuel (fun _ he => he) hcount with
      ⟨d, e, r, he, hclose, herr⟩ | ⟨hopen, a, ha, hok⟩
    · refine .inl ⟨hnodup, (exists_closing_iff hfits.children).mp ⟨d, e, r, he, hclose⟩, ?_⟩
      exact ⟨b.idOf e.child, herr⟩
    · refine .inr ⟨hnodup, fun hcyclic => ?_, a, ha, hok⟩
      obtain ⟨d, e, r, he, hclose⟩ := (exists_closing_iff hfits.children).mpr hcyclic
      exact hopen d e r he hclose
  · refine .inl ⟨hdup, h, ?_⟩
    rw [hrun]
    rfl

end TreeBuilder

/-! ## The rings of a build -/

section Rings

variable {a a' : Arena F} {fuel : ℕ}

theorem Build.bind_ok {α β : Type} {x : Build α} {f : α → Build β} {v : β}
    (h : (x >>= f) = some (.ok v)) : ∃ u, x = some (.ok u) ∧ f u = some (.ok v) := by
  match x, h with
  | some (.ok u), h => exact ⟨u, rfl, h⟩

theorem Arena.intern_rings {n : String} {f : FrameId} (h : a.intern fuel n = some (.ok (f, a'))) :
    a'.rings = a.rings := by
  unfold Arena.intern at h
  split at h
  · split at h
    · cases h
      rfl
    · cases h
  · cases h
  · cases h

theorem Arena.internAll_rings {names : List String}
    (h : Arena.internAll fuel names a = some (.ok a')) : a'.rings = a.rings := by
  induction names generalizing a with
  | nil =>
    cases h
    rfl
  | cons n names ih =>
    obtain ⟨⟨f, a₁⟩, hn, h⟩ := Build.bind_ok h
    exact (ih h).trans (Arena.intern_rings hn)

theorem Arena.declareEdge_rings {id : EdgeId} {record : EdgeSlot F}
    (h : a.declareEdge id record = some (.ok a')) : a'.rings = a.rings := by
  unfold Arena.declareEdge at h
  split at h
  · cases h
  · cases h
    rfl

theorem Arena.setParent_rings {child : FrameId} {parent edge : ℕ}
    (h : a.setParent child parent edge = some (.ok a')) : a'.rings = a.rings := by
  unfold Arena.setParent at h
  split at h
  · cases h
  · cases h
  · cases h
    rfl

variable [Scalar F]

theorem TreeBuilder.declareEdges_rings {b : TreeBuilder F} {i off : ℕ} {es : List (EdgeDecl F)}
    (h : b.declareEdges fuel i off es a = some (.ok a')) : a'.rings = a.rings := by
  induction es generalizing i off a with
  | nil =>
    cases h
    rfl
  | cons e es ih =>
    obtain ⟨⟨parent, a₁⟩, hparent, h⟩ := Build.bind_ok h
    obtain ⟨⟨child, a₂⟩, hchild, h⟩ := Build.bind_ok h
    obtain ⟨a₃, hdeclare, h⟩ := Build.bind_ok h
    obtain ⟨a₄, hset, h⟩ := Build.bind_ok h
    rw [ih h, Arena.setParent_rings hset, Arena.declareEdge_rings hdeclare,
      Arena.intern_rings hchild, Arena.intern_rings hparent]

/-- Whatever names it merges, a build leaves the rings empty. -/
theorem TreeBuilder.rings_of_build {b : TreeBuilder F} {hash : List UInt8 → ℕ}
    {uuid : Vector UInt8 16} (h : b.buildWith hash uuid fuel = some (.ok a)) :
    a.rings = emptyArena := by
  unfold TreeBuilder.buildWith at h
  split at h
  · cases h
  · obtain ⟨a₁, hnames, h⟩ := Build.bind_ok h
    exact (TreeBuilder.declareEdges_rings h).trans (Arena.internAll_rings hnames)

end Rings

end TfTree
