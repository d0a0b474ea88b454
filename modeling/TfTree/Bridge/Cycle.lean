import Mathlib
import TfTree.Bridge.RoundTrip
import TfTree.Tree.Build

/-!
# Cycles of a topology file

`TopologyConfig::cycle_child` and `TopologyConfig::builder` (`config.rs`,
`tf_tree_bridge`): the search for a cycle by name, and the declaration that `build_with`
wires edge by edge.

Results:
* `TopologyConfig.cycleChild_spec`: the search ends, and finds a cycle exactly if there is
  one.
* `cycleChild_builder`: which of the configs it finds a cycle in the builder refuses for it.
-/

namespace TfTree.Bridge

variable {F : Type}

/-! ## Model of `config.rs` and of the sizes of `tree.rs` -/

/-- The further operation of `f64` that a declared rate takes. -/
class Rounding (F : Type) extends Floats F where
  /-- `f64::round`: half away from zero. -/
  round : F → F

/-- `Capacity::history` (`tree.rs`, lines 146–158), as `f64` computes it. -/
def floatHistory [Floats F] (rateHz secs : F) : Capacity :=
  let needed := Floats.ceil (rateHz * secs)
  let clamped :=
    if Floats.isFinite needed && Floats.le 1 needed then
      if Floats.lt (Floats.ofInt (2 ^ 32 - 1)) needed then 2 ^ 32 - 1
      else (Floats.toI64 needed).toNat
    else 1
  ⟨nextPow2U32 clamped⟩

/-- `RingSize::capacity` (lines 72–77), as `f64` computes it. -/
def RingSize.floatCapacity [Floats F] : RingSize F → Capacity
  | .slots n => .slots n
  | .history rateHz secs => floatHistory rateHz secs

/-- `EdgeCfg::nominal_rate_hz` (`tree.rs`, lines 209–220): the rate in millihertz. -/
def nominalRateMhz [Rounding F] (rateHz : F) : ℕ :=
  let mhz := rateHz * Floats.ofInt 1000
  if Floats.isFinite mhz && Floats.le 1 mhz && Floats.le mhz (Floats.ofInt (2 ^ 32 - 1)) then
    (Floats.toI64 (Rounding.round mhz)).toNat
  else 0

theorem RingSize.powerOfTwo [Floats F] (ring : RingSize F) :
    ArenaView.isPowerOfTwo ring.floatCapacity.get = true := by
  cases ring with
  | slots n => exact isPowerOfTwo_nextPow2U32 n
  | history rateHz secs => exact isPowerOfTwo_nextPow2U32 _

/-- The declaration of an edge (lines 240–254). -/
def EdgeConfig.decl [Rounding F] (e : EdgeConfig F) : EdgeDecl F where
  parent := e.parent
  child := e.child
  kind := match e.shape with
    | .static pose => .static (isoOf pose)
    | .dynamic ring => .dynamic {
        capacity := ring.floatCapacity
        powerOfTwo := ring.powerOfTwo
        interp := e.interp
        domain := e.domain
        nominalRateMhz := match ring with
          | .slots _ => 0
          | .history rateHz _ => TfTree.Bridge.nominalRateMhz rateHz }

namespace TopologyConfig

/-- `TopologyConfig::builder` (lines 232–258). -/
def builder [Rounding F] (c : TopologyConfig F) : TreeBuilder F where
  defaultInterp := c.defaultInterp
  defaultDomain := c.defaultDomain
  frames := c.frames
  edges := c.edges.map EdgeConfig.decl
  frameHeadroom := c.frameHeadroom

/-- `parent_of` of `cycle_child`: the last edge of a child counts. -/
def parentOf (c : TopologyConfig F) : String → Option String :=
  c.edges.foldl (fun m e => Function.update m e.child (some e.parent)) fun _ => none

/-- `TopologyConfig::cycle_child` (lines 185–206), with `fuel` turns for each walk; `none`
    when a walk takes more. -/
def cycleChild (c : TopologyConfig F) (fuel : ℕ) : Option (Option String) :=
  searchRepeat c.parentOf fuel (c.edges.map EdgeConfig.child)

/-- The declared relation. -/
def Declares (c : TopologyConfig F) (child parent : String) : Prop :=
  ∃ e ∈ c.edges, e.child = child ∧ e.parent = parent

/-- The name lies on a cycle of the declared relation. -/
def OnCycle (c : TopologyConfig F) (name : String) : Prop := Relation.TransGen c.Declares name name

/-! ## The search -/

variable {c : TopologyConfig F} {x p name : String} {fuel : ℕ}

theorem parentOf_foldl {es : List (EdgeConfig F)} (h : (es.map EdgeConfig.child).Nodup) :
    es.foldl (fun (m : String → Option String) e => Function.update m e.child (some e.parent))
        (fun _ => none) x = some p ↔
      ∃ e ∈ es, e.child = x ∧ e.parent = p := by
  induction es using List.reverseRecOn with
  | nil => simp
  | append_singleton es e ih =>
    rw [List.map_append, List.nodup_append] at h
    obtain ⟨hes, -, hfresh⟩ := h
    have hother : ∀ e' ∈ es, e'.child ≠ e.child := fun e' he' =>
      hfresh _ (List.mem_map_of_mem he') _ (by simp)
    rw [List.foldl_concat]
    by_cases hx : x = e.child
    · subst hx
      rw [Function.update_self, Option.some_inj]
      constructor
      · rintro rfl
        exact ⟨e, by simp, rfl, rfl⟩
      · rintro ⟨e', he', hchild, rfl⟩
        rcases List.mem_append.mp he' with he' | he'
        · exact absurd hchild (hother e' he')
        · rw [List.mem_singleton.mp he']
    · rw [Function.update_of_ne hx, ih hes]
      constructor
      · rintro ⟨e', he', hends⟩
        exact ⟨e', List.mem_append_left _ he', hends⟩
      · rintro ⟨e', he', hchild, hparent⟩
        rcases List.mem_append.mp he' with he' | he'
        · exact ⟨e', he', hchild, hparent⟩
        · exact absurd (List.mem_singleton.mp he' ▸ hchild).symm hx

/-- A frame has the parent it is declared with. -/
theorem follows_parentOf (h : (c.edges.map EdgeConfig.child).Nodup) :
    Follows c.parentOf = c.Declares := by
  funext x p
  exact propext (parentOf_foldl h)

/-- The search of a config whose frames have one parent each ends, whatever the turns beyond
    one for each edge, and finds a name on a cycle exactly if there is one. -/
theorem cycleChild_spec (h : (c.edges.map EdgeConfig.child).Nodup) :
    ∃ r, (∀ fuel, c.edges.length < fuel → c.cycleChild fuel = some r) ∧
      (∀ name, r = some name → c.OnCycle name) ∧ (r = none → ∀ name, ¬ c.OnCycle name) := by
  have hlinks : ∀ x p, c.parentOf x = some p → x ∈ (c.edges.map EdgeConfig.child).toFinset := by
    intro x p hx
    obtain ⟨e, he, rfl, -⟩ := (parentOf_foldl h).mp hx
    exact List.mem_toFinset.mpr (List.mem_map_of_mem he)
  have hcard : (c.edges.map EdgeConfig.child).toFinset.card ≤ c.edges.length :=
    (List.toFinset_card_le _).trans_eq (List.length_map _)
  obtain ⟨r, hr, hsome, hnone⟩ := searchRepeat_spec hlinks
    (show _ < c.edges.length + 1 by omega) (c.edges.map EdgeConfig.child)
  have hcycle : ∀ name, TfTree.OnCycle c.parentOf name ↔ c.OnCycle name := by
    intro name
    rw [TfTree.OnCycle, follows_parentOf h]
    rfl
  refine ⟨r, fun fuel hfuel => searchRepeat_mono hr hfuel, fun name hname => ?_,
    fun hr' name hname => ?_⟩
  · exact (hcycle name).mp (hsome name hname)
  · obtain ⟨p, ⟨e, he, rfl, -⟩, -⟩ := Relation.TransGen.head'_iff.mp hname
    exact hnone hr' e.child (List.mem_map_of_mem he) ((hcycle _).mpr hname)

/-! ## The builder -/

section Builder

variable [Rounding F]

theorem builder_declares (c : TopologyConfig F) : c.builder.Declares = c.Declares := by
  funext x p
  simp [TreeBuilder.Declares, Declares, builder, EdgeConfig.decl]

theorem builder_cyclic_iff : c.builder.Cyclic ↔ ∃ name, c.OnCycle name := by
  rw [TreeBuilder.Cyclic, builder_declares]
  rfl

variable {hash : List UInt8 → ℕ} {uuid : Vector UInt8 16}

/-- The build of a config reports a cycle. -/
def CycleError (c : TopologyConfig F) (hash : List UInt8 → ℕ) (uuid : Vector UInt8 16)
    (fuel : ℕ) : Prop :=
  ∃ child, c.builder.buildWith hash uuid fuel = some (.error (.topology (.wouldCreateCycle child)))

/-- The build reports a cycle exactly of a cyclic config whose names and whose layout fit. -/
theorem cycleError_iff (hapart : Apart hash c.builder.names) :
    c.CycleError hash uuid fuel ↔
      (∃ name, c.OnCycle name) ∧ c.builder.Fits ∧ (hashesOf hash c.builder.names).Nodup := by
  rw [← builder_cyclic_iff]
  cases hl : c.builder.layout hash with
  | error e =>
    have hbuild : c.builder.buildWith hash uuid fuel = some (.error e) := by
      rw [TreeBuilder.buildWith, hl]
    constructor
    · rintro ⟨child, herr⟩
      obtain rfl := Except.error.inj (Option.some_inj.mp (hbuild.symm.trans herr))
      rcases TreeBuilder.layout_error hl with ⟨_, he⟩ | he | he | ⟨_, he⟩
      · cases he
      · cases he
      · cases he
      · cases he
    · rintro ⟨-, hfits, -⟩
      obtain ⟨l, hl'⟩ := TreeBuilder.layout_ok_iff.mpr hfits
      cases hl.symm.trans hl'
  | ok l =>
    have hfits := (TreeBuilder.layout_ok hl).1
    rcases TreeBuilder.buildWith_spec hl hapart uuid fuel with
      ⟨hdup, h, hbuild⟩ | ⟨hnodup, hcyclic, hbuild⟩ | ⟨-, hacyclic, a, -, hbuild⟩
    · constructor
      · rintro ⟨child, herr⟩
        cases hbuild.symm.trans herr
      · rintro ⟨-, -, hnodup⟩
        exact absurd hnodup hdup
    · exact ⟨fun _ => ⟨hcyclic, hfits, hnodup⟩, fun _ => hbuild⟩
    · constructor
      · rintro ⟨child, herr⟩
        cases hbuild.symm.trans herr
      · rintro ⟨hcyclic, -⟩
        exact absurd hcyclic hacyclic

/-- A cyclic config is never built. -/
theorem not_built_of_cyclic (hapart : Apart hash c.builder.names) (hcycle : ∃ name, c.OnCycle name)
    (a : Arena F) : c.builder.buildWith hash uuid fuel ≠ some (.ok a) := by
  intro hok
  cases hl : c.builder.layout hash with
  | error e =>
    rw [TreeBuilder.buildWith, hl] at hok
    cases hok
  | ok l =>
    rcases TreeBuilder.buildWith_spec hl hapart uuid fuel with
      ⟨-, h, hbuild⟩ | ⟨-, -, child, hbuild⟩ | ⟨-, hacyclic, -⟩
    · cases hbuild.symm.trans hok
    · cases hbuild.symm.trans hok
    · exact hacyclic (builder_cyclic_iff.mpr hcycle)

end Builder

end TopologyConfig

/-- **Main theorem.** The search of a parsed config ends, and returns a name on a cycle of
    the declared relation if there is one, and none otherwise. A config it finds a cycle in
    is never built; the build reports the cycle exactly if the counts and the layout of the
    declaration fit and no two of its names have one hash. -/
theorem cycleChild_builder [Rounding F] {text : String} {c : TopologyConfig F}
    (hparse : TopologyConfig.parse text = .ok c) :
    ∃ r, (∀ fuel, c.edges.length < fuel → c.cycleChild fuel = some r) ∧
      (∀ name, r = some name → c.OnCycle name) ∧ (r = none → ∀ name, ¬ c.OnCycle name) ∧
      ∀ (hash : List UInt8 → ℕ) (uuid : Vector UInt8 16) (fuel : ℕ),
        Apart hash c.builder.names →
        (c.CycleError hash uuid fuel ↔ r.isSome ∧ c.builder.Fits ∧
          (hashesOf hash c.builder.names).Nodup) ∧
        (r.isSome → ∀ a, c.builder.buildWith hash uuid fuel ≠ some (.ok a)) := by
  obtain ⟨r, hr, hsome, hnone⟩ := TopologyConfig.cycleChild_spec (parse_valid hparse).children
  refine ⟨r, hr, hsome, hnone, fun hash uuid fuel hapart => ?_⟩
  have hcycle : (∃ name, c.OnCycle name) ↔ r.isSome := by
    cases r with
    | none => simpa using hnone rfl
    | some name => simpa using ⟨name, hsome name rfl⟩
  rw [TopologyConfig.cycleError_iff hapart, hcycle]
  exact ⟨Iff.rfl, fun h => TopologyConfig.not_built_of_cyclic hapart (hcycle.mpr h)⟩

/-! ## Two frames in a ring -/

/-- `round` of hundredths. -/
instance : Rounding Hundredths where
  round a := ⟨(if a.n < 0 then -((50 - a.n) / 100) else (a.n + 50) / 100) * 100⟩

/-- Two frames, each the parent of the other, with some headroom. -/
def loopedFile (headroom : String) : String :=
  "[topology]\nframe_headroom = " ++ headroom ++ "\n\n" ++
  "[[edge]]\nparent = \"b\"\nchild = \"a\"\nkind = \"dynamic\"\ncapacity = 1\n\n" ++
  "[[edge]]\nparent = \"a\"\nchild = \"b\"\nkind = \"dynamic\"\ncapacity = 1\n"

/-- What the file declares. -/
def looped (headroom : ℕ) : TopologyConfig Hundredths where
  frameHeadroom := headroom
  edges := [⟨"b", "a", .dynamic (.slots 1), none, none⟩,
    ⟨"a", "b", .dynamic (.slots 1), none, none⟩]

theorem parse_ok [Floats F] {text : String} {c : TopologyConfig F}
    (h : (TopologyConfig.parse text : Parsed (TopologyConfig F)).toOption = some c) :
    TopologyConfig.parse text = .ok c := by
  cases hparse : (TopologyConfig.parse text : Parsed (TopologyConfig F)) with
  | error e =>
    rw [hparse] at h
    cases h
  | ok c' =>
    rw [hparse] at h
    exact congrArg _ (Option.some_inj.mp h)

theorem cycleChild_looped (headroom : ℕ) : (looped headroom).cycleChild 3 = some (some "a") := by
  show (looped 0).cycleChild 3 = _
  decide

theorem names_looped (headroom : ℕ) : (looped headroom).builder.names = ["b", "a"] := by
  show (looped 0).builder.names = _
  decide

/-- The parser reads what the file declares. -/
theorem parse_loopedFile :
    TopologyConfig.parse (loopedFile "0") = .ok (looped 0) ∧
      TopologyConfig.parse (loopedFile "4294967295") = .ok (looped 4294967295) := by
  -- the text as a list of characters: a string that is appended to is slow to read
  constructor
  all_goals
    refine parse_ok ?_
    unfold TopologyConfig.parse loopedFile
    simp only [String.toList_append, String.reduceToList]
    decide

/-- With as much headroom as a `u32` holds, the ring is refused for its count of frames. -/
theorem looped_tooManyFrames :
    TopologyConfig.parse (loopedFile "4294967295") = .ok (looped 4294967295) ∧
      (looped 4294967295).cycleChild 3 = some (some "a") ∧
      ∀ hash uuid fuel, (looped 4294967295).builder.buildWith hash uuid fuel =
        some (.error .tooManyFrames) := by
  refine ⟨parse_loopedFile.2, cycleChild_looped _, fun hash uuid fuel => ?_⟩
  have hlayout : (looped 4294967295).builder.layout hash = .error .tooManyFrames := by
    have hdup : duplicateChild [] (looped 4294967295).builder.edges = none := by decide
    unfold TreeBuilder.layout
    rw [hdup]
    refine dif_neg ?_
    rw [names_looped]
    decide
  rw [TreeBuilder.buildWith, hlayout]

/-- The first eight bytes of the digests of the two names. -/
def loopedHash (name : List UInt8) : ℕ :=
  if name = [97] then 0x53a469d9dd2f7617 else if name = [98] then 0x9f4f8a3c3dcfe510 else 1

theorem implied_looped : (looped 0).builder.implied = compute 3 3 defaultMaxParticipants 2 := by
  have hslots : (looped 0).builder.slots = 2 := by
    show nextPow2U32 1 + (nextPow2U32 1 + 0) = 2
    rw [nextPow2U32_one]
  rw [TreeBuilder.implied, names_looped, hslots]
  rfl

theorem fits_looped : (looped 0).builder.Fits where
  children := by
    show (["a", "b"] : List String).Nodup
    decide
  frames := by
    rw [names_looped]
    decide
  edges := by decide
  bytes := by
    rw [implied_looped, compute_totalSize]
    exact lt_of_le_of_lt (computeSizes_le 3 3 defaultMaxParticipants 2) (by decide)

/-- Without headroom the search names the frame `a`, and the build reports the cycle. -/
theorem cycleChild_builder_looped :
    (looped 0).cycleChild 3 = some (some "a") ∧ (looped 0).OnCycle "a" ∧
      (looped 0).CycleError loopedHash (Vector.replicate 16 0) 0 := by
  obtain ⟨r, hr, hsome, -, hbuild⟩ := cycleChild_builder parse_loopedFile.1
  obtain rfl : r = some "a" :=
    Option.some_inj.mp ((hr 3 (by decide)).symm.trans (cycleChild_looped 0))
  have hapart : Apart loopedHash (looped 0).builder.names := by
    rw [names_looped]
    exact ⟨by decide, by decide⟩
  refine ⟨hr 3 (by decide), hsome "a" rfl, (hbuild _ _ 0 hapart).1.mpr ⟨rfl, fits_looped, ?_⟩⟩
  rw [names_looped]
  decide

end TfTree.Bridge
