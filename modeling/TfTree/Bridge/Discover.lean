import TfTree.Bridge.RoundTrip
import TfTree.Bridge.Ingest

/-!
# Discovering a topology

`discover.rs` of `tf_tree_bridge`: the topology a stream of transforms implies.

Results:
* `Discovery.Follows.observe`: the tables hold, for each edge whose parent came first for
  its child, what was seen of it.
* `discovered_read_back_iff`: the discovered topology has one parent for a child, and is
  read back from its file exactly if the first pose of each static edge and the rate of
  each dynamic one pass the checks of the parser.
-/

namespace TfTree.Bridge

open Data Std

variable {F : Type}

/-! ## Model of `discover.rs` -/

/-- `Seen` (lines 22–31). -/
structure Seen (F : Type) where
  kind : StaticKind
  count : ℕ
  firstNs : ℤ
  lastNs : ℤ
  pose : PoseWords F
  kindClash : Bool

/-- The order of the edges. -/
abbrev compareEdge : String × String → String × String → Ordering :=
  compareLex (compareOn Prod.fst) (compareOn Prod.snd)

instance : LawfulEqCmp compareEdge where
  eq_of_compare := by
    intro a b h
    simp only [compareEdge, compareLex, compareOn, Ordering.then_eq_eq, Std.compare_eq_iff_eq] at h
    exact Prod.ext h.1 h.2

/-- `Discovery` (lines 35–48). -/
structure Discovery (F : Type) where
  names : NameNormalizer
  edges : TreeMap (String × String) (Seen F) compareEdge
  parentOf : TreeMap String String
  rejectedParents : TreeMap String (TreeSet String)
  droppedMultiParent : ℕ
  droppedBadName : ℕ
  historySecs : F
  defaultInterp : InterpPolicy

/-- `UNMEASURABLE_RATE_SLOTS`. -/
def unmeasurableRateSlots : ℕ := 64

/-- A hundredth. -/
def cent [Floats F] : F := 1 / ((100 : ℕ) : F)

/-- The rate of `count` samples between two stamps (`measured_rate`, lines 210–223). -/
def rateOf [Floats F] (count : ℕ) (firstNs lastNs : ℤ) : Option F :=
  let spanNs := lastNs - firstNs
  if ¬(-2 ^ 63 ≤ spanNs ∧ spanNs < 2 ^ 63) then none
  else if count < 2 ∨ spanNs ≤ 0 then none
  else
    let secs := Floats.ofInt spanNs / ((10 ^ 9 : ℕ) : F)
    let rate := Floats.ofInt ((count - 1 : ℕ) : ℤ) / secs
    let rounded := Floats.ceil (rate * ((100 : ℕ) : F)) / ((100 : ℕ) : F)
    if Floats.isFinite rounded then some (Floats.max rounded cent) else none

/-- `measured_rate`. -/
def measuredRate [Floats F] (s : Seen F) : Option F := rateOf s.count s.firstNs s.lastNs

/-- The kind of the edges of a topic. -/
def Topic.kind : Topic → StaticKind
  | .tf => .dynamic
  | .tfStatic => .static

/-- A sample of an edge (lines 115–134). -/
def Seen.after (s : Option (Seen F)) (kind : StaticKind) (sample : Sample F) : Seen F :=
  match s with
  | some s => { s with
      count := s.count + 1
      firstNs := min s.firstNs sample.stampNanos
      lastNs := max s.lastNs sample.stampNanos
      kindClash := s.kindClash || s.kind ≠ kind }
  | none => ⟨kind, 1, sample.stampNanos, sample.stampNanos, sample.pose, false⟩

namespace Discovery

/-- `Discovery::new`. -/
def new (historySecs : F) : Discovery F :=
  ⟨.new, ∅, ∅, ∅, 0, 0, historySecs, .scLerp⟩

/-- `Discovery::with_prefix`. -/
def withPrefix (d : Discovery F) (tfPrefix : String) : Discovery F :=
  { d with names := .withPrefix tfPrefix }

/-- `Discovery::with_interp`. -/
def withInterp (d : Discovery F) (interp : InterpPolicy) : Discovery F :=
  { d with defaultInterp := interp }

/-- `Discovery::observe` (lines 83–135). -/
def observe (d : Discovery F) (topic : Topic) (sample : Sample F) : Discovery F :=
  let (parent, names) := d.names.normalize sample.frameId
  let (child, names) := names.normalize sample.childFrameId
  let d := { d with names := names }
  match parent, child with
  | some parent, some child =>
    let (parent, child) := (parent.name, child.name)
    if parent = child then { d with droppedBadName := d.droppedBadName + 1 }
    else if ¬ frameNameOk parent ∨ ¬ frameNameOk child then
      { d with droppedBadName := d.droppedBadName + 1 }
    else
      let seen := Seen.after d.edges[(parent, child)]? topic.kind sample
      let edges := d.edges.insert (parent, child) seen
      match d.parentOf[child]? with
      | some p =>
        if p ≠ parent then
          let rejected := (d.rejectedParents.getD child ∅).insert parent
          { d with
            droppedMultiParent := d.droppedMultiParent + 1
            rejectedParents := d.rejectedParents.insert child rejected }
        else { d with edges := edges }
      | none => { d with parentOf := d.parentOf.insert child parent, edges := edges }
  | _, _ => { d with droppedBadName := d.droppedBadName + 1 }

/-- The shape of a discovered edge (lines 145–156). -/
def shapeOf [Floats F] (historySecs : F) (s : Seen F) : EdgeShape F :=
  match s.kind with
  | .static => .static s.pose
  | .dynamic =>
    match measuredRate s with
    | some rateHz => .dynamic (.history rateHz historySecs)
    | none => .dynamic (.slots unmeasurableRateSlots)

/-- `Discovery::to_config` (lines 140–167). -/
def toConfig [Floats F] (d : Discovery F) : TopologyConfig F :=
  { defaultInterp := d.defaultInterp
    edges := d.edges.toList.map fun e =>
      ⟨e.1.1, e.1.2, shapeOf d.historySecs e.2, none, none⟩ }

/-- A collector with its options. -/
def start (historySecs : F) (tfPrefix : Option String) (interp : InterpPolicy) : Discovery F :=
  (tfPrefix.elim (new historySecs) (new historySecs).withPrefix).withInterp interp

/-- A sequence of transforms. -/
def observeAll (d : Discovery F) (hist : List (Topic × Sample F)) : Discovery F :=
  hist.foldl (fun d x => d.observe x.1 x.2) d

end Discovery

/-! ## What a stream says -/

/-- The edge of a sample, where its names can be written. -/
def writtenEdge (tfPrefix : Option String) (sample : Sample F) : Option (String × String) :=
  match NameNormalizer.nameOf tfPrefix sample.frameId,
      NameNormalizer.nameOf tfPrefix sample.childFrameId with
  | some parent, some child =>
    if parent = child ∨ ¬ frameNameOk parent ∨ ¬ frameNameOk child then none
    else some (parent, child)
  | _, _ => none

/-- The transforms of an edge, in order. -/
def transformsOf (tfPrefix : Option String) (hist : List (Topic × Sample F))
    (e : String × String) : List (Topic × Sample F) :=
  hist.filter fun x => writtenEdge tfPrefix x.2 = some e

/-- The first parent of a child. -/
def firstParent (tfPrefix : Option String) (hist : List (Topic × Sample F)) (child : String) :
    Option String :=
  hist.findSome? fun x => (writtenEdge tfPrefix x.2).bind fun e =>
    if e.2 = child then some e.1 else none

/-- What is seen of the transforms of an edge. -/
def seenOf (xs : List (Topic × Sample F)) : Option (Seen F) :=
  xs.foldl (fun s x => some (.after s x.1.kind x.2)) none

/-- The first pose of each static edge is finite with a unit rotation, and the rate of each
    dynamic edge, where it can be measured, has a finite product with the history. -/
def Encodable [Floats F] (tfPrefix : Option String) (historySecs : F)
    (hist : List (Topic × Sample F)) : Prop :=
  ∀ (e : String × String) (first : Topic × Sample F) (rest : List (Topic × Sample F)),
    firstParent tfPrefix hist e.2 = some e.1 → transformsOf tfPrefix hist e = first :: rest →
    match first.1 with
    | .tfStatic => PoseValid first.2.pose
    | .tf => ∀ rateHz : F, rateOf (rest.length + 1)
        ((rest.map fun x => x.2.stampNanos).foldl min first.2.stampNanos)
        ((rest.map fun x => x.2.stampNanos).foldl max first.2.stampNanos) = some rateHz →
      Floats.isFinite (rateHz * historySecs) = true

/-! ## The tables follow the stream -/

section Follows

variable {tfPrefix : Option String} {hist : List (Topic × Sample F)} {x : Topic × Sample F}
  {d : Discovery F}

/-- What was seen of the first transform of an edge and of the rest. -/
theorem seenOf_cons (x : Topic × Sample F) (xs : List (Topic × Sample F)) :
    ∃ clash, seenOf (x :: xs) = some ⟨x.1.kind, xs.length + 1,
      (xs.map fun y => y.2.stampNanos).foldl min x.2.stampNanos,
      (xs.map fun y => y.2.stampNanos).foldl max x.2.stampNanos, x.2.pose, clash⟩ := by
  induction xs using List.reverseRecOn with
  | nil => exact ⟨false, rfl⟩
  | append_singleton xs y ih =>
    obtain ⟨clash, hseen⟩ := ih
    refine ⟨clash || x.1.kind ≠ y.1.kind, ?_⟩
    unfold seenOf at hseen ⊢
    rw [← List.cons_append, List.foldl_append, hseen]
    simp [Seen.after, List.foldl_append]

theorem transformsOf_concat (e : String × String) :
    transformsOf tfPrefix (hist ++ [x]) e = transformsOf tfPrefix hist e ++
      if writtenEdge tfPrefix x.2 = some e then [x] else [] := by
  unfold transformsOf
  rw [List.filter_append]
  congr 1
  by_cases h : writtenEdge tfPrefix x.2 = some e <;> simp [h]

theorem firstParent_concat (child : String) :
    firstParent tfPrefix (hist ++ [x]) child = (firstParent tfPrefix hist child).or
      ((writtenEdge tfPrefix x.2).bind fun e => if e.2 = child then some e.1 else none) := by
  unfold firstParent
  rw [List.findSome?_append]
  simp

theorem seenOf_concat (xs : List (Topic × Sample F)) (x : Topic × Sample F) :
    seenOf (xs ++ [x]) = some (.after (seenOf xs) x.1.kind x.2) := by
  unfold seenOf
  rw [List.foldl_append]
  rfl

/-- A child without a parent has no transforms. -/
theorem transformsOf_eq_nil {e : String × String} (h : firstParent tfPrefix hist e.2 = none) :
    transformsOf tfPrefix hist e = [] := by
  rw [transformsOf, List.filter_eq_nil_iff]
  intro x hx he
  have hnone := List.findSome?_eq_none_iff.mp h x hx
  rw [of_decide_eq_true he, Option.bind_some, if_pos rfl] at hnone
  cases hnone

/-- The tables after a stream. -/
structure Discovery.Follows (d : Discovery F) (tfPrefix : Option String)
    (hist : List (Topic × Sample F)) : Prop where
  names : d.names.tfPrefix = tfPrefix
  parents : ∀ child, d.parentOf[child]? = firstParent tfPrefix hist child
  edges : ∀ e : String × String, d.edges[e]? =
    if firstParent tfPrefix hist e.2 = some e.1 then seenOf (transformsOf tfPrefix hist e) else none

theorem writtenEdge_eq (tfPrefix : Option String) (sample : Sample F) :
    writtenEdge tfPrefix sample =
      match NameNormalizer.nameOf tfPrefix sample.frameId,
        NameNormalizer.nameOf tfPrefix sample.childFrameId with
      | some parent, some child =>
        if parent = child then none
        else if ¬ frameNameOk parent ∨ ¬ frameNameOk child then none
        else some (parent, child)
      | _, _ => none := by
  unfold writtenEdge
  split
  · split_ifs <;> simp_all
  · rfl

theorem writtenEdge_valid {sample : Sample F} {e : String × String}
    (h : writtenEdge tfPrefix sample = some e) :
    e.1 ≠ e.2 ∧ frameNameOk e.1 = true ∧ frameNameOk e.2 = true := by
  unfold writtenEdge at h
  split at h
  · split_ifs at h with hbad
    simp only [not_or, not_not] at hbad
    cases h
    exact hbad
  · cases h

/-- What `observe` does, by the edge of the sample. -/
theorem observe_cases (d : Discovery F) (x : Topic × Sample F) :
    (d.observe x.1 x.2).names.tfPrefix = d.names.tfPrefix ∧
    match writtenEdge d.names.tfPrefix x.2 with
    | none => (d.observe x.1 x.2).parentOf = d.parentOf ∧ (d.observe x.1 x.2).edges = d.edges
    | some e =>
      if (d.parentOf[e.2]?).any (· ≠ e.1) then
        (d.observe x.1 x.2).parentOf = d.parentOf ∧ (d.observe x.1 x.2).edges = d.edges
      else
        (∀ child, (d.observe x.1 x.2).parentOf[child]? =
          if e.2 = child then some e.1 else d.parentOf[child]?) ∧
        (d.observe x.1 x.2).edges = d.edges.insert e (.after d.edges[e]? x.1.kind x.2) := by
  have hparent := d.names.normalize_eq x.2.frameId
  have hchild := (d.names.normalize x.2.frameId).2.normalize_eq x.2.childFrameId
  have hprefix₁ := d.names.normalize_tfPrefix x.2.frameId
  have hprefix₂ := (d.names.normalize x.2.frameId).2.normalize_tfPrefix x.2.childFrameId
  rw [hprefix₁] at hchild hprefix₂
  rw [writtenEdge_eq, ← hparent, ← hchild]
  unfold Discovery.observe
  generalize d.names.normalize x.2.frameId = parent at hprefix₂ ⊢
  obtain ⟨parent, names₁⟩ := parent
  dsimp only at hprefix₂ ⊢
  generalize names₁.normalize x.2.childFrameId = child at hprefix₂ ⊢
  obtain ⟨child, names₂⟩ := child
  dsimp only at hprefix₂ ⊢
  cases parent with
  | none => exact ⟨hprefix₂, rfl, rfl⟩
  | some parent =>
    cases child with
    | none => exact ⟨hprefix₂, rfl, rfl⟩
    | some child =>
      simp only [Option.map_some]
      by_cases hself : parent.name = child.name
      · rw [if_pos hself, if_pos hself]
        exact ⟨hprefix₂, rfl, rfl⟩
      · rw [if_neg hself, if_neg hself]
        by_cases hbad : ¬frameNameOk parent.name = true ∨ ¬frameNameOk child.name = true
        · rw [if_pos hbad, if_pos hbad]
          exact ⟨hprefix₂, rfl, rfl⟩
        · rw [if_neg hbad, if_neg hbad]
          cases hown : d.parentOf[child.name]? with
          | none =>
            refine ⟨hprefix₂, ?_⟩
            dsimp only
            rw [hown, if_neg (by simp)]
            refine ⟨fun c => ?_, rfl⟩
            rw [TreeMap.getElem?_insert]
            simp only [LawfulEqCmp.compare_eq_iff_eq]
          | some p =>
            dsimp only
            rw [hown]
            by_cases hp : p ≠ parent.name
            · rw [if_pos hp, if_pos (by simpa using hp)]
              exact ⟨hprefix₂, rfl, rfl⟩
            · rw [if_neg hp, if_neg (by simpa using hp)]
              refine ⟨hprefix₂, fun c => ?_, rfl⟩
              by_cases hc : child.name = c
              · rw [if_pos hc, ← hc, hown, not_not.mp hp]
              · rw [if_neg hc]

/-- **Step lemma.** The tables follow the stream over one more transform. -/
theorem Discovery.Follows.observe (h : d.Follows tfPrefix hist) (x : Topic × Sample F) :
    (d.observe x.1 x.2).Follows tfPrefix (hist ++ [x]) := by
  obtain ⟨hnames, hstep⟩ := observe_cases d x
  rw [h.names] at hstep hnames
  cases hedge : writtenEdge tfPrefix x.2 with
  | none =>
    rw [hedge] at hstep
    refine ⟨hnames, fun child => ?_, fun e => ?_⟩
    · rw [hstep.1, h.parents, firstParent_concat, hedge]
      simp
    · rw [hstep.2, h.edges, firstParent_concat, transformsOf_concat, hedge]
      simp
  | some e =>
    rw [hedge] at hstep
    dsimp only at hstep
    rw [h.parents] at hstep
    by_cases hother : (firstParent tfPrefix hist e.2).any (· ≠ e.1) = true
    · -- another parent came first
      rw [if_pos hother] at hstep
      obtain ⟨p, hp, hne⟩ : ∃ p, firstParent tfPrefix hist e.2 = some p ∧ p ≠ e.1 := by
        simpa [Option.any_eq_true] using hother
      have hparents : ∀ child,
          firstParent tfPrefix (hist ++ [x]) child = firstParent tfPrefix hist child := by
        intro child
        rw [firstParent_concat, hedge, Option.bind_some]
        by_cases hc : e.2 = child
        · rw [← hc, hp, Option.some_or]
        · rw [if_neg hc, Option.or_none]
      refine ⟨hnames, fun child => by rw [hstep.1, h.parents, hparents], fun e' => ?_⟩
      rw [hstep.2, h.edges, hparents, transformsOf_concat, hedge]
      by_cases he : e = e'
      · have hno : ¬firstParent tfPrefix hist e'.2 = some e'.1 := by
          rw [← he, hp]
          simpa using hne
        rw [if_neg hno, if_neg hno]
      · simp only [Option.some.injEq, he, if_false, List.append_nil]
    · rw [if_neg hother] at hstep
      obtain ⟨hown, hinsert⟩ := hstep
      have hparents : ∀ child, firstParent tfPrefix (hist ++ [x]) child =
          if e.2 = child then some e.1 else firstParent tfPrefix hist child := by
        intro child
        rw [firstParent_concat, hedge, Option.bind_some]
        by_cases hc : e.2 = child
        · rw [if_pos hc, if_pos hc, ← hc]
          cases hfp : firstParent tfPrefix hist e.2 with
          | none => rfl
          | some p =>
            rw [hfp] at hother
            have hp : p = e.1 := by simpa using hother
            rw [hp, Option.some_or]
        · rw [if_neg hc, if_neg hc, Option.or_none]
      refine ⟨hnames, fun child => by rw [hown, hparents, h.parents], fun e' => ?_⟩
      rw [hinsert, TreeMap.getElem?_insert, hparents, transformsOf_concat, hedge]
      simp only [LawfulEqCmp.compare_eq_iff_eq, Option.some.injEq]
      by_cases he : e = e'
      · subst he
        rw [if_pos rfl, if_pos rfl, if_pos rfl, if_pos rfl, h.edges, seenOf_concat]
        congr 2
        by_cases hfp : firstParent tfPrefix hist e.2 = some e.1
        · rw [if_pos hfp]
        · -- no transform of the edge was seen
          have hnone : firstParent tfPrefix hist e.2 = none := by
            cases hf : firstParent tfPrefix hist e.2 with
            | none => rfl
            | some p =>
              rw [hf] at hother hfp
              exact absurd (by simpa using hother) (by simpa using hfp)
          rw [if_neg hfp, transformsOf_eq_nil hnone]
          rfl
      · rw [if_neg he, if_neg he, List.append_nil, h.edges]
        by_cases hc : e.2 = e'.2
        · have hne : ¬some e.1 = some e'.1 := fun h1 => he (Prod.ext (Option.some_inj.mp h1) hc)
          have hfp : ¬firstParent tfPrefix hist e'.2 = some e'.1 := by
            intro hfp
            rw [← hc] at hfp
            rw [hfp] at hother
            have heq : e'.1 = e.1 := by simpa using hother
            exact hne (congrArg some heq.symm)
          rw [if_pos hc, if_neg hne, if_neg hfp]
        · rw [if_neg hc]

/-- **Run lemma.** The tables follow the whole stream. -/
theorem Discovery.Follows.observeAll (h : d.Follows tfPrefix []) (hist : List (Topic × Sample F)) :
    (d.observeAll hist).Follows tfPrefix hist := by
  induction hist using List.reverseRecOn with
  | nil => exact h
  | append_singleton hist x ih =>
    unfold Discovery.observeAll at ih ⊢
    rw [List.foldl_append]
    exact ih.observe x

theorem Discovery.follows_start (historySecs : F) (tfPrefix : Option String)
    (interp : InterpPolicy) :
    (Discovery.start historySecs tfPrefix interp).Follows
      (Ingest.namesFor tfPrefix).tfPrefix [] := by
  cases tfPrefix with
  | none => exact ⟨rfl, fun _ => rfl, fun _ => rfl⟩
  | some p => exact ⟨rfl, fun _ => rfl, fun _ => rfl⟩

end Follows

/-! ## The discovered topology -/

section RoundTrip

variable [Floats F] {tfPrefix : Option String} {hist : List (Topic × Sample F)} {d : Discovery F}

omit [Floats F] in
theorem firstParent_edge {e : String × String} (h : firstParent tfPrefix hist e.2 = some e.1) :
    e.1 ≠ e.2 ∧ frameNameOk e.1 = true ∧ frameNameOk e.2 = true := by
  obtain ⟨x, -, hx⟩ := List.exists_of_findSome?_eq_some h
  obtain ⟨e', he', hchild⟩ := Option.bind_eq_some_iff.mp hx
  have hsame : e' = e := by
    split_ifs at hchild with hc
    exact Prod.ext (Option.some_inj.mp hchild) hc
  exact writtenEdge_valid (hsame ▸ he')

omit [Floats F] in
/-- The edges of the topology are those whose parent came first. -/
theorem Discovery.Follows.mem_edges (h : d.Follows tfPrefix hist) {e : String × String}
    {s : Seen F} : (e, s) ∈ d.edges.toList ↔
      firstParent tfPrefix hist e.2 = some e.1 ∧
        seenOf (transformsOf tfPrefix hist e) = some s := by
  rw [TreeMap.mem_toList_iff_getElem?_eq_some, h.edges]
  by_cases hfp : firstParent tfPrefix hist e.2 = some e.1 <;> simp [hfp]

/-- A discovered child has one parent. -/
theorem Discovery.Follows.children (h : d.Follows tfPrefix hist) :
    (d.toConfig.edges.map EdgeConfig.child).Nodup := by
  have hchild : d.toConfig.edges.map EdgeConfig.child = d.edges.toList.map fun e => e.1.2 := by
    rw [Discovery.toConfig, List.map_map]
    rfl
  rw [hchild, List.Nodup, List.pairwise_map]
  refine (TreeMap.distinct_keys_toList (t := d.edges)).imp_of_mem fun {a b} ha hb hne heq => ?_
  obtain ⟨hpa, -⟩ := h.mem_edges.mp ha
  obtain ⟨hpb, -⟩ := h.mem_edges.mp hb
  rw [heq, hpb] at hpa
  exact hne (LawfulEqCmp.compare_eq_iff_eq.mpr (Prod.ext (Option.some_inj.mp hpa).symm heq))

/-- The maximum of a finite number and a hundredth is finite and positive. -/
class MaxCent (F : Type) [Floats F] : Prop where
  max_cent : ∀ x : F, Floats.isFinite x = true →
    Floats.isFinite (Floats.max x cent : F) = true ∧ Floats.lt 0 (Floats.max x cent : F) = true

theorem rateOf_positive [MaxCent F] {count : ℕ} {firstNs lastNs : ℤ} {rateHz : F}
    (h : rateOf count firstNs lastNs = some rateHz) :
    Floats.isFinite rateHz = true ∧ Floats.lt 0 rateHz = true := by
  unfold rateOf at h
  dsimp only at h
  split_ifs at h with hrange hfew hfin
  cases h
  exact MaxCent.max_cent _ hfin

/-- The shape of an edge passes the checks of the parser, by what was seen of it. -/
theorem shapeOf_valid_iff [MaxCent F] {historySecs : F} (hfin : Floats.isFinite historySecs = true)
    (hpos : Floats.lt 0 historySecs = true) (s : Seen F) : (Discovery.shapeOf historySecs s).Valid ↔
      match s.kind with
      | .static => PoseValid s.pose
      | .dynamic => ∀ rateHz, measuredRate s = some rateHz →
        Floats.isFinite (rateHz * historySecs) = true := by
  unfold Discovery.shapeOf
  cases s.kind with
  | static => rfl
  | dynamic =>
    cases hrate : measuredRate s with
    | none =>
      refine iff_of_true ?_ fun rateHz h => by cases h
      show 0 < 64 ∧ 64 < 2 ^ 32
      decide
    | some rateHz =>
      obtain ⟨hrfin, hrpos⟩ := rateOf_positive hrate
      show finiteHistory rateHz historySecs = true ↔ _
      rw [finiteHistory_iff]
      constructor
      · rintro ⟨-, -, -, -, h⟩ rateHz' hr
        cases hr
        exact h
      · exact fun h => ⟨hrfin, hrpos, hfin, hpos, h rateHz rfl⟩

/-- The discovered topology is valid exactly if what was seen can be encoded. -/
theorem Discovery.Follows.valid_iff [MaxCent F] (h : d.Follows tfPrefix hist)
    (hfin : Floats.isFinite d.historySecs = true) (hpos : Floats.lt 0 d.historySecs = true) :
    d.toConfig.Valid ↔ Encodable tfPrefix d.historySecs hist := by
  have hshapes : d.toConfig.Valid ↔
      ∀ x ∈ d.edges.toList, (Discovery.shapeOf d.historySecs x.2).Valid := by
    constructor
    · intro hv x hx
      exact (hv.edges _ (List.mem_map_of_mem hx)).shape
    · intro hs
      refine ⟨fun f hf => absurd hf List.not_mem_nil, fun f hf => absurd hf List.not_mem_nil,
        Nat.two_pow_pos 32, Nat.two_pow_pos 8, fun e he => ?_, h.children⟩
      obtain ⟨⟨⟨parent, child⟩, s⟩, hx, rfl⟩ := List.mem_map.mp he
      obtain ⟨hne, hparent, hchild⟩ := firstParent_edge (h.mem_edges.mp hx).1
      exact ⟨hparent, hchild, hne, hs _ hx, fun d hd => by cases hd⟩
  rw [hshapes]
  constructor
  · intro hs e first rest hfp hxs
    obtain ⟨clash, hseen⟩ := seenOf_cons first rest
    have hvalid := hs _ (h.mem_edges.mpr ⟨hfp, by rw [hxs]; exact hseen⟩)
    rw [shapeOf_valid_iff hfin hpos] at hvalid
    obtain ⟨topic, sample⟩ := first
    cases topic <;> exact hvalid
  · rintro henc ⟨e, s⟩ hx
    obtain ⟨hfp, hs⟩ := h.mem_edges.mp hx
    cases hxs : transformsOf tfPrefix hist e with
    | nil =>
      rw [hxs] at hs
      cases hs
    | cons first rest =>
      obtain ⟨clash, hseen⟩ := seenOf_cons first rest
      rw [hxs, hseen] at hs
      cases hs
      have hfirst := henc e first rest hfp hxs
      rw [shapeOf_valid_iff hfin hpos]
      obtain ⟨topic, sample⟩ := first
      cases topic <;> exact hfirst

omit [Floats F] in
theorem observe_historySecs (d : Discovery F) (topic : Topic) (sample : Sample F) :
    (d.observe topic sample).historySecs = d.historySecs := by
  unfold Discovery.observe
  dsimp only
  split
  · split_ifs
    · rfl
    · rfl
    · split
      · split_ifs <;> rfl
      · rfl
  · rfl

omit [Floats F] in
theorem observeAll_historySecs (d : Discovery F) (hist : List (Topic × Sample F)) :
    (d.observeAll hist).historySecs = d.historySecs := by
  induction hist generalizing d with
  | nil => rfl
  | cons x hist ih => exact (ih _).trans (observe_historySecs d x.1 x.2)

/-- **Main theorem.** Whatever transforms are observed, the discovered topology has one
    parent for each child, and it is read back from its file exactly if the first pose of
    each static edge and the rates of the dynamic ones can be encoded. -/
theorem discovered_read_back_iff [Decimal F] [MaxCent F] (historySecs : F)
    (hfin : Floats.isFinite historySecs = true) (hpos : Floats.lt 0 historySecs = true)
    (prefixArg : Option String) (interp : InterpPolicy) (hist : List (Topic × Sample F)) :
    let c := ((Discovery.start historySecs prefixArg interp).observeAll hist).toConfig
    (c.edges.map EdgeConfig.child).Nodup ∧ (TopologyConfig.parse c.toToml = .ok c ↔
      Encodable (Ingest.namesFor prefixArg).tfPrefix historySecs hist) := by
  have hfollows := (Discovery.follows_start historySecs prefixArg interp).observeAll hist
  have hsecs : ((Discovery.start historySecs prefixArg interp).observeAll hist).historySecs =
      historySecs := by
    rw [observeAll_historySecs]
    cases prefixArg <;> rfl
  refine ⟨hfollows.children, parse_toToml_iff.trans ?_⟩
  have hiff := hfollows.valid_iff (by rw [hsecs]; exact hfin) (by rw [hsecs]; exact hpos)
  rw [hsecs] at hiff
  exact hiff

end RoundTrip

instance : MaxCent Hundredths where
  max_cent x _ := by
    have hpos : (0 : ℤ) < max x.n 1 := lt_max_of_lt_right Int.one_pos
    exact ⟨rfl, decide_eq_true hpos⟩

/-- A transform for the examples. -/
def transformAt (topic : Topic) (parent child : String) (stampNanos : ℤ)
    (pose : PoseWords Hundredths) : Topic × Sample Hundredths :=
  (topic, ⟨parent, child, stampNanos, 0, pose⟩)

/-- An odometry of a second, and the mount of a laser. -/
def exampleStream (mount : PoseWords Hundredths) : List (Topic × Sample Hundredths) :=
  [transformAt .tf "odom" "base" 0 (.replicate 7 0),
    transformAt .tfStatic "/base" "laser" 0 mount,
    transformAt .tf "map" "base" 0 (.replicate 7 0),
    transformAt .tf "odom" "base" 1000000000 (.replicate 7 0)]

/-- The topology discovered of the example. -/
def discoveredExample (mount : PoseWords Hundredths) : TopologyConfig Hundredths :=
  ((Discovery.start 10 none .scLerp).observeAll (exampleStream mount)).toConfig

/-- A mount with a unit rotation is read back. -/
theorem discovered_read_back_iff_example :
    ((discoveredExample #v[1, 0, 0, 0, 0, 0, 0]).edges.map EdgeConfig.child).Nodup ∧
      Encodable none 10 (exampleStream #v[1, 0, 0, 0, 0, 0, 0]) ∧
      TopologyConfig.parse (discoveredExample #v[1, 0, 0, 0, 0, 0, 0]).toToml =
        .ok (discoveredExample #v[1, 0, 0, 0, 0, 0, 0]) := by
  obtain ⟨hchildren, hiff⟩ := discovered_read_back_iff (10 : Hundredths) rfl (by decide) none
    .scLerp (exampleStream #v[1, 0, 0, 0, 0, 0, 0])
  have hencodable : Encodable none 10 (exampleStream #v[1, 0, 0, 0, 0, 0, 0]) := by
    -- every number is finite, and the one static pose has a unit rotation
    have hposes : ∀ x ∈ exampleStream #v[1, 0, 0, 0, 0, 0, 0],
        x.1 = .tfStatic → PoseValid x.2.pose := by
      unfold PoseValid
      decide
    intro e first rest _ hgroup
    have hmem : first ∈ exampleStream #v[1, 0, 0, 0, 0, 0, 0] :=
      List.mem_of_mem_filter (hgroup ▸ List.mem_cons_self)
    obtain ⟨topic, sample⟩ := first
    cases topic with
    | tf => exact fun _ _ => rfl
    | tfStatic => exact hposes _ hmem rfl
  exact ⟨hchildren, hencodable, hiff.mpr hencodable⟩

/-- A mount that was never set, with its rotation of zeros, is written to the file, and the
    file is refused. -/
theorem discovered_zero_pose :
    TopologyConfig.parse (discoveredExample (.replicate 7 0)).toToml ≠
      .ok (discoveredExample (.replicate 7 0)) := by
  -- the mount is the static edge, and its rotation is not of norm one
  have hmount : (discoveredExample (.replicate 7 0)).edges.any (fun e => match e.shape with
      | .static pose => !isUnit pose
      | .dynamic _ => false) = true := by
    decide
  intro hok
  obtain ⟨e, he, hzero⟩ := List.any_eq_true.mp hmount
  have hshape := ((parse_toToml_iff.mp hok).edges e he).shape
  cases hs : e.shape with
  | static pose =>
    simp only [hs] at hzero hshape
    rw [hshape.2] at hzero
    cases hzero
  | dynamic ring =>
    simp only [hs] at hzero
    cases hzero

end TfTree.Bridge
