import Mathlib
import TfTree.Ingest.EdgeReport

/-!
# What a survey reports

The variables of `survey` follow, edge by edge, the entries that add up the records of each
edge: a survey ends well exactly if every edge is admissible, and what it returns describes the
recording.

Results:
* `observeStatic_spec`: the store of statics, as a map from edges to poses.
* `Pass.Holds.step`: one record changes the entry of its edge.
-/

namespace TfTree.Offline

open Data Mcap Bridge

variable {F : Type}

/-! ## Fields by key -/

section Fields

variable {K α : Type} [DecidableEq K] {keys : List K} {xs : List α} {k k' : K} {i : ℕ}

/-- The element at the place of the key. -/
def fieldAt (keys : List K) (xs : List α) (k : K) : Option α := (position keys k).bind (xs[·]?)

theorem fieldAt_concat (hlen : xs.length = keys.length) (hnew : k ∉ keys) (x : α) :
    fieldAt (keys ++ [k]) (xs ++ [x]) = Function.update (fieldAt keys xs) k (some x) := by
  funext k'
  unfold fieldAt
  by_cases hk : k' = k
  · subst hk
    rw [Function.update_self, position_concat hnew, ← hlen]
    exact List.getElem?_concat_length
  · rw [Function.update_of_ne hk]
    cases hpos : position keys k' with
    | none =>
      have hnone : k' ∉ keys ++ [k] := by
        rw [List.mem_append, List.mem_singleton]
        rintro (hmem | rfl)
        · exact position_eq_none.mp hpos hmem
        · exact hk rfl
      rw [position_eq_none.mpr hnone]
      rfl
    | some i =>
      rw [position_append [k] hpos]
      have hlt := position_lt hpos
      exact List.getElem?_append_left (by omega)

theorem fieldAt_set (hlen : xs.length = keys.length) (hpos : position keys k = some i) (x : α) :
    fieldAt keys (xs.set i x) = Function.update (fieldAt keys xs) k (some x) := by
  funext k'
  unfold fieldAt
  by_cases hk : k' = k
  · subst hk
    have hlt := position_lt hpos
    rw [Function.update_self, hpos]
    exact List.getElem?_set_self (by omega)
  · rw [Function.update_of_ne hk]
    cases hpos' : position keys k' with
    | none => rfl
    | some j =>
      refine List.getElem?_set_ne ?_
      rintro rfl
      have heq := (getElem?_of_position hpos).symm.trans (getElem?_of_position hpos')
      exact hk (Option.some_inj.mp heq).symm

end Fields

/-! ## The statics -/

section Statics

variable {s : StaticStore F} {p c : String}

/-- The pose on file of an edge. -/
def onFileOf (s : StaticStore F) (k : String × String) : Option (PoseWords F × Publisher) :=
  (fieldAt s.index.table.keys s.values k).join

/-- How often an edge was contradicted. -/
def reportedOf (s : StaticStore F) (k : String × String) : ℕ :=
  (fieldAt s.index.table.keys s.reported k).getD 0

/-- The store of a survey: no edge in it is dynamic. -/
structure StaticsOk (s : StaticStore F) : Prop where
  ok : s.Ok
  kinds : ∀ kind ∈ s.kinds, kind = .static

theorem staticsOk_init : StaticsOk (StaticStore.withCapacity 0 : StaticStore F) :=
  ⟨StaticStore.ok_withCapacity 0, List.forall_mem_nil _⟩

/-- A slot for the edge changes nothing that is on file. -/
theorem StaticsOk.slotOrInsert (hs : StaticsOk s) (p c : String) :
    ∃ slot s', s.slotOrInsert p c .static = some (slot, s') ∧ StaticsOk s' ∧
      position s'.index.table.keys (p, c) = some slot ∧ onFileOf s' = onFileOf s ∧
      reportedOf s' = reportedOf s := by
  obtain ⟨slot, s', hrun, hok, -, hpos, -, -⟩ := hs.ok.slotOrInsert p c .static
  refine ⟨slot, s', hrun, ?_⟩
  unfold StaticStore.slotOrInsert at hrun
  rw [hs.ok.index.get] at hrun
  cases hold : position s.index.table.keys (p, c) with
  | some i =>
    rw [hold] at hrun
    cases hrun
    exact ⟨hs, hpos, rfl, rfl⟩
  | none =>
    have hnew := position_eq_none.mp hold
    obtain ⟨index, hins, -, hkeys⟩ := hs.ok.index.insert hnew
    rw [hold] at hrun
    simp only [Option.bind_eq_bind, Option.bind_some, hins] at hrun
    cases hrun
    refine ⟨⟨hok, ?_⟩, hpos, funext fun k => ?_, funext fun k => ?_⟩
    · intro kind hkind
      rcases List.mem_append.mp hkind with hkind | hkind
      · exact hs.kinds kind hkind
      · exact List.mem_singleton.mp hkind
    · unfold onFileOf
      dsimp only
      rw [hkeys, fieldAt_concat (hs.ok.values.trans hs.ok.kinds) hnew]
      by_cases hk : k = (p, c)
      · subst hk
        rw [Function.update_self, fieldAt, hold]
        rfl
      · rw [Function.update_of_ne hk]
    · unfold reportedOf
      dsimp only
      rw [hkeys, fieldAt_concat (hs.ok.reported.trans hs.ok.kinds) hnew]
      by_cases hk : k = (p, c)
      · subst hk
        rw [Function.update_self, fieldAt, hold]
        rfl
      · rw [Function.update_of_ne hk]

/-- A static sample, on the map of the poses on file. -/
theorem observeStatic_spec [Floats F] (hs : StaticsOk s) (p c : String) (pose : PoseWords F)
    (publisher : Publisher) :
    ∃ v s', observeStatic s p c pose publisher = some (v, s') ∧ StaticsOk s' ∧
      ((onFileOf s (p, c) = none ∧ v = .declare ∧
          onFileOf s' = Function.update (onFileOf s) (p, c) (some (pose, publisher)) ∧
          reportedOf s' = reportedOf s) ∨
        ∃ existing owner, onFileOf s (p, c) = some (existing, owner) ∧
          onFileOf s' = onFileOf s ∧
          (samePose existing pose = true ∧ v = .idempotent ∧ reportedOf s' = reportedOf s ∨
            samePose existing pose = false ∧
              v = .conflict owner publisher existing pose (decide (reportedOf s (p, c) = 0)) ∧
              reportedOf s' =
                Function.update (reportedOf s) (p, c) (reportedOf s (p, c) + 1))) := by
  obtain ⟨slot, s₁, hslot, hs₁, hpos, hfile, hrep⟩ := hs.slotOrInsert p c
  rw [← hfile, ← hrep]
  have hkeys := position_lt hpos
  have hkind : slot < s₁.kinds.length := by rw [hs₁.ok.kinds]; exact hkeys
  have hvalue : slot < s₁.values.length := by rw [hs₁.ok.values]; exact hkind
  have hreported : slot < s₁.reported.length := by rw [hs₁.ok.reported]; exact hkind
  have hfirst : slot < s₁.firstIntruder.length := by rw [hs₁.ok.firstIntruder]; exact hkind
  have hstatic := hs₁.kinds _ (List.getElem_mem hkind)
  obtain ⟨v, s', hobserve, hok', hslots⟩ := hs₁.ok.observeStaticAt hkeys pose publisher
  have hs' : StaticsOk s' := ⟨hok', by rw [hslots.kinds]; exact hs₁.kinds⟩
  have hindex : s'.index.table.keys = s₁.index.table.keys := by rw [hslots.index]
  have hrun : observeStatic s p c pose publisher = some (v, s') := by
    unfold observeStatic
    rw [hslot]
    exact hobserve
  refine ⟨v, s', hrun, hs', ?_⟩
  have hat : ∀ {α : Type} {xs : List α} (hlt : slot < xs.length),
      fieldAt s₁.index.table.keys xs (p, c) = some xs[slot] := by
    intro α xs hlt
    rw [fieldAt, hpos]
    exact List.getElem?_eq_getElem hlt
  have hfile₁ : onFileOf s₁ (p, c) = s₁.values[slot] := by
    rw [onFileOf, hat hvalue]
    rfl
  have hrep₁ : reportedOf s₁ (p, c) = s₁.reported[slot] := by
    rw [reportedOf, hat hreported]
    rfl
  unfold StaticStore.observeStaticAt at hobserve
  simp only [Option.bind_eq_bind, List.getElem?_eq_getElem hkind, Option.bind_some, hstatic,
    List.getElem?_eq_getElem hvalue] at hobserve
  rw [if_neg (by simp)] at hobserve
  rw [hfile₁, hrep₁]
  cases hval : s₁.values[slot] with
  | none =>
    rw [hval] at hobserve
    simp only [setAt_eq hkind, setAt_eq hvalue, Option.bind_some] at hobserve
    cases hobserve
    refine .inl ⟨rfl, rfl, funext fun k => ?_, rfl⟩
    unfold onFileOf
    dsimp only
    rw [fieldAt_set (hs₁.ok.values.trans hs₁.ok.kinds) hpos]
    by_cases hk : k = (p, c)
    · subst hk
      rw [Function.update_self, Function.update_self]
      rfl
    · rw [Function.update_of_ne hk, Function.update_of_ne hk]
  | some file =>
    obtain ⟨existing, owner⟩ := file
    rw [hval] at hobserve
    refine .inr ⟨existing, owner, rfl, ?_⟩
    cases hsame : samePose existing pose with
    | true =>
      dsimp only at hobserve
      rw [if_pos hsame] at hobserve
      cases hobserve
      exact ⟨rfl, .inl ⟨rfl, rfl, rfl⟩⟩
    | false =>
      dsimp only at hobserve
      rw [if_neg (by simp [hsame])] at hobserve
      simp only [List.getElem?_eq_getElem hreported, setAt_eq hreported, Option.bind_some,
        setAt_eq hfirst] at hobserve
      have hset : ∀ firstIntruder conflicts, reportedOf ({ s₁ with
            reported := s₁.reported.set slot (s₁.reported[slot] + 1)
            firstIntruder := firstIntruder
            conflicts := conflicts } : StaticStore F) =
          Function.update (reportedOf s₁) (p, c) (s₁.reported[slot] + 1) := by
        intro firstIntruder conflicts
        funext k
        unfold reportedOf
        dsimp only
        rw [fieldAt_set (hs₁.ok.reported.trans hs₁.ok.kinds) hpos]
        by_cases hk : k = (p, c)
        · subst hk
          rw [Function.update_self, Function.update_self]
          rfl
        · rw [Function.update_of_ne hk, Function.update_of_ne hk]
      by_cases h0 : s₁.reported[slot] = 0
      · simp only [h0, decide_true, if_true] at hobserve
        cases hobserve
        refine ⟨rfl, .inr ⟨rfl, by simp [h0], ?_⟩⟩
        rw [← h0]
        exact hset _ _
      · simp only [h0, decide_false, Bool.false_eq_true, if_false] at hobserve
        cases hobserve
        exact ⟨rfl, .inr ⟨rfl, by simp [h0], hset _ _⟩⟩

end Statics

/-! ## The frames -/

section Frames

/-- The table of the frames: each name once, and its place. -/
structure Frames.Ok (f : Frames) : Prop where
  nodup : f.names.Nodup
  index : ∀ name, f.index name = position f.names name

variable {f : Frames}

theorem Frames.ok_default : Frames.default.Ok := ⟨List.nodup_nil, fun _ => rfl⟩

theorem Frames.Ok.intern (h : f.Ok) (name : String) :
    (f.intern name).2.Ok ∧ (f.intern name).2.names = addNew f.names name ∧
      (f.intern name).2.names[(f.intern name).1]? = some name := by
  unfold Frames.intern addNew
  rw [h.index]
  cases hpos : position f.names name with
  | some i =>
    have hget := getElem?_of_position hpos
    rw [if_pos (List.mem_of_getElem? hget)]
    exact ⟨h, rfl, hget⟩
  | none =>
    have hnew := position_eq_none.mp hpos
    rw [if_neg hnew]
    refine ⟨⟨?_, fun name' => ?_⟩, rfl, List.getElem?_concat_length⟩
    · have hnodup := nodup_addNew h.nodup name
      rwa [addNew, if_neg hnew] at hnodup
    · by_cases hname : name' = name
      · subst hname
        show Function.update f.index name' _ name' = _
        rw [Function.update_self, position_concat hnew]
      · show Function.update f.index name _ name' = _
        rw [Function.update_of_ne hname, h.index]
        cases hpos' : position f.names name' with
        | some j => rw [position_append [name] hpos']
        | none =>
          refine (position_eq_none.mpr ?_).symm
          rw [List.mem_append, List.mem_singleton]
          rintro (hmem | rfl)
          · exact position_eq_none.mp hpos' hmem
          · exact hname rfl

theorem addNew_extends {K : Type} [DecidableEq K] (ks : List K) (k : K) : ks <+: addNew ks k := by
  unfold addNew
  split_ifs
  · exact List.prefix_rfl
  · exact List.prefix_append _ _

/-- A name that has a place keeps it. -/
theorem Frames.name_of_extends {f f' : Frames} (h : f.names <+: f'.names) {i : ℕ} {name : String}
    (hi : f.names[i]? = some name) : f'.name i = name := by
  obtain ⟨more, hmore⟩ := h
  have hlt : i < f.names.length := (List.getElem?_eq_some_iff.mp hi).1
  unfold Frames.name
  rw [List.getD_eq_getElem?_getD, ← hmore, List.getElem?_append_left hlt, hi]
  rfl

end Frames

/-! ## The records by edge -/

/-- The names of the edge of a record; `none` where one is refused. -/
def nameKey (opts : IngestOptions) (rec : RawRecord F) : Option (String × String) := do
  let parent ← NameNormalizer.nameOf opts.normalizer.tfPrefix rec.parent
  let child ← NameNormalizer.nameOf opts.normalizer.tfPrefix rec.child
  return (parent, child)

/-- The records with the names of their edges. -/
def named (opts : IngestOptions) (recs : List (RawRecord F)) :
    List ((String × String) × RawRecord F) :=
  recs.filterMap fun rec => (nameKey opts rec).map fun k => (k, rec)

/-- The names of the edges, each where it comes first. -/
def edgeKeys (opts : IngestOptions) (recs : List (RawRecord F)) : List (String × String) :=
  firstSeen ((named opts recs).map Prod.fst)

/-- The names of the frames: those there were, and each new one where it comes first. -/
def namesAfter (start : List String) (opts : IngestOptions) (recs : List (RawRecord F)) :
    List String :=
  ((named opts recs).flatMap fun x => [x.1.1, x.1.2]).foldl addNew start

/-- The names of the frames of a new table. -/
def frameNames (opts : IngestOptions) (recs : List (RawRecord F)) : List String :=
  firstSeen ((named opts recs).flatMap fun x => [x.1.1, x.1.2])

/-- The records of an edge. -/
def recordsOf (opts : IngestOptions) (recs : List (RawRecord F)) (k : String × String) :
    List (RawRecord F) := (groupOf Prod.fst (named opts recs) k).map Prod.snd

section Records

variable {opts : IngestOptions} {recs : List (RawRecord F)} {rec : RawRecord F}
  {k k' : String × String}

theorem named_concat : named opts (recs ++ [rec]) =
    named opts recs ++ (match nameKey opts rec with
      | some k => [(k, rec)]
      | none => []) := by
  unfold named
  rw [List.filterMap_append]
  cases h : nameKey opts rec with
  | none => simp [h]
  | some k => simp [h]

theorem recordsOf_concat (h : nameKey opts rec = some k) : recordsOf opts (recs ++ [rec]) k' =
    recordsOf opts recs k' ++ if k = k' then [rec] else [] := by
  unfold recordsOf
  rw [named_concat, h, groupOf_concat, List.map_append]
  split_ifs
  · rfl
  · rfl

theorem edgeKeys_concat (h : nameKey opts rec = some k) :
    edgeKeys opts (recs ++ [rec]) = addNew (edgeKeys opts recs) k := by
  unfold edgeKeys
  rw [named_concat, h, List.map_append]
  exact firstSeen_concat _ _

theorem namesAfter_concat (start : List String) (h : nameKey opts rec = some k) :
    namesAfter start opts (recs ++ [rec]) =
      addNew (addNew (namesAfter start opts recs) k.1) k.2 := by
  unfold namesAfter
  rw [named_concat, h, List.flatMap_append, List.foldl_append]
  rfl

theorem recordsOf_ne_nil : recordsOf opts recs k ≠ [] ↔ k ∈ edgeKeys opts recs := by
  unfold recordsOf edgeKeys
  rw [mem_firstSeen, ← groupOf_ne_nil, Ne, List.map_eq_nil_iff]

end Records

/-! ## The pass -/

/-- The names of the edge of ids. -/
def Frames.edge (f : Frames) (key : EdgeKey) : String × String := (f.name key.1, f.name key.2)

/-- The variables follow the entries of the edges. -/
structure Pass.Holds [Floats F] (start : List String) (opts : IngestOptions)
    (recs : List (RawRecord F)) (entry : String × String → Option (Entry F)) (st : Pass F) :
    Prop where
  tfPrefix : st.normalizer.tfPrefix = opts.normalizer.tfPrefix
  frames : st.frames.Ok
  names : st.frames.names = namesAfter start opts recs
  known : ∀ e ∈ st.edges, ∃ p c, st.frames.names[e.1.1]? = some p ∧
    st.frames.names[e.1.2]? = some c
  edges : st.edges.map (fun e => st.frames.edge e.1) = edgeKeys opts recs
  index : ∀ key, st.index key = position (st.edges.map Prod.fst) key
  rows : ∀ e ∈ st.edges, ∃ en, entry (st.frames.edge e.1) = some en ∧ en.row = e.2
  unseen : ∀ k, k ∉ edgeKeys opts recs → entry k = none
  statics : StaticsOk st.statics
  onFile : ∀ k, onFileOf st.statics k =
    ((entry k).bind (·.onFile)).map fun file => (file.1, .topic file.2)
  reported : ∀ k, reportedOf st.statics k = ((entry k).map (·.anomalies.staticConflicts)).getD 0
  zeroStampDrops : st.anomalies.zeroStampDrops =
    (named opts recs).countP fun x => !x.2.isStatic && stampOf x.2 == 0
  futureStamps : st.anomalies.futureStamps =
    (named opts recs).countP fun x => isFuture opts x.2
  worst : st.anomalies.worstFutureOffsetNs = worstAhead opts ((named opts recs).map Prod.snd)
  outOfOrder : st.anomalies.outOfOrder = sumOver (edgeKeys opts recs) fun k =>
    ((entry k).map (·.anomalies.outOfOrder)).getD 0
  staticConflicts : st.anomalies.staticConflicts = sumOver (edgeKeys opts recs) fun k =>
    ((entry k).map (·.anomalies.staticConflicts)).getD 0
  emptyNames : st.anomalies.emptyNames = recs.countP fun rec => (nameKey opts rec).isNone
  transformsRead : st.transformsRead = recs.length

/-- The variables with a row for the edge `k` of the next record. -/
structure Pass.Opened [Floats F] (start : List String) (opts : IngestOptions)
    (recs : List (RawRecord F)) (entry : String × String → Option (Entry F))
    (k : String × String) (rec : RawRecord F) (slot : ℕ) (key : EdgeKey) (st st₁ : Pass F) :
    Prop where
  tfPrefix : st₁.normalizer.tfPrefix = opts.normalizer.tfPrefix
  frames : st₁.frames.Ok
  names : st₁.frames.names = namesAfter start opts (recs ++ [rec])
  known : ∀ e ∈ st₁.edges, ∃ p c, st₁.frames.names[e.1.1]? = some p ∧
    st₁.frames.names[e.1.2]? = some c
  edges : st₁.edges.map (fun e => st₁.frames.edge e.1) = edgeKeys opts (recs ++ [rec])
  index : ∀ key, st₁.index key = position (st₁.edges.map Prod.fst) key
  here : st₁.edges[slot]? = some (key, ((entry k).getD (.fresh opts rec.topic)).row)
  edge : st₁.frames.edge key = k
  rows : ∀ e ∈ st₁.edges, st₁.frames.edge e.1 ≠ k →
    ∃ en, entry (st₁.frames.edge e.1) = some en ∧ en.row = e.2
  statics : st₁.statics = st.statics
  anomalies : st₁.anomalies = st.anomalies
  transformsRead : st₁.transformsRead = st.transformsRead + 1

section Step

variable [Floats F] {start : List String} {opts : IngestOptions} {recs : List (RawRecord F)}
  {rec : RawRecord F} {entry : String × String → Option (Entry F)} {st st₁ : Pass F}
  {k : String × String} {slot : ℕ} {key : EdgeKey}

omit [Floats F] in
/-- The names of a record, interned where neither is refused. -/
theorem normalizePair_spec {n : NameNormalizer} (hn : n.tfPrefix = opts.normalizer.tfPrefix)
    {f : Frames} (hf : f.Ok) (rec : RawRecord F) :
    (normalizePair n rec f).2.1.tfPrefix = opts.normalizer.tfPrefix ∧
    ((nameKey opts rec = none ∧ (normalizePair n rec f).1 = none ∧
        (normalizePair n rec f).2.2 = f) ∨
      ∃ k key, nameKey opts rec = some k ∧ (normalizePair n rec f).1 = some key ∧
        (normalizePair n rec f).2.2.Ok ∧
        (normalizePair n rec f).2.2.names = addNew (addNew f.names k.1) k.2 ∧
        (normalizePair n rec f).2.2.names[key.1]? = some k.1 ∧
        (normalizePair n rec f).2.2.names[key.2]? = some k.2) := by
  have hparent := n.normalize_eq rec.parent
  have htf := n.normalize_tfPrefix rec.parent
  unfold normalizePair nameKey
  rw [← hn, ← hparent]
  generalize n.normalize rec.parent = r at htf
  obtain ⟨parent, n₁⟩ := r
  change n₁.tfPrefix = n.tfPrefix at htf
  cases parent with
  | none => exact ⟨htf, .inl ⟨rfl, rfl, rfl⟩⟩
  | some parent =>
    have hchild := n₁.normalize_eq rec.child
    have htf' := n₁.normalize_tfPrefix rec.child
    rw [htf] at hchild htf'
    rw [← hchild]
    dsimp only
    generalize n₁.normalize rec.child = r at htf'
    obtain ⟨child, n₂⟩ := r
    change n₂.tfPrefix = n.tfPrefix at htf'
    cases child with
    | none => exact ⟨htf', .inl ⟨rfl, rfl, rfl⟩⟩
    | some child =>
      obtain ⟨hok₁, hnames₁, hat₁⟩ := hf.intern parent.name
      obtain ⟨hok₂, hnames₂, hat₂⟩ := hok₁.intern child.name
      refine ⟨htf', .inr ⟨(parent.name, child.name), _, rfl, rfl, hok₂, ?_, ?_, hat₂⟩⟩
      · rw [hnames₂, hnames₁]
      · obtain ⟨more, hmore⟩ := addNew_extends (f.intern parent.name).2.names child.name
        show ((f.intern parent.name).2.intern child.name).2.names[_]? = _
        rw [hnames₂, ← hmore, List.getElem?_append_left (List.getElem?_eq_some_iff.mp hat₁).1]
        exact hat₁

omit [Floats F] in
/-- Two ids of one name are the same. -/
theorem Frames.Ok.id_inj {f : Frames} (hf : f.Ok) {i j : ℕ} {name : String}
    (hi : f.names[i]? = some name) (hj : f.names[j]? = some name) : i = j :=
  (List.getElem?_inj (List.getElem?_eq_some_iff.mp hi).1 hf.nodup).mp (hi.trans hj.symm)

omit [Floats F] in
theorem Frames.name_eq {f : Frames} {i : ℕ} {name : String} (hi : f.names[i]? = some name) :
    f.name i = name := Frames.name_of_extends List.prefix_rfl hi

/-- A row for the edge of the next record: the one there is, or a fresh one. -/
theorem Pass.Holds.open (h : st.Holds start opts recs entry) (hk : nameKey opts rec = some k)
    {normalizer : NameNormalizer} (htf : normalizer.tfPrefix = opts.normalizer.tfPrefix)
    {frames : Frames} (hf : frames.Ok)
    (hnames : frames.names = addNew (addNew st.frames.names k.1) k.2)
    (hp : frames.names[key.1]? = some k.1) (hc : frames.names[key.2]? = some k.2) :
    Pass.Opened start opts recs entry k rec
      (({ st with
        transformsRead := st.transformsRead + 1
        normalizer := normalizer
        frames := frames } : Pass F).slotOf opts key rec.topic).1 key st
      (({ st with
        transformsRead := st.transformsRead + 1
        normalizer := normalizer
        frames := frames } : Pass F).slotOf opts key rec.topic).2 := by
  have hgrow : st.frames.names <+: frames.names := by
    rw [hnames]
    exact (addNew_extends _ _).trans (addNew_extends _ _)
  have hkeep : ∀ e ∈ st.edges, frames.edge e.1 = st.frames.edge e.1 ∧
      ∃ p c, frames.names[e.1.1]? = some p ∧ frames.names[e.1.2]? = some c := by
    intro e he
    obtain ⟨p, c, hp', hc'⟩ := h.known e he
    obtain ⟨more, hmore⟩ := hgrow
    have hp'' : frames.names[e.1.1]? = some p := by
      rw [← hmore, List.getElem?_append_left (List.getElem?_eq_some_iff.mp hp').1, hp']
    have hc'' : frames.names[e.1.2]? = some c := by
      rw [← hmore, List.getElem?_append_left (List.getElem?_eq_some_iff.mp hc').1, hc']
    refine ⟨?_, p, c, hp'', hc''⟩
    unfold Frames.edge
    rw [Frames.name_eq hp', Frames.name_eq hc', Frames.name_eq hp'', Frames.name_eq hc'']
  have hedges : st.edges.map (fun e => frames.edge e.1) = edgeKeys opts recs := by
    rw [← h.edges]
    exact List.map_congr_left fun e he => (hkeep e he).1
  have hedge : frames.edge key = k := by
    unfold Frames.edge
    rw [Frames.name_eq hp, Frames.name_eq hc]
  have hnames' : frames.names = namesAfter start opts (recs ++ [rec]) := by
    rw [namesAfter_concat start hk, ← h.names]
    exact hnames
  have hrows : ∀ e ∈ st.edges, ∃ en, entry (frames.edge e.1) = some en ∧ en.row = e.2 := by
    intro e he
    rw [(hkeep e he).1]
    exact h.rows e he
  -- the ids of the edges are known exactly if their names are
  have hids : ∀ e ∈ st.edges, frames.edge e.1 = k → e.1 = key := by
    intro e he hsame
    obtain ⟨p, c, hp', hc'⟩ := (hkeep e he).2
    unfold Frames.edge at hsame
    rw [Frames.name_eq hp', Frames.name_eq hc'] at hsame
    obtain ⟨rfl, rfl⟩ := Prod.mk.inj hsame
    exact Prod.ext (hf.id_inj hp' hp) (hf.id_inj hc' hc)
  unfold Pass.slotOf
  rw [show ({ st with
    transformsRead := st.transformsRead + 1
    normalizer := normalizer
    frames := frames } : Pass F).index key = st.index key from rfl, h.index]
  cases hpos : position (st.edges.map Prod.fst) key with
  | some i =>
    have hget := getElem?_of_position hpos
    rw [List.getElem?_map, Option.map_eq_some_iff] at hget
    obtain ⟨e, he, hkey⟩ := hget
    have hmem := List.mem_of_getElem? he
    have hin : k ∈ edgeKeys opts recs := by
      rw [← hedges, ← hedge, ← hkey]
      exact List.mem_map_of_mem hmem
    refine ⟨htf, hf, hnames', fun e he => (hkeep e he).2, ?_, h.index, ?_, hedge,
      fun e he _ => hrows e he, rfl, rfl, rfl⟩
    · rw [edgeKeys_concat hk, addNew, if_pos hin]
      exact hedges
    · obtain ⟨en, hen, hrow⟩ := hrows e hmem
      rw [hkey, hedge] at hen
      rw [hen]
      show st.edges[i]? = some (key, en.row)
      rw [he, hrow, ← hkey]
  | none =>
    have hnot := position_eq_none.mp hpos
    have hout : k ∉ edgeKeys opts recs := by
      rw [← hedges]
      intro hmem
      obtain ⟨e, he, hsame⟩ := List.mem_map.mp hmem
      refine hnot ?_
      rw [← hids e he hsame]
      exact List.mem_map_of_mem he
    refine ⟨htf, hf, hnames', ?_, ?_, fun key' => ?_, ?_, hedge, ?_, rfl, rfl, rfl⟩
    · intro e he
      rcases List.mem_append.mp he with he | he
      · exact (hkeep e he).2
      · rw [List.mem_singleton.mp he]
        exact ⟨k.1, k.2, hp, hc⟩
    · show (st.edges ++ [(key, SurveyRow.fresh opts rec.topic)]).map _ = _
      rw [List.map_append, hedges, edgeKeys_concat hk, addNew, if_neg hout, List.map_singleton,
        hedge]
    · show Function.update st.index key _ key' = position
        ((st.edges ++ [(key, SurveyRow.fresh opts rec.topic)]).map Prod.fst) key'
      rw [List.map_append, List.map_singleton]
      by_cases hkey : key' = key
      · subst hkey
        rw [Function.update_self, position_concat hnot, List.length_map]
      · rw [Function.update_of_ne hkey, h.index]
        cases hpos' : position (st.edges.map Prod.fst) key' with
        | some j => rw [position_append [key] hpos']
        | none =>
          refine (position_eq_none.mpr ?_).symm
          rw [List.mem_append, List.mem_singleton]
          rintro (hmem | rfl)
          · exact position_eq_none.mp hpos' hmem
          · exact hkey rfl
    · rw [h.unseen k hout]
      exact List.getElem?_concat_length
    · intro e he hne
      rcases List.mem_append.mp he with he | he
      · exact hrows e he
      · rw [List.mem_singleton.mp he] at hne
        exact absurd hedge hne

omit [Floats F] in
theorem edgeKeys_nodup : (edgeKeys opts recs).Nodup := nodup_firstSeen _

/-- The row of the next record, with its new entry. -/
theorem Pass.Opened.rows_set {e' : Entry F}
    (ho : Pass.Opened start opts recs entry k rec slot key st st₁) :
    ∀ x ∈ st₁.edges.set slot (key, e'.row),
      ∃ en, Function.update entry k (some e') (st₁.frames.edge x.1) = some en ∧ en.row = x.2 := by
  intro x hx
  obtain ⟨i, hi, rfl⟩ := List.getElem_of_mem hx
  rw [List.length_set] at hi
  have hslot := (List.getElem?_eq_some_iff.mp ho.here).1
  by_cases hsame : slot = i
  · subst hsame
    refine ⟨e', ?_, ?_⟩
    · rw [List.getElem_set_self, ho.edge, Function.update_self]
    · rw [List.getElem_set_self]
  · rw [List.getElem_set_ne hsame]
    have hne : st₁.frames.edge st₁.edges[i].1 ≠ k := by
      intro hk
      -- the names of the rows differ
      have hnodup : (st₁.edges.map fun e => st₁.frames.edge e.1).Nodup := by
        rw [ho.edges]
        exact edgeKeys_nodup
      have hat : (st₁.edges.map fun e => st₁.frames.edge e.1)[slot]? =
          (st₁.edges.map fun e => st₁.frames.edge e.1)[i]? := by
        rw [List.getElem?_map, List.getElem?_map, ho.here, List.getElem?_eq_getElem hi]
        show some (st₁.frames.edge key) = some (st₁.frames.edge st₁.edges[i].1)
        rw [ho.edge, hk]
      exact hsame ((List.getElem?_inj (by rwa [List.length_map]) hnodup).mp hat)
    obtain ⟨en, hen, hrow⟩ := ho.rows _ (List.getElem_mem hi) hne
    exact ⟨en, by rw [Function.update_of_ne hne, hen], hrow⟩

/-- The variables behind the next record hold its entry. -/
theorem Pass.Holds.close (h : st.Holds start opts recs entry)
    (ho : Pass.Opened start opts recs entry k rec slot key st st₁) (hk : nameKey opts rec = some k)
    {e : Entry F} (he : (entry k).getD (.fresh opts rec.topic) = e) (e' : Entry F)
    (statics : StaticStore F) (anomalies : Anomalies) (details : List (StaticConflict F))
    (hstatics : StaticsOk statics)
    (hfile : onFileOf statics = Function.update (onFileOf st.statics) k
      (e'.onFile.map fun file => (file.1, .topic file.2)))
    (hreported : reportedOf statics =
      Function.update (reportedOf st.statics) k e'.anomalies.staticConflicts)
    (hzero : anomalies.zeroStampDrops = st.anomalies.zeroStampDrops +
      if !rec.isStatic && stampOf rec == 0 then 1 else 0)
    (hfuture : anomalies.futureStamps = st.anomalies.futureStamps +
      if isFuture opts rec then 1 else 0)
    (hworst : anomalies.worstFutureOffsetNs = if isFuture opts rec then
      max st.anomalies.worstFutureOffsetNs (satSub (stampOf rec) rec.logTimeNs)
      else st.anomalies.worstFutureOffsetNs)
    (hout : anomalies.outOfOrder + e.anomalies.outOfOrder =
      st.anomalies.outOfOrder + e'.anomalies.outOfOrder)
    (hconflict : anomalies.staticConflicts + e.anomalies.staticConflicts =
      st.anomalies.staticConflicts + e'.anomalies.staticConflicts)
    (hempty : anomalies.emptyNames = st.anomalies.emptyNames) :
    Pass.Holds start opts (recs ++ [rec]) (Function.update entry k (some e')) { st₁ with
      statics := statics
      edges := st₁.edges.set slot (key, e'.row)
      anomalies := anomalies
      staticConflictDetails := details } := by
  have hslot := (List.getElem?_eq_some_iff.mp ho.here).1
  have hfirst : (st₁.edges.set slot (key, e'.row)).map Prod.fst = st₁.edges.map Prod.fst := by
    apply List.ext_getElem?
    intro i
    rw [List.getElem?_map, List.getElem?_map]
    by_cases hi : slot = i
    · subst hi
      rw [List.getElem?_set_self hslot, ho.here]
      rfl
    · rw [List.getElem?_set_ne hi]
  have hnamed : named opts (recs ++ [rec]) = named opts recs ++ [(k, rec)] := by
    rw [named_concat, hk]
  have hcount : ∀ (g : Entry F → ℕ), g (Entry.fresh opts rec.topic) = 0 →
      sumOver (edgeKeys opts (recs ++ [rec]))
        (fun k' => ((Function.update entry k (some e') k').map g).getD 0) + g e =
      sumOver (edgeKeys opts recs) (fun k' => ((entry k').map g).getD 0) + g e' := by
    intro g hg
    have hupd : (fun k' => ((Function.update entry k (some e') k').map g).getD 0) =
        Function.update (fun k' => ((entry k').map g).getD 0) k (g e') := by
      funext k'
      by_cases hk' : k' = k
      · subst hk'
        rw [Function.update_self, Function.update_self]
        rfl
      · rw [Function.update_of_ne hk', Function.update_of_ne hk']
    have hold : g e = ((entry k).map g).getD 0 := by
      rw [← he]
      cases entry k with
      | none => exact hg
      | some en => rfl
    rw [hupd, edgeKeys_concat hk, hold]
    refine sumOver_addNew edgeKeys_nodup (fun hnew => ?_) (g e')
    rw [h.unseen k hnew]
    rfl
  refine ⟨ho.tfPrefix, ho.frames, ho.names, fun x hx => ?_, ?_, fun key' => ?_, ho.rows_set,
    fun k' hk' => ?_, hstatics, fun k' => ?_, fun k' => ?_, ?_, ?_, ?_, ?_, ?_, ?_, ?_⟩
  · have hmem : x.1 ∈ st₁.edges.map Prod.fst := hfirst ▸ List.mem_map_of_mem hx
    obtain ⟨y, hy, hxy⟩ := List.mem_map.mp hmem
    rw [← hxy]
    exact ho.known y hy
  · rw [← ho.edges]
    have hboth := congrArg (List.map st₁.frames.edge) hfirst
    rw [List.map_map, List.map_map] at hboth
    exact hboth
  · rw [hfirst]
    exact ho.index key'
  · rw [edgeKeys_concat hk, mem_addNew, not_or] at hk'
    rw [Function.update_of_ne hk'.2, h.unseen k' hk'.1]
  · rw [hfile]
    by_cases hk' : k' = k
    · subst hk'
      rw [Function.update_self, Function.update_self]
      rfl
    · rw [Function.update_of_ne hk', Function.update_of_ne hk', h.onFile]
  · rw [hreported]
    by_cases hk' : k' = k
    · subst hk'
      rw [Function.update_self, Function.update_self]
      rfl
    · rw [Function.update_of_ne hk', Function.update_of_ne hk', h.reported]
  · rw [hnamed, List.countP_append, List.countP_singleton, ← h.zeroStampDrops]
    exact hzero
  · rw [hnamed, List.countP_append, List.countP_singleton, ← h.futureStamps]
    exact hfuture
  · rw [hnamed, List.map_append, List.map_singleton, worstAhead_concat, ← h.worst]
    exact hworst
  · have hsum := hcount (fun en => en.anomalies.outOfOrder) rfl
    rw [← h.outOfOrder] at hsum
    show anomalies.outOfOrder = _
    omega
  · have hsum := hcount (fun en => en.anomalies.staticConflicts) rfl
    rw [← h.staticConflicts] at hsum
    show anomalies.staticConflicts = _
    omega
  · rw [List.countP_append, List.countP_singleton, hk, ← h.emptyNames]
    exact hempty
  · rw [List.length_append, ← h.transformsRead]
    exact ho.transformsRead

/-- A static record of an edge that has a row. -/
theorem Pass.Holds.observeStatic (h : st.Holds start opts recs entry)
    (ho : Pass.Opened start opts recs entry k rec slot key st st₁) (hk : nameKey opts rec = some k)
    (hstatic : rec.isStatic = true) :
    (∃ e st', Entry.observe opts (entry k) rec = .ok e ∧
      st₁.observeStatic slot key rec = .ok st' ∧
      Pass.Holds start opts (recs ++ [rec]) (Function.update entry k e) st') ∨
    ∃ fault err, Entry.observe opts (entry k) rec = .error fault ∧
      st₁.observeStatic slot key rec = .error (.error err) := by
  have hfuture : isFuture opts rec = false := by simp [isFuture, isSample, hstatic]
  have hp : st₁.frames.name key.1 = k.1 := congrArg Prod.fst ho.edge
  have hc : st₁.frames.name key.2 = k.2 := congrArg Prod.snd ho.edge
  have hfile : onFileOf st.statics k =
      ((entry k).getD (.fresh opts rec.topic)).onFile.map fun file => (file.1, .topic file.2) := by
    rw [h.onFile]
    cases entry k with
    | none => rfl
    | some e => rfl
  have hreported : reportedOf st.statics k =
      ((entry k).getD (.fresh opts rec.topic)).anomalies.staticConflicts := by
    rw [h.reported]
    cases entry k with
    | none => rfl
    | some e => rfl
  obtain ⟨v, statics, hobserve, hok, hcases⟩ := observeStatic_spec h.statics k.1 k.2
    (Vector.ofFn rec.pose) (.topic rec.topic)
  have hhere := ho.here
  unfold Pass.observeStatic
  rw [ho.here, hp, hc, ho.statics, hobserve, Entry.observe_getD]
  generalize he : (entry k).getD (.fresh opts rec.topic) = e at hfile hreported hhere
  rw [Entry.observe_eq_static hstatic]
  dsimp only
  by_cases hseen : e.row.dynamicSeen = true
  · rw [if_pos hseen, if_pos hseen]
    exact .inr ⟨_, _, rfl, rfl⟩
  · rw [if_neg hseen, if_neg hseen]
    refine .inl ?_
    have hclose := fun (e' : Entry F) anomalies details hf hr hz hfu hw ho' hco hem =>
      h.close ho hk he e' statics anomalies details hok hf hr hz hfu hw ho' hco hem
    have hset : st₁.edges.set slot (key, e.row) = st₁.edges := by
      obtain ⟨hlt, hget⟩ := List.getElem?_eq_some_iff.mp hhere
      rw [← hget, List.set_getElem_self]
    rcases hcases with ⟨hnone, rfl, hfile', hrep'⟩ | ⟨existing, owner, hsome, hfile', hcases⟩
    · -- the first static record of the edge
      have hnofile : e.onFile = none := Option.map_eq_none_iff.mp (hfile.symm.trans hnone)
      rw [hnofile]
      refine ⟨_, _, rfl, rfl, ?_⟩
      have hthis := hclose ⟨{ e.row with staticPose := some rec.pose },
        some (Vector.ofFn rec.pose, rec.topic), e.anomalies⟩ st₁.anomalies
        st₁.staticConflictDetails
      rw [ho.anomalies] at hthis
      have hholds := hthis hfile' ?_ ?_ ?_ ?_ rfl rfl rfl
      · rw [← ho.anomalies] at hholds
        exact hholds
      · rw [hrep', ← hreported, Function.update_eq_self]
      · simp [hstatic]
      · simp [hfuture]
      · simp [hfuture]
    · obtain ⟨file, hfile₀, hpair⟩ := Option.map_eq_some_iff.mp (hfile.symm.trans hsome)
      obtain ⟨rfl, rfl⟩ := Prod.mk.inj hpair
      have hsamefile : onFileOf statics = Function.update (onFileOf st.statics) k
          (e.onFile.map fun file => (file.1, .topic file.2)) := by
        rw [hfile', ← hfile, Function.update_eq_self]
      rw [hfile₀]
      rcases hcases with ⟨hsame, rfl, hrep'⟩ | ⟨hdiffers, rfl, hrep'⟩
      · -- the same pose again
        dsimp only
        rw [if_pos hsame]
        refine ⟨_, _, rfl, rfl, ?_⟩
        have hthis := hclose e st₁.anomalies st₁.staticConflictDetails
        rw [ho.anomalies, hset] at hthis
        have hholds := hthis hsamefile ?_ ?_ ?_ ?_ rfl rfl rfl
        · rw [← ho.anomalies] at hholds
          exact hholds
        · rw [hrep', ← hreported, Function.update_eq_self]
        · simp [hstatic]
        · simp [hfuture]
        · simp [hfuture]
      · -- another pose
        dsimp only
        rw [if_neg (by simp [hdiffers])]
        refine ⟨_, _, rfl, rfl, ?_⟩
        have hthis := hclose { e with
          anomalies.staticConflicts := e.anomalies.staticConflicts + 1 } { st₁.anomalies with
          staticConflicts := st₁.anomalies.staticConflicts + 1 } (if decide (reportedOf st.statics
            (k.1, k.2) = 0) = true then st₁.staticConflictDetails ++ [⟨key, file.1,
              Vector.ofFn rec.pose, (publisherLabel (.topic file.2)).getD "",
              (publisherLabel (.topic rec.topic)).getD ""⟩] else st₁.staticConflictDetails)
        rw [ho.anomalies, hset] at hthis
        have hholds := hthis hsamefile ?_ ?_ ?_ ?_ rfl ?_ rfl
        · rw [← ho.anomalies, hfile₀] at hholds
          exact hholds
        · rw [hrep', ← hreported]
        · simp [hstatic]
        · simp [hfuture]
        · simp [hfuture]
        · show st.anomalies.staticConflicts + 1 + _ = _ + (_ + 1)
          omega

/-- The anomalies behind a dynamic record that is taken; `late` is whether it comes late. -/
def Anomalies.dynamic (opts : IngestOptions) (rec : RawRecord F) (late : ℕ) (a : Anomalies) :
    Anomalies where
  zeroStampDrops := a.zeroStampDrops + if !rec.isStatic && stampOf rec == 0 then 1 else 0
  futureStamps := a.futureStamps + if isFuture opts rec then 1 else 0
  worstFutureOffsetNs := if isFuture opts rec then
    max a.worstFutureOffsetNs (satSub (stampOf rec) rec.logTimeNs) else a.worstFutureOffsetNs
  outOfOrder := a.outOfOrder + late
  staticConflicts := a.staticConflicts
  emptyNames := a.emptyNames

omit [Floats F] in
/-- A dynamic record on a row, whatever the anomalies are. -/
theorem observeDynamic_cases (opts : IngestOptions) (row : SurveyRow F)
    (hdynamic : rec.isStatic = false) :
    (∃ fault, ∀ a, row.observeDynamic opts rec a = .error fault) ∨
    ∃ row' late, ∀ a, row.observeDynamic opts rec a = .ok (row', a.dynamic opts rec late) := by
  unfold SurveyRow.observeDynamic Anomalies.dynamic
  by_cases hpose : row.staticPose.isSome = true
  · simp only [if_pos hpose]
    exact .inl ⟨_, fun _ => rfl⟩
  · simp only [if_neg hpose]
    by_cases hzero : rec.stampNs.toInt = 0
    · have hfuture : isFuture opts rec = false := by simp [isFuture, isSample, stampOf, hzero]
      refine .inr ⟨{ row with dynamicSeen := true }, 0, fun a => ?_⟩
      rw [if_pos hzero, hfuture]
      simp [stampOf, hzero, hdynamic]
    · have hfuture : isFuture opts rec =
          decide (satSub rec.stampNs.toInt rec.logTimeNs > opts.futureHorizonNs) := by
        simp [isFuture, isSample, stampOf, hzero, hdynamic]
      simp only [if_neg hzero, hfuture]
      rcases row.clock.observe rec.stampNs.toInt with ⟨verdict, clock⟩
      cases verdict with
      | reset n policy => exact .inl ⟨_, fun _ => rfl⟩
      | forward =>
        refine .inr ⟨{ row with dynamicSeen := true, clock := clock }.count rec.stampNs.toInt, 0,
          fun a => ?_⟩
        by_cases hahead : satSub rec.stampNs.toInt rec.logTimeNs > opts.futureHorizonNs
        · simp [stampOf, hzero, hahead]
        · simp [stampOf, hzero, hahead]
      | jitter n =>
        refine .inr ⟨{ row with dynamicSeen := true, clock := clock }.count rec.stampNs.toInt, 1,
          fun a => ?_⟩
        by_cases hahead : satSub rec.stampNs.toInt rec.logTimeNs > opts.futureHorizonNs
        · simp [stampOf, hzero, hahead]
        · simp [stampOf, hzero, hahead]

/-- A dynamic record of an edge that has a row. -/
theorem Pass.Holds.observeDynamic (h : st.Holds start opts recs entry)
    (ho : Pass.Opened start opts recs entry k rec slot key st st₁) (hk : nameKey opts rec = some k)
    (hdynamic : rec.isStatic = false) :
    (∃ e st', Entry.observe opts (entry k) rec = .ok e ∧
      st₁.observeDynamic opts slot key rec = .ok st' ∧
      Pass.Holds start opts (recs ++ [rec]) (Function.update entry k e) st') ∨
    ∃ fault err, Entry.observe opts (entry k) rec = .error fault ∧
      st₁.observeDynamic opts slot key rec = .error (.error err) := by
  have hhere := ho.here
  unfold Pass.observeDynamic
  rw [ho.here, Entry.observe_getD, Entry.observe_eq_dynamic hdynamic]
  have hfile : onFileOf st.statics k =
      ((entry k).getD (.fresh opts rec.topic)).onFile.map fun file => (file.1, .topic file.2) := by
    rw [h.onFile]
    cases entry k with
    | none => rfl
    | some e => rfl
  have hreported : reportedOf st.statics k =
      ((entry k).getD (.fresh opts rec.topic)).anomalies.staticConflicts := by
    rw [h.reported]
    cases entry k with
    | none => rfl
    | some e => rfl
  generalize he : (entry k).getD (.fresh opts rec.topic) = e at hfile hreported hhere
  dsimp only
  rcases observeDynamic_cases opts e.row hdynamic with ⟨fault, hfault⟩ | ⟨row', late, hok⟩
  · rw [hfault, hfault]
    refine .inr ⟨fault, ?_⟩
    cases fault with
    | kindChanged => exact ⟨_, rfl, rfl⟩
    | clockReset n =>
      cases opts.onClockReset with
      | halt => exact ⟨_, rfl, rfl⟩
      | split => exact ⟨_, rfl, rfl⟩
  · rw [hok, hok]
    refine .inl ⟨_, _, rfl, rfl, ?_⟩
    have hholds := h.close ho hk he ⟨row', e.onFile, e.anomalies.dynamic opts rec late⟩
      st₁.statics (st₁.anomalies.dynamic opts rec late) st₁.staticConflictDetails
    rw [ho.statics, ho.anomalies] at hholds
    have hholds' := hholds h.statics ?_ ?_ rfl rfl rfl ?_ ?_ rfl
    · rw [← ho.statics, ← ho.anomalies] at hholds'
      exact hholds'
    · rw [← hfile, Function.update_eq_self]
    · show reportedOf st.statics =
        Function.update (reportedOf st.statics) k e.anomalies.staticConflicts
      rw [← hreported, Function.update_eq_self]
    · show st.anomalies.outOfOrder + late + _ = _ + (_ + late)
      omega
    · rfl

/-- **Step lemma.** A record with a refused name is counted; another one changes the entry of
its edge, or stops the survey if its edge refuses it. -/
theorem Pass.Holds.step (h : st.Holds start opts recs entry) (rec : RawRecord F) :
    (nameKey opts rec = none ∧ ∃ st', st.step opts rec = .ok st' ∧
      st'.Holds start opts (recs ++ [rec]) entry) ∨
    ∃ k, nameKey opts rec = some k ∧
      ((∃ e st', Entry.observe opts (entry k) rec = .ok e ∧ st.step opts rec = .ok st' ∧
        st'.Holds start opts (recs ++ [rec]) (Function.update entry k e)) ∨
      ∃ fault err, Entry.observe opts (entry k) rec = .error fault ∧
        st.step opts rec = .error (.error err)) := by
  obtain ⟨htf, hpair⟩ := normalizePair_spec h.tfPrefix h.frames rec
  unfold Pass.step
  dsimp only
  generalize normalizePair st.normalizer rec st.frames = r at htf hpair
  obtain ⟨key, normalizer, frames⟩ := r
  dsimp only at htf hpair
  rcases hpair with ⟨hk, rfl, rfl⟩ | ⟨k, key, hk, rfl, hok, hnames, hp, hc⟩
  · have hnamed : named opts (recs ++ [rec]) = named opts recs := by
      rw [named_concat, hk, List.append_nil]
    have hkeys : edgeKeys opts (recs ++ [rec]) = edgeKeys opts recs := by
      rw [edgeKeys, hnamed]
      rfl
    refine .inl ⟨hk, _, rfl, htf, h.frames, ?_, h.known, ?_, h.index, h.rows, ?_, h.statics,
      h.onFile, h.reported, ?_, ?_, ?_, ?_, ?_, ?_, ?_⟩
    · rw [namesAfter, hnamed]
      exact h.names
    · rw [hkeys]
      exact h.edges
    · rw [hkeys]
      exact h.unseen
    · rw [hnamed]
      exact h.zeroStampDrops
    · rw [hnamed]
      exact h.futureStamps
    · rw [hnamed]
      exact h.worst
    · rw [hkeys]
      exact h.outOfOrder
    · rw [hkeys]
      exact h.staticConflicts
    · rw [List.countP_append, List.countP_singleton, hk, ← h.emptyNames]
      rfl
    · rw [List.length_append, ← h.transformsRead]
      rfl
  · refine .inr ⟨k, hk, ?_⟩
    have ho := h.open hk htf hok hnames hp hc
    cases hstatic : rec.isStatic with
    | true => exact h.observeStatic ho hk hstatic
    | false => exact h.observeDynamic ho hk hstatic

end Step

end TfTree.Offline
