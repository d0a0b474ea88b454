import TfTree.Bridge.Emit

/-!
# A topology file is read back

Results:
* `parse_valid`: what the parser accepts is valid.
* `parse_toToml_iff`: a topology is read back from its file exactly if it is valid.
* `parse_toToml_of_parse`: an accepted topology is read back from its file.
-/

namespace TfTree.Bridge

open Data

variable {F : Type}

/-! ## Valid topologies -/

/-- A ring size the parser takes. -/
def RingSize.Valid [Floats F] : RingSize F → Prop
  | .slots n => 0 < n ∧ n < 2 ^ 32
  | .history rateHz secs => finiteHistory rateHz secs = true

/-- A pose the parser takes. -/
def PoseValid [Floats F] (pose : PoseWords F) : Prop :=
  (∀ x ∈ pose.toList, Floats.isFinite x = true) ∧ isUnit pose = true

/-- A shape the parser takes. -/
def EdgeShape.Valid [Floats F] : EdgeShape F → Prop
  | .static pose => PoseValid pose
  | .dynamic ring => ring.Valid

/-- An edge the parser takes on its own. -/
structure EdgeConfig.Valid [Floats F] (e : EdgeConfig F) : Prop where
  parent : frameNameOk e.parent = true
  child : frameNameOk e.child = true
  ne : e.parent ≠ e.child
  shape : e.shape.Valid
  domain : ∀ d, e.domain = some d → d < 2 ^ 8

/-- A topology the parser takes: a frame has one parent, and a listed frame none. -/
structure TopologyConfig.Valid [Floats F] (c : TopologyConfig F) : Prop where
  frames : ∀ f ∈ c.frames, frameNameOk f = true
  fresh : ∀ f ∈ c.frames, f ∉ c.edges.flatMap EdgeConfig.endpoints
  headroom : c.frameHeadroom < 2 ^ 32
  domain : c.defaultDomain < 2 ^ 8
  edges : ∀ e ∈ c.edges, e.Valid
  children : (c.edges.map EdgeConfig.child).Nodup

/-! ## The tables of a file -/

section Tables

variable [Floats F] {ls : List (List Char)} {t t' : Tables F} {table : Table F} {i : ℕ}

omit [Floats F] in
theorem lines_tomlText (h : ∀ l ∈ ls, '\n' ∉ l ∧ Solid l) : lines (tomlText ls) = ls := by
  induction ls with
  | nil => rfl
  | cons l ls ih =>
    obtain ⟨hline, hsolid⟩ := h l List.mem_cons_self
    have htext : tomlText (l :: ls) = l ++ '\n' :: tomlText ls := by simp [tomlText]
    rw [htext, lines_append hline, stripCr_solid hsolid,
      ih fun l hl => h l (List.mem_cons_of_mem _ hl)]

theorem parseLines_append (ls ls' : List (List Char)) :
    parseLines t i (ls ++ ls') =
      (parseLines t i ls >>= fun t => parseLines t (i + ls.length) ls') := by
  induction ls generalizing t i with
  | nil => rfl
  | cons l ls ih =>
    show (parseLine t _ l >>= fun t => parseLines t (i + 1) (ls ++ ls')) =
      ((parseLine t _ l >>= fun t => parseLines t (i + 1) ls) >>= _)
    cases parseLine t (min (i + 1) (2 ^ 32 - 1)) l with
    | error e => rfl
    | ok t₁ =>
      show parseLines t₁ (i + 1) (ls ++ ls') = (parseLines t₁ (i + 1) ls >>= _)
      rw [ih, List.length_cons, Nat.add_right_comm, Nat.add_assoc]

/-- The keys and values of a table, without the lines. -/
def Table.erase (t : Table F) : List (String × Value F) := t.map fun e => (e.1, e.2.1)

omit [Floats F] in
theorem Table.erase_keys (t : Table F) : t.erase.map Prod.fst = t.map Prod.fst := by
  simp [Table.erase]

omit [Floats F] in
theorem Tables.withCurrent_self (h : t.current = some table) : t.withCurrent table = t := by
  obtain ⟨topology, edges, cur⟩ := t
  cases cur with
  | none => cases h
  | some cur =>
    cases cur with
    | topology =>
      cases h
      rfl
    | edge =>
      have h : edges.getLast? = some table := h
      show (⟨topology, edges.dropLast ++ [table], _⟩ : Tables F) = _
      rw [List.dropLast_append_getLast? table h]

omit [Floats F] in
theorem Tables.current_withCurrent (h : t.current = some table) (table' : Table F) :
    (t.withCurrent table').current = some table' ∧
      ∀ table'', (t.withCurrent table').withCurrent table'' = t.withCurrent table'' := by
  obtain ⟨topology, edges, cur⟩ := t
  cases cur with
  | none => cases h
  | some cur =>
    cases cur with
    | topology => exact ⟨rfl, fun _ => rfl⟩
    | edge =>
      refine ⟨?_, fun table'' => ?_⟩
      · show (edges.dropLast ++ [table']).getLast? = some table'
        simp
      · show (⟨topology, (edges.dropLast ++ [table']).dropLast ++ [table''], _⟩ : Tables F) = _
        rw [List.dropLast_concat]
        rfl

/-- **Run lemma.** Fields with different keys are all added to the current table. -/
theorem parseLines_fields [Decimal F] {fields : List (String × Value F)}
    (hok : ∀ f ∈ fields, FieldOk f) (hnd : (fields.map Prod.fst).Nodup)
    (ht : t.current = some table) (hnew : ∀ f ∈ fields, f.1 ∉ table.map Prod.fst) :
    ∃ added : Table F, added.erase = fields ∧
      parseLines t i (fields.map fieldLine) = .ok (t.withCurrent (table ++ added)) := by
  induction fields generalizing t table i with
  | nil =>
    refine ⟨[], rfl, ?_⟩
    rw [List.append_nil, Tables.withCurrent_self ht]
    rfl
  | cons f fields ih =>
    rw [List.map_cons, List.nodup_cons] at hnd
    obtain ⟨hcur, hwith⟩ := Tables.current_withCurrent ht
      (table ++ [(f.1, f.2, min (i + 1) (2 ^ 32 - 1))])
    obtain ⟨added, herase, hrest⟩ := ih (i := i + 1)
      (fun g hg => hok g (List.mem_cons_of_mem _ hg)) hnd.2 hcur (by
        intro g hg
        rw [List.map_append, List.mem_append, not_or]
        refine ⟨hnew g (List.mem_cons_of_mem _ hg), ?_⟩
        simp only [List.map_cons, List.map_nil, List.mem_singleton]
        intro heq
        exact hnd.1 (heq ▸ List.mem_map_of_mem hg))
    refine ⟨(f.1, f.2, min (i + 1) (2 ^ 32 - 1)) :: added, ?_, ?_⟩
    · show f :: added.erase = f :: fields
      rw [herase]
    · show (parseLine t _ (fieldLine f) >>=
        fun t => parseLines t (i + 1) (fields.map fieldLine)) = _
      rw [parseLine_field (hok f List.mem_cons_self) ht (hnew f List.mem_cons_self)]
      show parseLines _ (i + 1) (fields.map fieldLine) = _
      rw [hrest, hwith, List.append_assoc]
      rfl

end Tables

/-! ## The file of a topology -/

section File

variable [Floats F] {c : TopologyConfig F} {e : EdgeConfig F} {t : Tables F} {i : ℕ}

theorem frameNameOk_iff {name : String} : frameNameOk name = true ↔
    name ≠ "" ∧ ∀ x ∈ name.toList, isControl x = false ∧ x ≠ '"' ∧ x ≠ '\\' := by
  simp only [frameNameOk, Bool.and_eq_true, decide_eq_true_eq, Bool.not_eq_true',
    List.any_eq_false, Bool.or_eq_true, beq_iff_eq, not_or, Bool.not_eq_true]
  constructor
  · rintro ⟨hne, h⟩
    exact ⟨hne, fun x hx => ⟨(h x hx).1.1, (h x hx).1.2, (h x hx).2⟩⟩
  · rintro ⟨hne, h⟩
    exact ⟨hne, fun x hx => ⟨⟨(h x hx).1, (h x hx).2.1⟩, (h x hx).2.2⟩⟩

/-- A frame name stands on one line, and needs no escape. -/
theorem writable_name {name : String} (h : frameNameOk name = true) :
    Writable (.str name : Value F) := by
  obtain ⟨-, hchars⟩ := frameNameOk_iff.mp h
  rw [Writable]
  refine ⟨fun hx => (hchars _ hx).2.1 rfl, fun hx => (hchars _ hx).2.2 rfl, fun hx => ?_⟩
  exact absurd (hchars _ hx).1 (by decide)

theorem allWritable_iff {vs : List (Value F)} : AllWritable vs ↔ ∀ v ∈ vs, Writable v := by
  induction vs with
  | nil => simp [AllWritable]
  | cons v vs ih => simp [AllWritable, ih]

theorem writable_nat {n : ℕ} (h : n < 2 ^ 32) : Writable (.int n : Value F) := by
  rw [Writable]
  omega

theorem writable_interp (p : InterpPolicy) : Writable (.str (interpName p) : Value F) := by
  cases p <;> rw [Writable] <;> decide

theorem finiteHistory_iff {rateHz secs : F} : finiteHistory rateHz secs = true ↔
    Floats.isFinite rateHz = true ∧ Floats.lt 0 rateHz = true ∧ Floats.isFinite secs = true ∧
      Floats.lt 0 secs = true ∧ Floats.isFinite (rateHz * secs) = true := by
  simp only [finiteHistory, Bool.and_eq_true, and_assoc]

/-- A key of the schema. -/
def IsKey (key : String) : Prop := key ≠ "" ∧ key.toList.all isKeyChar = true

instance (key : String) : Decidable (IsKey key) := by
  unfold IsKey
  infer_instance

theorem FieldOk.of {key : String} {v : Value F} (h : IsKey key) (hv : Writable v) :
    FieldOk (key, v) :=
  ⟨h.1, List.all_eq_true.mp h.2, hv⟩

theorem TopologyConfig.Valid.fieldOk (h : c.Valid) : ∀ f ∈ c.fields, FieldOk f := by
  have hframes : Writable (.array (c.frames.map .str) : Value F) := by
    rw [Writable, allWritable_iff]
    intro v hv
    obtain ⟨f, hf, rfl⟩ := List.mem_map.mp hv
    exact writable_name (h.frames f hf)
  have hdomain : Writable (.int c.defaultDomain : Value F) :=
    writable_nat (h.domain.trans (by decide))
  simp only [TopologyConfig.fields, List.forall_mem_cons, List.not_mem_nil, false_imp_iff,
    implies_true, and_true]
  exact ⟨.of (by decide) (writable_interp _), .of (by decide) hdomain, .of (by decide) hframes,
    .of (by decide) (writable_nat h.headroom)⟩

theorem EdgeShape.Valid.fieldOk {shape : EdgeShape F} (h : shape.Valid) :
    ∀ f ∈ shape.fields, FieldOk f := by
  have hkind : ∀ k ∈ ["static", "dynamic"], Writable (.str k : Value F) := by
    intro k hk
    rw [Writable]
    revert k
    decide
  cases shape with
  | static pose =>
    have hpose : Writable (.array (pose.toList.map .float) : Value F) := by
      rw [Writable, allWritable_iff]
      intro v hv
      obtain ⟨x, hx, rfl⟩ := List.mem_map.mp hv
      rw [Writable]
      exact h.1 x hx
    simp only [EdgeShape.fields, List.forall_mem_cons, List.not_mem_nil, false_imp_iff,
      implies_true, and_true]
    exact ⟨.of (by decide) (hkind _ (by simp)), .of (by decide) hpose⟩
  | dynamic ring =>
    cases ring with
    | slots n =>
      simp only [EdgeShape.fields, List.forall_mem_cons, List.not_mem_nil, false_imp_iff,
        implies_true, and_true]
      exact ⟨.of (by decide) (hkind _ (by simp)), .of (by decide) (writable_nat h.2)⟩
    | history rateHz secs =>
      obtain ⟨hrate, -, hsecs, -⟩ := finiteHistory_iff.mp h
      simp only [EdgeShape.fields, List.forall_mem_cons, List.not_mem_nil, false_imp_iff,
        implies_true, and_true]
      exact ⟨.of (by decide) (hkind _ (by simp)), .of (by decide) (by rw [Writable]; exact hrate),
        .of (by decide) (by rw [Writable]; exact hsecs)⟩

theorem EdgeConfig.Valid.fieldOk (h : e.Valid) : ∀ f ∈ e.fields, FieldOk f := by
  intro f hf
  simp only [EdgeConfig.fields, List.mem_append, List.mem_cons, List.not_mem_nil, or_false,
    Option.mem_toList, Option.map_eq_some_iff] at hf
  rcases hf with (((rfl | rfl) | hf) | ⟨p, -, rfl⟩) | ⟨d, hd, rfl⟩
  · exact .of (by decide) (writable_name h.parent)
  · exact .of (by decide) (writable_name h.child)
  · exact h.shape.fieldOk f hf
  · exact .of (by decide) (writable_interp p)
  · exact .of (by decide) (writable_nat ((h.domain d hd).trans (by decide)))

omit [Floats F] in
/-- The keys `to_toml` writes for an edge, by the shape and the overrides. -/
theorem EdgeConfig.fields_keys (e : EdgeConfig F) :
    (e.fields.map Prod.fst).Nodup ∧ ∀ k ∈ e.fields.map Prod.fst, k ∈ edgeKeys := by
  obtain ⟨parent, child, shape, interp, domain⟩ := e
  rcases shape with pose | n | ⟨rateHz, secs⟩ <;> cases interp <;> cases domain <;>
    simp [EdgeConfig.fields, EdgeShape.fields, edgeKeys]

theorem fields_lines [Decimal F] {fields : List (String × Value F)}
    (h : ∀ f ∈ fields, FieldOk f) : ∀ l ∈ fields.map fieldLine, '\n' ∉ l ∧ Solid l := by
  intro l hl
  obtain ⟨f, hf, rfl⟩ := List.mem_map.mp hl
  exact ⟨fieldLine_newline (h f hf), fieldLine_solid (h f hf)⟩

theorem TopologyConfig.Valid.lines [Decimal F] (h : c.Valid) :
    ∀ l ∈ c.tomlLines, '\n' ∉ l ∧ Solid l := by
  have hfixed : ∀ s ∈ ["# tf_tree topology — docs/PHASE4.md §5.8", "[topology]", "[[edge]]", ""],
      '\n' ∉ s.toList ∧ Solid s.toList := by
    unfold Solid
    intro s hs
    simp only [List.mem_cons, List.not_mem_nil, or_false] at hs
    rcases hs with rfl | rfl | rfl | rfl <;> refine ⟨by decide, ?_, ?_⟩ <;> intro c hc <;>
      (first | cases hc; decide | (revert hc; simp))
  have hedge : ∀ e ∈ c.edges, ∀ l ∈ e.tomlLines, '\n' ∉ l ∧ Solid l := by
    intro e he l hl
    rw [EdgeConfig.tomlLines] at hl
    rcases List.mem_cons.mp hl with rfl | hl
    · exact hfixed "" (by simp)
    · rcases List.mem_cons.mp hl with rfl | hl
      · exact hfixed "[[edge]]" (by simp)
      · exact fields_lines (h.edges e he).fieldOk l hl
  intro l hl
  rw [TopologyConfig.tomlLines] at hl
  rcases List.mem_append.mp hl with hl | hl
  · rcases List.mem_cons.mp hl with rfl | hl
    · exact hfixed _ (by simp)
    · rcases List.mem_cons.mp hl with rfl | hl
      · exact hfixed "[topology]" (by simp)
      · exact fields_lines h.fieldOk l hl
  · obtain ⟨e, he, hl⟩ := List.mem_flatMap.mp hl
    exact hedge e he l hl

/-! ## The tables of the file -/

omit [Floats F] in
theorem TopologyConfig.fields_keys (c : TopologyConfig F) :
    (c.fields.map Prod.fst).Nodup ∧ ∀ k ∈ c.fields.map Prod.fst, k ∈ topologyKeys := by
  simp [TopologyConfig.fields, topologyKeys]

theorem parseLines_cons {u : Tables F} {l : List Char} {ls : List (List Char)}
    (h : ∀ line, parseLine t line l = .ok u) :
    parseLines t i (l :: ls) = parseLines u (i + 1) ls := by
  rw [parseLines, h]
  rfl

/-- The lines of an edge make one more table. -/
theorem parseLines_edge [Decimal F] (h : e.Valid) :
    ∃ added : Table F, added.erase = e.fields ∧ parseLines t i e.tomlLines =
      .ok { t with edges := t.edges ++ [added], cur := some .edge } := by
  have hcur : ({ t with edges := t.edges ++ [[]], cur := some .edge } : Tables F).current =
      some [] := by
    show (t.edges ++ [[]]).getLast? = some []
    simp
  obtain ⟨added, herase, hrun⟩ := parseLines_fields (i := i + 2) h.fieldOk e.fields_keys.1 hcur
    fun f _ => by simp
  refine ⟨added, herase, ?_⟩
  rw [EdgeConfig.tomlLines, parseLines_cons (u := t) fun _ => rfl,
    parseLines_cons (u := { t with edges := t.edges ++ [[]], cur := some .edge }) fun _ => rfl]
  rw [hrun]
  show Except.ok { t with edges := (t.edges ++ [[]]).dropLast ++ [[] ++ added], cur := _ } = _
  rw [List.dropLast_concat, List.nil_append]

/-- The lines of the edges make a table each. -/
theorem parseLines_edges [Decimal F] {es : List (EdgeConfig F)} (h : ∀ e ∈ es, e.Valid) :
    ∃ added t', List.Forall₂ (fun (a : Table F) e => a.erase = e.fields) added es ∧
      parseLines t i (es.flatMap EdgeConfig.tomlLines) = .ok t' ∧ t'.topology = t.topology ∧
      t'.edges = t.edges ++ added := by
  induction es generalizing t i with
  | nil => exact ⟨[], t, .nil, rfl, rfl, (List.append_nil _).symm⟩
  | cons e es ih =>
    obtain ⟨table, herase, hedge⟩ := parseLines_edge (t := t) (i := i) (h e List.mem_cons_self)
    obtain ⟨added, t', hall, hrest, htop, hedges⟩ :=
      ih (t := { t with edges := t.edges ++ [table], cur := some .edge })
        (i := i + e.tomlLines.length) fun e he => h e (List.mem_cons_of_mem _ he)
    refine ⟨table :: added, t', .cons herase hall, ?_, htop, ?_⟩
    · rw [List.flatMap_cons, parseLines_append, hedge]
      exact hrest
    · rw [hedges, List.append_assoc]
      rfl

/-- The tables of the file of a valid topology. -/
theorem TopologyConfig.Valid.tables [Decimal F] (h : c.Valid) :
    ∃ (top : Table F) (edges : List (Table F)), top.erase = c.fields ∧
      List.Forall₂ (fun (a : Table F) e => a.erase = e.fields) edges c.edges ∧
      ∃ t, parseLines {} 0 c.tomlLines = .ok t ∧ t.topology = some top ∧ t.edges = edges := by
  obtain ⟨top, herase, htop⟩ := parseLines_fields (i := 2)
    (t := { topology := some [], edges := [], cur := some .topology }) h.fieldOk c.fields_keys.1
    rfl fun f _ => by simp
  obtain ⟨edges, t, hall, hedges, htop', heq⟩ := parseLines_edges
    (t := { topology := some top, edges := [], cur := some .topology })
    (i := 2 + (c.fields.map fieldLine).length) h.edges
  refine ⟨top, edges, herase, hall, t, ?_, htop', heq⟩
  show parseLines { topology := some [], edges := [], cur := some .topology } 2
    (c.fields.map fieldLine ++ c.edges.flatMap EdgeConfig.tomlLines) = _
  rw [parseLines_append, htop]
  exact hedges

end File

/-! ## The configuration of the tables -/

section Build

variable [Floats F] {c : TopologyConfig F} {e : EdgeConfig F} {t : Table F} {key : String}
  {v : Value F} {line : ℕ} {culprit : String}

omit [Floats F] in
theorem Table.get_erase (t : Table F) (key : String) :
    (t.get key).map Prod.fst = t.erase.lookup key := by
  induction t with
  | nil => rfl
  | cons e t ih =>
    unfold Table.get at ih ⊢
    by_cases h : e.1 = key
    · simp [Table.erase, h]
    · have h' : (key == e.1) = false := by
        rw [beq_eq_false_iff_ne]
        exact Ne.symm h
      rw [List.find?_cons_of_neg (by simpa using h), ih]
      simp only [Table.erase, List.map_cons, List.lookup_cons, h']

omit [Floats F] in
theorem Table.get_some (h : t.erase.lookup key = some v) : ∃ line, t.get key = some (v, line) := by
  rw [← t.get_erase] at h
  obtain ⟨⟨w, line⟩, hget, hw⟩ := Option.map_eq_some_iff.mp h
  cases hw
  exact ⟨line, hget⟩

omit [Floats F] in
theorem Table.get_none (h : t.erase.lookup key = none) : t.get key = none := by
  rw [← t.get_erase] at h
  exact Option.map_eq_none_iff.mp h

omit [Floats F] in
theorem rejectUnknown_ok {allowed : List String} (h : ∀ k ∈ t.map Prod.fst, k ∈ allowed) :
    rejectUnknown allowed t = .ok () := by
  induction t with
  | nil => rfl
  | cons e t ih =>
    obtain ⟨k, w, line⟩ := e
    rw [List.map_cons, List.forall_mem_cons] at h
    rw [rejectUnknown, if_neg, ih h.2]
    simpa using h.1

omit [Floats F] in
theorem optional_some {α : Type} {read : Value F → ℕ → Parsed α} {a : α}
    (h : t.erase.lookup key = some v) (hread : ∀ line, read v line = .ok a) :
    t.optional key read = .ok (some a) := by
  obtain ⟨line, hget⟩ := Table.get_some h
  rw [Table.optional, hget]
  dsimp only
  rw [hread]
  rfl

omit [Floats F] in
theorem optional_none {α : Type} {read : Value F → ℕ → Parsed α} (h : t.erase.lookup key = none) :
    t.optional key read = .ok none := by
  rw [Table.optional, Table.get_none h]

omit [Floats F] in
theorem parseInterp_name (p : InterpPolicy) :
    parseInterp (.str (interpName p) : Value F) line = .ok p := by
  cases p <;> rfl

omit [Floats F] in
theorem parseDomain_nat {d : ℕ} (h : d < 2 ^ 8) : parseDomain (.int d : Value F) line = .ok d := by
  rw [parseDomain, if_pos (by omega), Int.toNat_natCast]

omit [Floats F] in
theorem asU32_nat {n : ℕ} (h : n < 2 ^ 32) : asU32 (.int n : Value F) line culprit = .ok n := by
  rw [asU32, if_pos (by omega), Int.toNat_natCast]

omit [Floats F] in
theorem requiredName_ok {name : String} (h : t.erase.lookup key = some (.str name))
    (hname : frameNameOk name = true) :
    ∃ line, ∀ missing, requiredName t key missing = .ok (name, line) := by
  obtain ⟨line, hget⟩ := Table.get_some h
  refine ⟨line, fun missing => ?_⟩
  rw [requiredName, hget]
  show (checkFrameName name line >>= fun name => .ok (name, line)) = _
  rw [checkFrameName, if_pos hname]
  rfl

omit [Floats F] in
/-- The components of a pose. -/
theorem exists_components (pose : PoseWords F) :
    ∃ qw qx qy qz tx ty tz, pose = #v[qw, qx, qy, qz, tx, ty, tz] := by
  obtain ⟨⟨xs⟩, hlen⟩ := pose
  match xs, hlen with
  | [qw, qx, qy, qz, tx, ty, tz], _ => exact ⟨qw, qx, qy, qz, tx, ty, tz, rfl⟩

theorem parseComponent_float {x : F} (h : Floats.isFinite x = true) :
    parseComponent (.float x) line culprit = .ok x := by
  show (if ¬ Floats.isFinite x = true then fail line .badPose culprit else .ok x) = _
  rw [if_neg (not_not.mpr h)]

theorem parsePose_valid {pose : PoseWords F} (h : PoseValid pose) :
    parsePose (.array (pose.toList.map .float)) line culprit = .ok pose := by
  obtain ⟨qw, qx, qy, qz, tx, ty, tz, rfl⟩ := exists_components pose
  obtain ⟨hfin, hunit⟩ := h
  have hfin : ∀ x ∈ [qw, qx, qy, qz, tx, ty, tz], Floats.isFinite x = true := hfin
  simp only [List.forall_mem_cons, List.not_mem_nil, false_imp_iff, implies_true, and_true] at hfin
  obtain ⟨h0, h1, h2, h3, h4, h5, h6⟩ := hfin
  show parsePose (.array [.float qw, .float qx, .float qy, .float qz, .float tx, .float ty,
    .float tz]) line culprit = _
  rw [parsePose, parseComponent_float h0, parseComponent_float h1, parseComponent_float h2,
    parseComponent_float h3, parseComponent_float h4, parseComponent_float h5,
    parseComponent_float h6]
  show (if ¬ isUnit #v[qw, qx, qy, qz, tx, ty, tz] = true then _ else .ok _ :
    Parsed (PoseWords F)) = _
  rw [if_neg (not_not.mpr hunit)]

omit [Floats F] in
/-- The values of the keys of an edge. -/
theorem EdgeConfig.lookup (e : EdgeConfig F) :
    e.fields.lookup "parent" = some (.str e.parent) ∧
    e.fields.lookup "child" = some (.str e.child) ∧
    e.fields.lookup "interp" = e.interp.map (fun i => .str (interpName i)) ∧
    e.fields.lookup "domain" = e.domain.map (fun d => .int d) ∧
    ∀ k ∈ ["kind", "pose", "capacity", "rate_hz", "history_secs"],
      e.fields.lookup k = e.shape.fields.lookup k := by
  obtain ⟨parent, child, shape, interp, domain⟩ := e
  rcases shape with pose | n | ⟨rateHz, secs⟩ <;> cases interp <;> cases domain <;>
    simp [EdgeConfig.fields, EdgeShape.fields, List.lookup]

/-- The keys of a shape are read back. -/
theorem parseShape_valid {shape : EdgeShape F} (child : String) (h : shape.Valid)
    (hkeys : ∀ k ∈ ["kind", "pose", "capacity", "rate_hz", "history_secs"],
      t.erase.lookup k = shape.fields.lookup k) :
    ∃ kind line, t.get "kind" = some (.str kind, line) ∧
      ∀ kindLine, parseShape t kind kindLine child = .ok shape := by
  simp only [List.forall_mem_cons, List.not_mem_nil, false_imp_iff, implies_true, and_true]
    at hkeys
  obtain ⟨hkind, hpose, hcap, hrate, hsecs⟩ := hkeys
  rcases shape with pose | n | ⟨rateHz, secs⟩
  · obtain ⟨line, hget⟩ := Table.get_some (v := .str "static") (hkind.trans rfl)
    obtain ⟨pl, hp⟩ := Table.get_some (v := .array (pose.toList.map .float)) (hpose.trans rfl)
    refine ⟨"static", line, hget, fun kindLine => ?_⟩
    rw [parseShape, if_pos rfl]
    simp only [List.findSome?_cons, Table.get_none (hcap.trans rfl),
      Table.get_none (hrate.trans rfl),
      Table.get_none (hsecs.trans rfl), List.findSome?_nil, hp]
    rw [parsePose_valid h]
    rfl
  · obtain ⟨line, hget⟩ := Table.get_some (v := .str "dynamic") (hkind.trans rfl)
    obtain ⟨cl, hc⟩ := Table.get_some (v := .int n) (hcap.trans rfl)
    refine ⟨"dynamic", line, hget, fun kindLine => ?_⟩
    have hring : parseRing t kindLine child = .ok (.slots n) := by
      rw [parseRing, hc, Table.get_none (hrate.trans rfl), Table.get_none (hsecs.trans rfl)]
      dsimp only
      rw [asU32_nat h.2]
      show (if n = 0 then _ else .ok _ : Parsed (RingSize F)) = _
      rw [if_neg h.1.ne']
    rw [parseShape, if_neg (by decide), if_pos rfl, Table.get_none (hpose.trans rfl)]
    dsimp only
    rw [hring]
    rfl
  · obtain ⟨line, hget⟩ := Table.get_some (v := .str "dynamic") (hkind.trans rfl)
    obtain ⟨rl, hr⟩ := Table.get_some (v := .float rateHz) (hrate.trans rfl)
    obtain ⟨sl, hs⟩ := Table.get_some (v := .float secs) (hsecs.trans rfl)
    refine ⟨"dynamic", line, hget, fun kindLine => ?_⟩
    have hring : parseRing t kindLine child = .ok (.history rateHz secs) := by
      rw [parseRing, hr, hs, Table.get_none (hcap.trans rfl)]
      show (if ¬ finiteHistory rateHz secs = true then _ else .ok _ : Parsed (RingSize F)) = _
      rw [if_neg]
      exact not_not.mpr h
    rw [parseShape, if_neg (by decide), if_pos rfl, Table.get_none (hpose.trans rfl)]
    dsimp only
    rw [hring]
    rfl

/-- **Step lemma.** The table of a valid edge, whose child is new, is the edge. -/
theorem buildEdge_valid {children : List String} (h : e.Valid) (herase : t.erase = e.fields)
    (hchild : e.child ∉ children) : buildEdge children t = .ok e := by
  obtain ⟨hparent, hchildKey, hinterp, hdomain, hshape⟩ := e.lookup
  rw [← herase] at hparent hchildKey hinterp hdomain hshape
  obtain ⟨pl, hp⟩ := requiredName_ok hparent h.parent
  obtain ⟨cl, hc⟩ := requiredName_ok hchildKey h.child
  obtain ⟨kind, kl, hkind, hparse⟩ := parseShape_valid e.child h.shape hshape
  have hknown : rejectUnknown edgeKeys t = .ok () := by
    apply rejectUnknown_ok
    rw [← t.erase_keys, herase]
    exact e.fields_keys.2
  have hi : t.optional "interp" parseInterp = .ok e.interp := by
    cases hopt : e.interp with
    | none => exact optional_none (by rw [hinterp, hopt]; rfl)
    | some p => exact optional_some (by rw [hinterp, hopt]; rfl) fun line => parseInterp_name p
  have hd : t.optional "domain" parseDomain = .ok e.domain := by
    cases hopt : e.domain with
    | none => exact optional_none (by rw [hdomain, hopt]; rfl)
    | some d =>
      exact optional_some (by rw [hdomain, hopt]; rfl) fun line => parseDomain_nat (h.domain d hopt)
  unfold buildEdge
  rw [hknown]
  show (requiredName t "parent" _ >>= _) = _
  rw [hp]
  show (requiredName t "child" pl >>= _) = _
  rw [hc]
  show (if e.parent = e.child then _ else if children.contains e.child = true then _ else _ :
    Parsed (EdgeConfig F)) = _
  rw [if_neg h.ne, if_neg (by simpa using hchild), hkind]
  show (parseShape t kind kl e.child >>= _) = _
  rw [hparse, hi, hd]
  rfl

/-- The tables of valid edges with different children are the edges. -/
theorem buildEdges_valid {tables : List (Table F)} {es : List (EdgeConfig F)}
    {children : List String}
    (hall : List.Forall₂ (fun (a : Table F) e => a.erase = e.fields) tables es)
    (h : ∀ e ∈ es, e.Valid) (hnd : (es.map EdgeConfig.child).Nodup)
    (hnew : ∀ e ∈ es, e.child ∉ children) : buildEdges children tables = .ok es := by
  induction hall generalizing children with
  | nil => rfl
  | @cons t e tables es herase hall ih =>
    rw [List.map_cons, List.nodup_cons] at hnd
    rw [buildEdges, buildEdge_valid (h e List.mem_cons_self) herase (hnew e List.mem_cons_self)]
    show (buildEdges (e.child :: children) tables >>= _) = _
    rw [ih (fun e he => h e (List.mem_cons_of_mem _ he)) hnd.2]
    · rfl
    · intro e' he' hmem
      rcases List.mem_cons.mp hmem with heq | hmem
      · exact hnd.1 (heq ▸ List.mem_map_of_mem he')
      · exact hnew e' (List.mem_cons_of_mem _ he') hmem

omit [Floats F] in
/-- The listed frames are read back. -/
theorem listedFrames_valid {fs : List String} (h : t.erase.lookup "frames" =
      some (.array (fs.map .str))) (hok : ∀ f ∈ fs, frameNameOk f = true) :
    ∃ listed, listedFrames t = .ok listed ∧ listed.map Prod.fst = fs := by
  obtain ⟨line, hget⟩ := Table.get_some h
  refine ⟨fs.map fun f => (f, line), ?_, by simp [Function.comp_def]⟩
  rw [listedFrames, hget]
  dsimp only
  rw [List.mapM_map]
  refine mapM_ok fun f hf => ?_
  show (checkFrameName f line >>= fun name => .ok (name, line)) = _
  rw [checkFrameName, if_pos (hok f hf)]
  rfl

omit [Floats F] in
theorem buildFrames_valid {endpoints : List String} {listed : List (String × ℕ)}
    (h : ∀ f ∈ listed.map Prod.fst, f ∉ endpoints) :
    buildFrames endpoints listed = .ok (listed.map Prod.fst) := by
  induction listed with
  | nil => rfl
  | cons f listed ih =>
    rw [List.map_cons, List.forall_mem_cons] at h
    rw [buildFrames, if_neg (by simpa using h.1), ih h.2]
    rfl

/-- The tables of a valid topology are the topology. -/
theorem buildConfig_valid {top : Table F} {tables : List (Table F)} (h : c.Valid)
    (htop : top.erase = c.fields)
    (hall : List.Forall₂ (fun (a : Table F) e => a.erase = e.fields) tables c.edges) :
    buildConfig top tables = .ok c := by
  have hknown : rejectUnknown topologyKeys top = .ok () := by
    apply rejectUnknown_ok
    rw [← top.erase_keys, htop]
    exact c.fields_keys.2
  obtain ⟨listed, hlisted, hframes⟩ := listedFrames_valid (by rw [htop]; rfl) h.frames
  have hedges : buildEdges [] tables = .ok c.edges :=
    buildEdges_valid hall h.edges h.children fun e _ => List.not_mem_nil
  have hbuilt : buildFrames (c.edges.flatMap EdgeConfig.endpoints) listed = .ok c.frames := by
    rw [← hframes]
    exact buildFrames_valid (by rw [hframes]; exact h.fresh)
  have hinterp : top.optional "interp" parseInterp = .ok (some c.defaultInterp) :=
    optional_some (v := .str (interpName c.defaultInterp)) (by rw [htop]; rfl) fun line =>
      parseInterp_name _
  have hdomain : top.optional "domain" parseDomain = .ok (some c.defaultDomain) :=
    optional_some (v := .int c.defaultDomain) (by rw [htop]; rfl)
      fun line => parseDomain_nat h.domain
  have hheadroom : (top.optional "frame_headroom" fun v line => asU32 v line "frame_headroom") =
      .ok (some c.frameHeadroom) :=
    optional_some (v := .int c.frameHeadroom) (by rw [htop]; rfl) fun line => asU32_nat h.headroom
  unfold buildConfig
  rw [hknown, hinterp, hdomain, hheadroom, hlisted, hedges]
  show (buildFrames (c.edges.flatMap EdgeConfig.endpoints) listed >>= _) = _
  rw [hbuilt]
  rfl

/-- A valid topology is read back from its file. -/
theorem parse_toToml [Decimal F] (h : c.Valid) : TopologyConfig.parse c.toToml = .ok c := by
  obtain ⟨top, edges, htop, hall, t, hrun, htopology, hedges⟩ := h.tables
  unfold TopologyConfig.parse TopologyConfig.toToml
  rw [String.toList_ofList, lines_tomlText h.lines, hrun]
  show buildConfig (t.topology.getD []) t.edges = _
  rw [htopology, hedges]
  exact buildConfig_valid h htop hall

end Build

/-! ## What is accepted is valid -/

section Accepted

variable [Floats F] {c : TopologyConfig F} {e : EdgeConfig F} {t : Table F} {key : String}
  {v : Value F} {line : ℕ} {culprit : String}

omit [Floats F] in
theorem checkFrameName_ok {name name' : String} (h : checkFrameName name line = .ok name') :
    frameNameOk name' = true := by
  unfold checkFrameName at h
  split_ifs at h with hok
  · cases h
    exact hok
  · cases h

omit [Floats F] in
theorem requiredName_name {missing : ℕ} {name : String}
    (h : requiredName t key missing = .ok (name, line)) : frameNameOk name = true := by
  unfold requiredName at h
  split at h
  · cases h
  · obtain ⟨s, -, h⟩ := except_bind_eq_ok.mp h
    obtain ⟨n, hn, h⟩ := except_bind_eq_ok.mp h
    cases h
    exact checkFrameName_ok hn

omit [Floats F] in
theorem optional_read {α : Type} {read : Value F → ℕ → Parsed α} {a : α}
    (h : t.optional key read = .ok (some a)) : ∃ v line, read v line = .ok a := by
  unfold Table.optional at h
  split at h
  · cases h
  · rename_i v line _
    obtain ⟨a', ha, h⟩ := except_bind_eq_ok.mp h
    cases h
    exact ⟨v, line, ha⟩

omit [Floats F] in
theorem parseDomain_lt {d : ℕ} (h : parseDomain v line = .ok d) : d < 2 ^ 8 := by
  unfold parseDomain at h
  split at h
  · split_ifs at h <;> first | (cases h; decide) | cases h
  · split_ifs at h with hrange
    · cases h
      omega
    · cases h
  · cases h

omit [Floats F] in
theorem asU32_lt {n : ℕ} (h : asU32 v line culprit = .ok n) : n < 2 ^ 32 := by
  unfold asU32 at h
  split at h
  · split_ifs at h with hrange
    · cases h
      omega
    · cases h
  · cases h

theorem parseComponent_finite {x : F} (h : parseComponent v line culprit = .ok x) :
    Floats.isFinite x = true := by
  obtain ⟨y, -, h⟩ := except_bind_eq_ok.mp h
  split_ifs at h with hfin
  · cases h
    exact hfin
  · cases h

theorem parsePose_ok {pose : PoseWords F} (h : parsePose v line culprit = .ok pose) :
    PoseValid pose := by
  unfold parsePose at h
  split at h
  · obtain ⟨qw, h0, h⟩ := except_bind_eq_ok.mp h
    obtain ⟨qx, h1, h⟩ := except_bind_eq_ok.mp h
    obtain ⟨qy, h2, h⟩ := except_bind_eq_ok.mp h
    obtain ⟨qz, h3, h⟩ := except_bind_eq_ok.mp h
    obtain ⟨tx, h4, h⟩ := except_bind_eq_ok.mp h
    obtain ⟨ty, h5, h⟩ := except_bind_eq_ok.mp h
    obtain ⟨tz, h6, h⟩ := except_bind_eq_ok.mp h
    dsimp only at h
    split_ifs at h with hunit
    · cases h
      refine ⟨?_, hunit⟩
      show ∀ x ∈ [qw, qx, qy, qz, tx, ty, tz], Floats.isFinite x = true
      simp only [List.forall_mem_cons, List.not_mem_nil, false_imp_iff, implies_true, and_true]
      exact ⟨parseComponent_finite h0, parseComponent_finite h1, parseComponent_finite h2,
        parseComponent_finite h3, parseComponent_finite h4, parseComponent_finite h5,
        parseComponent_finite h6⟩
    · cases h
  · cases h

theorem parseRing_ok {ring : RingSize F} {child : String} (h : parseRing t line child = .ok ring) :
    ring.Valid := by
  unfold parseRing at h
  split at h
  · obtain ⟨n, hn, h⟩ := except_bind_eq_ok.mp h
    split_ifs at h with hzero
    · cases h
    · cases h
      exact ⟨Nat.pos_of_ne_zero hzero, asU32_lt hn⟩
  · obtain ⟨rateHz, -, h⟩ := except_bind_eq_ok.mp h
    obtain ⟨secs, -, h⟩ := except_bind_eq_ok.mp h
    split_ifs at h with hfin
    · cases h
      exact hfin
    · cases h
  · cases h
  · cases h

theorem parseShape_ok {shape : EdgeShape F} {kind child : String}
    (h : parseShape t kind line child = .ok shape) : shape.Valid := by
  unfold parseShape at h
  split_ifs at h
  · split at h
    · cases h
    · split at h
      · cases h
      · obtain ⟨pose, hpose, h⟩ := except_bind_eq_ok.mp h
        cases h
        exact parsePose_ok hpose
  · split at h
    · cases h
    · obtain ⟨ring, hring, h⟩ := except_bind_eq_ok.mp h
      cases h
      exact parseRing_ok hring
  · cases h

/-- An edge that is accepted is valid, and its child is new. -/
theorem buildEdge_ok {children : List String} (h : buildEdge children t = .ok e) :
    e.Valid ∧ e.child ∉ children := by
  obtain ⟨_, -, h⟩ := except_bind_eq_ok.mp h
  obtain ⟨⟨parent, pl⟩, hparent, h⟩ := except_bind_eq_ok.mp h
  obtain ⟨⟨child, cl⟩, hchild, h⟩ := except_bind_eq_ok.mp h
  dsimp only at h
  split_ifs at h with hself hdup
  · cases h
  · cases h
  · split at h
    · cases h
    · obtain ⟨kind, -, h⟩ := except_bind_eq_ok.mp h
      obtain ⟨shape, hshape, h⟩ := except_bind_eq_ok.mp h
      obtain ⟨interp, -, h⟩ := except_bind_eq_ok.mp h
      obtain ⟨domain, hdomain, h⟩ := except_bind_eq_ok.mp h
      cases h
      refine ⟨⟨requiredName_name hparent, requiredName_name hchild, hself, parseShape_ok hshape,
        fun d hd => ?_⟩, by simpa using hdup⟩
      have hd : domain = some d := hd
      rw [hd] at hdomain
      obtain ⟨_, _, hread⟩ := optional_read hdomain
      exact parseDomain_lt hread

theorem buildEdges_ok {children : List String} {tables : List (Table F)} {es : List (EdgeConfig F)}
    (h : buildEdges children tables = .ok es) :
    (∀ e ∈ es, e.Valid ∧ e.child ∉ children) ∧ (es.map EdgeConfig.child).Nodup := by
  induction tables generalizing children es with
  | nil =>
    cases h
    exact ⟨fun e he => absurd he List.not_mem_nil, List.nodup_nil⟩
  | cons t tables ih =>
    obtain ⟨e, he, h⟩ := except_bind_eq_ok.mp h
    obtain ⟨rest, hrest, h⟩ := except_bind_eq_ok.mp h
    cases h
    obtain ⟨hvalid, hnd⟩ := ih hrest
    refine ⟨?_, ?_⟩
    · rw [List.forall_mem_cons]
      exact ⟨buildEdge_ok he, fun e' he' => ⟨(hvalid e' he').1, fun hmem =>
        (hvalid e' he').2 (List.mem_cons_of_mem _ hmem)⟩⟩
    · rw [List.map_cons, List.nodup_cons]
      refine ⟨fun hmem => ?_, hnd⟩
      obtain ⟨e', he', heq⟩ := List.mem_map.mp hmem
      exact (hvalid e' he').2 (heq ▸ List.mem_cons_self)

omit [Floats F] in
theorem listedFrames_ok {listed : List (String × ℕ)} (h : listedFrames t = .ok listed) :
    ∀ f ∈ listed, frameNameOk f.1 = true := by
  unfold listedFrames at h
  split at h
  · cases h
    exact fun f hf => absurd hf List.not_mem_nil
  · intro f hf
    obtain ⟨item, -, hitem⟩ := mem_of_mapM_ok h f hf
    obtain ⟨s, -, hitem⟩ := except_bind_eq_ok.mp hitem
    obtain ⟨name, hname, hitem⟩ := except_bind_eq_ok.mp hitem
    cases hitem
    exact checkFrameName_ok hname
  · cases h

omit [Floats F] in
theorem buildFrames_ok {endpoints : List String} {listed : List (String × ℕ)} {fs : List String}
    (h : buildFrames endpoints listed = .ok fs) :
    fs = listed.map Prod.fst ∧ ∀ f ∈ fs, f ∉ endpoints := by
  induction listed generalizing fs with
  | nil =>
    cases h
    exact ⟨rfl, fun f hf => absurd hf List.not_mem_nil⟩
  | cons f listed ih =>
    rw [buildFrames] at h
    split_ifs at h with hend
    · cases h
    · obtain ⟨rest, hrest, h⟩ := except_bind_eq_ok.mp h
      cases h
      obtain ⟨rfl, hnot⟩ := ih hrest
      refine ⟨rfl, ?_⟩
      rw [List.forall_mem_cons]
      exact ⟨by simpa using hend, hnot⟩

/-- A topology the parser accepts is valid. -/
theorem parse_valid {text : String} (h : TopologyConfig.parse text = .ok c) : c.Valid := by
  obtain ⟨tables, -, h⟩ := except_bind_eq_ok.mp h
  obtain ⟨_, -, h⟩ := except_bind_eq_ok.mp h
  obtain ⟨interp, -, h⟩ := except_bind_eq_ok.mp h
  obtain ⟨domain, hdomain, h⟩ := except_bind_eq_ok.mp h
  obtain ⟨headroom, hheadroom, h⟩ := except_bind_eq_ok.mp h
  obtain ⟨listed, hlisted, h⟩ := except_bind_eq_ok.mp h
  obtain ⟨edges, hedges, h⟩ := except_bind_eq_ok.mp h
  obtain ⟨frames, hframes, h⟩ := except_bind_eq_ok.mp h
  cases h
  obtain ⟨hvalid, hnd⟩ := buildEdges_ok hedges
  obtain ⟨rfl, hfresh⟩ := buildFrames_ok hframes
  refine ⟨fun f hf => ?_, hfresh, ?_, ?_, fun e he => (hvalid e he).1, hnd⟩
  · obtain ⟨g, hg, rfl⟩ := List.mem_map.mp hf
    exact listedFrames_ok hlisted g hg
  · cases headroom with
    | none =>
      show 0 < 2 ^ 32
      decide
    | some n =>
      obtain ⟨_, _, hread⟩ := optional_read hheadroom
      exact asU32_lt hread
  · cases domain with
    | none =>
      show systemTag < 2 ^ 8
      decide
    | some d =>
      obtain ⟨_, _, hread⟩ := optional_read hdomain
      exact parseDomain_lt hread

end Accepted

/-! ## The round trip -/

section RoundTrip

variable [Floats F] [Decimal F] {c : TopologyConfig F}

/-- A topology is read back from its file exactly if it is valid. -/
theorem parse_toToml_iff : TopologyConfig.parse c.toToml = .ok c ↔ c.Valid :=
  ⟨parse_valid, parse_toToml⟩

/-- **Main theorem.** A topology the parser accepts is read back from the file that is
    written of it. -/
theorem parse_toToml_of_parse {text : String} (h : TopologyConfig.parse text = .ok c) :
    TopologyConfig.parse c.toToml = .ok c :=
  parse_toToml (parse_valid h)

end RoundTrip

theorem parseDigits_two : ∀ q < 10, ∀ d < 10,
    parseDigits (digits q ++ digits d) = some (10 * q + d) := by
  decide

theorem decimals_digits (r : ℕ) (hr : r < 100) : (∀ c ∈ decimals r, c.isDigit = true) ∧
    parseDecimals (decimals r) = some r := by
  have hone : ∀ {d : ℕ}, d < 10 → (digits d).length = 1 := by
    intro d hd
    rw [digits, Nat.toDigits_of_lt_base hd, List.length_singleton]
  have htens := hone (show r / 10 < 10 by omega)
  have hunits := hone (show r % 10 < 10 by omega)
  unfold decimals parseDecimals
  by_cases h : r % 10 = 0
  · rw [if_pos h, if_pos htens, parseDigits_digits]
    refine ⟨fun c hc => isDigit_of_mem_digits hc, congrArg some ?_⟩
    show 10 * (r / 10) = r
    omega
  · have hlen : (digits (r / 10) ++ digits (r % 10)).length = 2 := by
      rw [List.length_append, htens, hunits]
    rw [if_neg h, if_neg (by omega), if_pos hlen, parseDigits_two _ (by omega) _ (by omega)]
    refine ⟨fun c hc => ?_, congrArg some (by omega)⟩
    rcases List.mem_append.mp hc with hc | hc
    · exact isDigit_of_mem_digits hc
    · exact isDigit_of_mem_digits hc

/-- Hundredths are read back. -/
instance : Decimal Hundredths where
  numeric := by
    intro a _ c hc
    have hdigit : c.isDigit = true → isNumeric c = true := fun h => by simp [isNumeric, h]
    rcases List.mem_append.mp hc with hc | hc
    · rcases List.mem_append.mp hc with hc | hc
      · split_ifs at hc
        · rw [List.mem_singleton.mp hc]
          decide
        · cases hc
      · exact hdigit (isDigit_of_mem_digits hc)
    · rcases List.mem_cons.mp hc with rfl | hc
      · decide
      · exact hdigit ((decimals_digits _ (Nat.mod_lt _ (by decide))).1 c hc)
  parse_float := by
    intro a _
    obtain ⟨-, hdecimals⟩ := decimals_digits (a.n.natAbs % 100) (Nat.mod_lt _ (by decide))
    have hfloat : float a = (if a.n < 0 then ['-'] else []) ++
        (digits (a.n.natAbs / 100) ++ '.' :: decimals (a.n.natAbs % 100)) := by
      have hdebug : Floats.debug a = (if a.n < 0 then ['-'] else []) ++
          (digits (a.n.natAbs / 100) ++ '.' :: decimals (a.n.natAbs % 100)) :=
        List.append_assoc _ _ _
      unfold float
      rw [hdebug, if_pos]
      simp [isFloatMark]
    have hsign : splitSign (float a) = (decide (a.n < 0),
        digits (a.n.natAbs / 100) ++ '.' :: decimals (a.n.natAbs % 100)) := by
      rw [hfloat]
      by_cases hneg : a.n < 0
      · simp [hneg, splitSign]
      · rw [if_neg hneg, List.nil_append, splitSign_digit]
        · simp [hneg]
        · intro c hc
          rw [List.head?_append_of_ne_nil _ (digits_ne_nil _)] at hc
          exact isDigit_of_mem_digits (List.mem_of_mem_head? hc)
    have hpoint : '.' ∉ digits (a.n.natAbs / 100) := fun h =>
      absurd (isDigit_of_mem_digits h) (by decide)
    show (splitOnce ['.'] (splitSign (float a)).2 >>= fun p => parseDigits p.1 >>= fun w =>
      parseDecimals p.2 >>= fun r => some ⟨signed (splitSign (float a)).1 (100 * w + r)⟩) = some a
    rw [hsign]
    dsimp only
    rw [splitOnce_append hpoint]
    simp only [Option.bind_eq_bind, Option.bind_some, parseDigits_digits, hdecimals]
    have hn : 100 * (a.n.natAbs / 100) + a.n.natAbs % 100 = a.n.natAbs := Nat.div_add_mod _ _
    rw [hn, signed_natAbs]

/-- A file with a frame, a static edge and a dynamic one. -/
def sampleFile : String :=
  "[topology]\ndomain = \"sensor\"\nframes = [\"map\"]\n\n" ++
  "[[edge]]\nparent = \"base\"\nchild = \"laser\"\nkind = \"static\"\n" ++
  "pose = [1, 0.0, 0.0, 0.0, 0.0, 0.0, 0.0]\n\n" ++
  "[[edge]]\nparent = \"odom\"\nchild = \"base\"\nkind = \"dynamic\"\nrate_hz = 50\n" ++
  "history_secs = 10.0  # as the wheels publish\ninterp = \"lerpslerp\"\n"

/-- What it says, with a rate of 50 and a history of 10. -/
def sampleConfig (rateHz historySecs : Hundredths) : TopologyConfig Hundredths where
  frames := ["map"]
  defaultDomain := 1
  edges := [⟨"base", "laser", .static #v[1, 0, 0, 0, 0, 0, 0], none, none⟩,
    ⟨"odom", "base", .dynamic (.history rateHz historySecs), some .lerpSlerp, none⟩]

theorem parse_toToml_of_parse_sampleFile :
    TopologyConfig.parse sampleFile = .ok (sampleConfig 50 10) ∧
      TopologyConfig.parse (sampleConfig 50 10).toToml = .ok (sampleConfig 50 10) := by
  have hok : (TopologyConfig.parse sampleFile :
      Parsed (TopologyConfig Hundredths)).toOption = some (sampleConfig 50 10) := by
    -- the text as a list of characters: a string that is appended to is slow to read
    unfold TopologyConfig.parse sampleFile
    simp only [String.toList_append, String.reduceToList]
    decide
  have hparse : TopologyConfig.parse sampleFile = .ok (sampleConfig 50 10) := by
    cases hparse : (TopologyConfig.parse sampleFile : Parsed (TopologyConfig Hundredths)) with
    | error e =>
      rw [hparse] at hok
      cases hok
    | ok c =>
      rw [hparse] at hok
      exact congrArg _ (Option.some_inj.mp hok)
  exact ⟨hparse, parse_toToml_of_parse hparse⟩

end TfTree.Bridge
