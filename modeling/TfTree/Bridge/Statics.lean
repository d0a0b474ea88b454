import TfTree.Bridge.Config
import TfTree.Bridge.Index

/-!
# The declared edges

`statics.rs` of `tf_tree_bridge`: the declared edges, their kinds, and the values of
the static ones. Every table is a list over the slots of the edges; a slot outside
a table panics.

* `StaticStore.seeded_ok`: the store seeded with a topology has one slot for each
  declared pair, of the kind of its last declaration.
* `StaticStore.Ok.observeStaticAt`: a static sample changes neither the slots nor the kinds.
-/

namespace TfTree.Bridge

open Data

variable {F : Type}

/-! ## Model of `statics.rs` -/

/-- `StaticKind`. -/
inductive StaticKind where
  | static
  | dynamic
  deriving DecidableEq, Repr

/-- `StaticVerdict` (lines 21–44). -/
inductive StaticVerdict (F : Type) where
  | declare
  | idempotent
  | conflict (owner intruder : Publisher) (existing offered : PoseWords F) (firstTime : Bool)
  | kindChanged (declared : StaticKind)

/-- `StaticStore` (lines 49–60). -/
structure StaticStore (F : Type) where
  index : EdgeIndex ℕ
  kinds : List StaticKind
  values : List (Option (PoseWords F × Publisher))
  reported : List ℕ
  firstIntruder : List (Option Publisher)
  conflicts : ℕ

/-- `xs[i] = v`: an index out of range panics. -/
def setAt {α : Type} (xs : List α) (i : ℕ) (v : α) : Option (List α) :=
  if i < xs.length then some (xs.set i v) else none

/-- `STATIC_EPS`. -/
def staticEps [Floats F] : F := 1 / ((10 ^ 12 : ℕ) : F)

/-- `same_pose` (lines 239–249). -/
def samePose [Floats F] (a b : PoseWords F) : Bool :=
  if (a.toList ++ b.toList).all Floats.isFinite then
    let dot := ([0, 1, 2, 3] : List (Fin 7)).foldl (fun s i => s + a[i] * b[i]) (0 : F)
    let sign : F := if Floats.lt dot 0 then -1 else 1
    ([0, 1, 2, 3] : List (Fin 7)).all
        (fun i => Floats.le (Floats.abs (a[i] - sign * b[i])) (staticEps : F)) &&
      ([4, 5, 6] : List (Fin 7)).all
        (fun i => Floats.le (Floats.abs (a[i] - b[i])) (staticEps : F))
  else false

/-- The slot of an edge, a new one after the others (`slot_or_insert`, of `statics.rs` and
    of `authority.rs`). -/
def EdgeIndex.slotOrInsert (t : EdgeIndex ℕ) (parent child : String) :
    Option (ℕ × EdgeIndex ℕ) := do
  match ← t.get parent child with
  | some slot => return (slot, t)
  | none =>
    let slot := t.len
    let t ← t.insert parent child slot
    return (slot, t)

namespace StaticStore

/-- `StaticStore::slots`. -/
def slots (s : StaticStore F) : ℕ := s.kinds.length

/-- `StaticStore::slot_or_insert` (lines 169–181). -/
def slotOrInsert (s : StaticStore F) (parent child : String) (kind : StaticKind) :
    Option (ℕ × StaticStore F) := do
  match ← s.index.get parent child with
  | some slot => return (slot, s)
  | none =>
    let slot := s.index.len
    let index ← s.index.insert parent child slot
    return (slot, { s with
      index := index, kinds := s.kinds ++ [kind], values := s.values ++ [none],
      reported := s.reported ++ [0], firstIntruder := s.firstIntruder ++ [none] })

/-- One declaration of `seeded` (lines 78–90). -/
def declare (s : StaticStore F) (e : EdgeConfig F) : Option (StaticStore F) := do
  match e.shape with
  | .static pose =>
    let (slot, s) ← s.slotOrInsert e.parent e.child .static
    let kinds ← setAt s.kinds slot .static
    let values ← setAt s.values slot (some (pose, .declared))
    return { s with kinds := kinds, values := values }
  | .dynamic _ =>
    let (slot, s) ← s.slotOrInsert e.parent e.child .dynamic
    let kinds ← setAt s.kinds slot .dynamic
    return { s with kinds := kinds }

/-- The store before any declaration. -/
def withCapacity (n : ℕ) : StaticStore F := ⟨.withCapacity n, [], [], [], [], 0⟩

/-- `StaticStore::seeded` (lines 74–94). -/
def seeded (c : TopologyConfig F) : Option (StaticStore F) :=
  c.edges.foldlM declare (withCapacity c.edges.length)

/-- `StaticStore::resolve`. -/
def resolve (s : StaticStore F) (parent child : String) : Option (Option ℕ) :=
  s.index.get parent child

/-- `StaticStore::kind_at`. -/
def kindAt (s : StaticStore F) (slot : ℕ) : Option StaticKind := s.kinds[slot]?

/-- `StaticStore::names_of`. -/
def namesOf (s : StaticStore F) (slot : ℕ) : Option (String × String) := s.index.key slot

/-- `StaticStore::observe_static_at` (lines 131–165). -/
def observeStaticAt [Floats F] (s : StaticStore F) (slot : ℕ) (pose : PoseWords F)
    (publisher : Publisher) : Option (StaticVerdict F × StaticStore F) := do
  let kind ← s.kinds[slot]?
  if kind = .dynamic then return (.kindChanged .dynamic, s)
  else
    match ← s.values[slot]? with
    | none =>
      let kinds ← setAt s.kinds slot .static
      let values ← setAt s.values slot (some (pose, publisher))
      return (.declare, { s with kinds := kinds, values := values })
    | some (existing, owner) =>
      if samePose existing pose then return (.idempotent, s)
      else
        let seen ← s.reported[slot]?
        let reported ← setAt s.reported slot (seen + 1)
        let firstTime := decide (seen = 0)
        let firstIntruder ←
          if firstTime then setAt s.firstIntruder slot (some publisher) else some s.firstIntruder
        return (.conflict owner publisher existing pose firstTime,
          { s with reported := reported, firstIntruder := firstIntruder,
                   conflicts := s.conflicts + 1 })

/-- The row of `conflicts_by_edge` for the slot, if it has one (lines 225–231). -/
def conflictAt (s : StaticStore F) (slot : ℕ) :
    Option (Option ((String × String) × Publisher × Publisher × ℕ)) := do
  match ← s.firstIntruder[slot]? with
  | none => return none
  | some intruder =>
    match ← s.values[slot]? with
    | none => return none
    | some (_, owner) =>
      let key ← s.index.key slot
      let n ← s.reported[slot]?
      return some (key, owner, intruder, n)

/-- `StaticStore::conflicts_by_edge` (lines 213–226). -/
def conflictsByEdge (s : StaticStore F) :
    Option (List ((String × String) × Publisher × Publisher × ℕ)) := do
  let rows ← (List.range s.firstIntruder.length).mapM s.conflictAt
  return rows.reduceOption

end StaticStore

/-! ## Slots -/

/-- The slots of a table of edges are its positions. -/
structure EdgeIndex.Slots (t : EdgeIndex ℕ) : Prop where
  ok : t.Ok
  values : t.values = List.range t.table.keys.length

theorem EdgeIndex.slots_withCapacity (n : ℕ) : (EdgeIndex.withCapacity n).Slots where
  ok := ok_withCapacity n
  values := rfl

/-- A probe finds the slot of the edge. -/
theorem EdgeIndex.Slots.get {t : EdgeIndex ℕ} (ht : t.Slots) (p c : String) :
    t.get p c = some (position t.table.keys (p, c)) := by
  rw [ht.ok.get, ht.values]
  cases h : position t.table.keys (p, c) with
  | none => rfl
  | some e =>
    have hlt := position_lt h
    show some (List.range t.table.keys.length)[e]? = some (some e)
    rw [List.getElem?_range hlt]

theorem EdgeIndex.Slots.insert {t : EdgeIndex ℕ} (ht : t.Slots) {p c : String}
    (hnew : (p, c) ∉ t.table.keys) :
    ∃ t', t.insert p c t.len = some t' ∧ t'.Slots ∧ t'.table.keys = t.table.keys ++ [(p, c)] := by
  obtain ⟨t', hins, hok, hkeys, hvalues⟩ := ht.ok.insert hnew t.len
  refine ⟨t', hins, ⟨hok, ?_⟩, hkeys⟩
  rw [hvalues, hkeys, ht.values, List.length_append, List.length_singleton, List.range_succ]
  rfl

theorem setAt_eq {α : Type} {xs : List α} {i : ℕ} (h : i < xs.length) (v : α) :
    setAt xs i v = some (xs.set i v) := if_pos h

/-- A fallible map over a list succeeds if it does on each element. -/
theorem mapM_isSome_iff {α β : Type} {f : α → Option β} {xs : List α} :
    (∃ ys, xs.mapM f = some ys) ↔ ∀ x ∈ xs, ∃ y, f x = some y := by
  induction xs with
  | nil => simp
  | cons x xs ih =>
    rw [List.mapM_cons]
    constructor
    · rintro ⟨ys, hys⟩ x' hx'
      obtain ⟨y, hy, hrest⟩ := Option.bind_eq_some_iff.mp hys
      rcases List.mem_cons.mp hx' with rfl | hx'
      · exact ⟨y, hy⟩
      · obtain ⟨ys', hys', -⟩ := Option.bind_eq_some_iff.mp hrest
        exact ih.mp ⟨ys', hys'⟩ x' hx'
    · intro hall
      obtain ⟨y, hy⟩ := hall x List.mem_cons_self
      obtain ⟨ys, hys⟩ := ih.mpr fun x' hx' => hall x' (List.mem_cons_of_mem _ hx')
      exact ⟨y :: ys, by rw [hy]; simp [hys]⟩

/-- The values of a fallible map, one by one. -/
theorem mapM_forall₂ {α β : Type} {f : α → Option β} {xs : List α} {ys : List β}
    (h : xs.mapM f = some ys) : List.Forall₂ (fun x y => f x = some y) xs ys := by
  induction xs generalizing ys with
  | nil =>
    rw [List.mapM_nil] at h
    cases h
    exact .nil
  | cons x xs ih =>
    rw [List.mapM_cons] at h
    obtain ⟨y, hy, hrest⟩ := Option.bind_eq_some_iff.mp h
    obtain ⟨ys', hys', hcons⟩ := Option.bind_eq_some_iff.mp hrest
    cases hcons
    exact .cons hy (ih hys')

/-- The declared pairs, each where it is declared first. -/
def addKey (ks : List (String × String)) (k : String × String) : List (String × String) :=
  if k ∈ ks then ks else ks ++ [k]

namespace StaticStore

/-- The tables have one entry for each slot, and static edges have a value. -/
structure Ok (s : StaticStore F) : Prop where
  index : s.index.Slots
  kinds : s.kinds.length = s.index.table.keys.length
  values : s.values.length = s.kinds.length
  reported : s.reported.length = s.kinds.length
  firstIntruder : s.firstIntruder.length = s.kinds.length

variable {s s' : StaticStore F} {p c : String}

theorem ok_withCapacity (n : ℕ) : (withCapacity n : StaticStore F).Ok :=
  ⟨EdgeIndex.slots_withCapacity n, rfl, rfl, rfl, rfl⟩

/-- The slot of a declared pair, after the tables have grown where it is new. -/
theorem Ok.slotOrInsert (hs : s.Ok) (p c : String) (kind : StaticKind) :
    ∃ slot s', s.slotOrInsert p c kind = some (slot, s') ∧ s'.Ok ∧
      s'.index.table.keys = addKey s.index.table.keys (p, c) ∧
      position s'.index.table.keys (p, c) = some slot ∧
      (∀ i, i < s.kinds.length → s'.kinds[i]? = s.kinds[i]?) ∧
      s'.kinds.length = (addKey s.index.table.keys (p, c)).length := by
  unfold StaticStore.slotOrInsert addKey
  rw [hs.index.get]
  cases h : position s.index.table.keys (p, c) with
  | some slot =>
    have hmem : (p, c) ∈ s.index.table.keys := List.mem_of_getElem? (getElem?_of_position h)
    rw [if_pos hmem]
    exact ⟨slot, s, rfl, hs, rfl, h, fun _ _ => rfl, hs.kinds⟩
  | none =>
    have hnew := position_eq_none.mp h
    obtain ⟨index, hins, hslots, hkeys⟩ := hs.index.insert hnew
    simp only [Option.bind_eq_bind, Option.bind_some, hins, if_neg hnew]
    refine ⟨_, _, rfl, ⟨hslots, ?_, ?_, ?_, ?_⟩, hkeys, ?_, fun i hi => ?_, ?_⟩
    · rw [hkeys]
      simp [hs.kinds]
    · simp [hs.values]
    · simp [hs.reported]
    · simp [hs.firstIntruder]
    · rw [hkeys, position_concat hnew]
      rfl
    · exact List.getElem?_append_left hi
    · simp [hs.kinds]

end StaticStore

/-- The kind of an edge shape. -/
def EdgeShape.kind : EdgeShape F → StaticKind
  | .static _ => .static
  | .dynamic _ => .dynamic

/-- The kind of the last declaration of a pair. -/
def lastKind : List (EdgeConfig F) → String × String → Option StaticKind
  | [], _ => none
  | e :: es, k => (lastKind es k).orElse fun _ => if e.key = k then some e.shape.kind else none

/-- The declared pairs of a topology, each where it is declared first. -/
def slotKeys (es : List (EdgeConfig F)) : List (String × String) :=
  es.foldl (fun ks e => addKey ks e.key) []

namespace StaticStore

variable {s s' : StaticStore F}

/-- The kind of a declared pair. -/
def kindOf (s : StaticStore F) (k : String × String) : Option StaticKind :=
  (position s.index.table.keys k).bind (s.kinds[·]?)

/-- A new slot has the kind it was made with, and the others keep theirs. -/
theorem Ok.kindOf_slotOrInsert (hs : s.Ok) {p c : String} {kind : StaticKind} {slot : ℕ}
    (h : s.slotOrInsert p c kind = some (slot, s')) {k : String × String} (hk : (p, c) ≠ k) :
    s'.kindOf k = s.kindOf k := by
  obtain ⟨slot', s₁, hins, -, hkeys, -, hold, -⟩ := hs.slotOrInsert p c kind
  rw [h] at hins
  cases hins
  unfold kindOf
  rw [hkeys]
  cases hpos : position s.index.table.keys k with
  | none =>
    have hnot : k ∉ addKey s.index.table.keys (p, c) := by
      unfold addKey
      split_ifs
      · exact position_eq_none.mp hpos
      · intro hmem
        rcases List.mem_append.mp hmem with hmem | hmem
        · exact position_eq_none.mp hpos hmem
        · exact hk (List.mem_singleton.mp hmem).symm
    rw [position_eq_none.mpr hnot]
    rfl
  | some i =>
    have hpos' : position (addKey s.index.table.keys (p, c)) k = some i := by
      unfold addKey
      split_ifs
      · exact hpos
      · exact position_append _ hpos
    rw [hpos']
    exact hold i (by rw [hs.kinds]; exact position_lt hpos)

/-- Setting the kind of a slot. -/
theorem Ok.kindOf_set (hs : s.Ok) {k : String × String} {slot : ℕ}
    (h : position s.index.table.keys k = some slot) (kind : StaticKind) (k' : String × String) :
    (position s.index.table.keys k').bind ((s.kinds.set slot kind)[·]?) =
      if k = k' then some kind else s.kindOf k' := by
  have hlt : slot < s.kinds.length := by
    rw [hs.kinds]
    exact position_lt h
  by_cases hk : k = k'
  · subst hk
    rw [if_pos rfl, h]
    exact List.getElem?_set_self hlt
  · rw [if_neg hk]
    unfold kindOf
    cases hpos : position s.index.table.keys k' with
    | none => rfl
    | some i =>
      refine List.getElem?_set_ne ?_
      rintro rfl
      have heq := (getElem?_of_position h).symm.trans (getElem?_of_position hpos)
      exact hk (Option.some_inj.mp heq)

/-- A declaration sets the kind of its pair. -/
theorem Ok.declare (hs : s.Ok) (e : EdgeConfig F) :
    ∃ s', s.declare e = some s' ∧ s'.Ok ∧
      s'.index.table.keys = addKey s.index.table.keys e.key ∧
      ∀ k, s'.kindOf k = if e.key = k then some e.shape.kind else s.kindOf k := by
  unfold StaticStore.declare
  obtain ⟨slot, s₁, hins, hok, hkeys, hslot, -, -⟩ :=
    hs.slotOrInsert e.parent e.child e.shape.kind
  have hlt : slot < s₁.kinds.length := by
    rw [hok.kinds]
    exact position_lt hslot
  have hkind : ∀ k, (position s₁.index.table.keys k).bind
      ((s₁.kinds.set slot e.shape.kind)[·]?) =
        if e.key = k then some e.shape.kind else s.kindOf k := by
    intro k
    rw [hok.kindOf_set hslot]
    refine ite_congr rfl (fun _ => rfl) fun hk => hs.kindOf_slotOrInsert hins hk
  cases hshape : e.shape with
  | static pose =>
    rw [hshape] at hins hkind
    change s.slotOrInsert e.parent e.child .static = some (slot, s₁) at hins
    simp only [Option.bind_eq_bind, Option.bind_some, hins, setAt_eq hlt,
      setAt_eq (hok.values ▸ hlt : slot < s₁.values.length)]
    refine ⟨_, rfl, ⟨hok.index, ?_, ?_, ?_, ?_⟩, hkeys, hkind⟩
    · simpa using hok.kinds
    · simpa using hok.values
    · simpa using hok.reported
    · simpa using hok.firstIntruder
  | dynamic ring =>
    rw [hshape] at hins hkind
    change s.slotOrInsert e.parent e.child .dynamic = some (slot, s₁) at hins
    simp only [Option.bind_eq_bind, Option.bind_some, hins, setAt_eq hlt]
    refine ⟨_, rfl, ⟨hok.index, ?_, ?_, ?_, ?_⟩, hkeys, hkind⟩
    · simpa using hok.kinds
    · simpa using hok.values
    · simpa using hok.reported
    · simpa using hok.firstIntruder

/-- What a run of declarations leaves. -/
theorem Ok.foldlM_declare (hs : s.Ok) (es : List (EdgeConfig F)) :
    ∃ s', es.foldlM StaticStore.declare s = some s' ∧ s'.Ok ∧
      s'.index.table.keys = es.foldl (fun ks e => addKey ks e.key) s.index.table.keys ∧
      ∀ k, s'.kindOf k = (lastKind es k).orElse fun _ => s.kindOf k := by
  induction es generalizing s with
  | nil => exact ⟨s, rfl, hs, rfl, fun _ => rfl⟩
  | cons e es ih =>
    obtain ⟨s₁, hdecl, hok, hkeys, hkinds⟩ := hs.declare e
    obtain ⟨s', hrest, hok', hkeys', hkinds'⟩ := ih hok
    refine ⟨s', ?_, hok', by rw [hkeys', hkeys]; rfl, fun k => ?_⟩
    · rw [List.foldlM_cons, hdecl]
      exact hrest
    · rw [hkinds', lastKind]
      cases lastKind es k with
      | some kind => rfl
      | none =>
        show s₁.kindOf k = (if e.key = k then some e.shape.kind else none).orElse fun _ =>
          s.kindOf k
        rw [hkinds]
        split_ifs <;> rfl

/-- The seeded store has one slot for each declared pair, of the kind of its last
    declaration. -/
theorem seeded_ok (c : TopologyConfig F) :
    ∃ s, seeded c = some s ∧ s.Ok ∧ s.index.table.keys = slotKeys c.edges ∧
      ∀ k, s.kindOf k = lastKind c.edges k := by
  obtain ⟨s, hrun, hok, hkeys, hkinds⟩ := (ok_withCapacity c.edges.length).foldlM_declare c.edges
  refine ⟨s, hrun, hok, hkeys, fun k => ?_⟩
  rw [hkinds]
  cases lastKind c.edges k <;> rfl

/-- What a static sample leaves alone. -/
structure SameSlots (s s' : StaticStore F) : Prop where
  index : s'.index = s.index
  kinds : s'.kinds = s.kinds

/-- A static sample on a slot changes neither the slots nor the kinds. -/
theorem Ok.observeStaticAt [Floats F] (hs : s.Ok) {slot : ℕ}
    (hslot : slot < s.index.table.keys.length) (pose : PoseWords F) (publisher : Publisher) :
    ∃ v s', s.observeStaticAt slot pose publisher = some (v, s') ∧ s'.Ok ∧ s.SameSlots s' := by
  have hkind : slot < s.kinds.length := by rw [hs.kinds]; exact hslot
  have hvalue : slot < s.values.length := by rw [hs.values]; exact hkind
  have hrep : slot < s.reported.length := by rw [hs.reported]; exact hkind
  have hfirst : slot < s.firstIntruder.length := by rw [hs.firstIntruder]; exact hkind
  unfold StaticStore.observeStaticAt
  simp only [Option.bind_eq_bind, List.getElem?_eq_getElem hkind, Option.bind_some]
  by_cases hdyn : s.kinds[slot] = .dynamic
  · rw [if_pos hdyn]
    exact ⟨_, s, rfl, hs, rfl, rfl⟩
  · rw [if_neg hdyn]
    simp only [List.getElem?_eq_getElem hvalue, Option.bind_some]
    cases hval : s.values[slot] with
    | none =>
      -- the kind is static already
      have hstatic : s.kinds[slot] = .static := by
        cases hk : s.kinds[slot] with
        | static => rfl
        | dynamic => exact absurd hk hdyn
      simp only [setAt_eq hkind, setAt_eq hvalue, Option.bind_some]
      have hsame : s.kinds.set slot .static = s.kinds := by
        rw [← hstatic, List.set_getElem_self]
      refine ⟨_, _, rfl, ⟨hs.index, ?_, ?_, ?_, ?_⟩, rfl, hsame⟩
      · simpa using hs.kinds
      · simpa using hs.values
      · simpa using hs.reported
      · simpa using hs.firstIntruder
    | some v =>
      obtain ⟨existing, owner⟩ := v
      dsimp only
      by_cases hsame : samePose existing pose = true
      · rw [if_pos hsame]
        exact ⟨_, s, rfl, hs, rfl, rfl⟩
      · rw [if_neg hsame]
        simp only [List.getElem?_eq_getElem hrep, setAt_eq hrep, Option.bind_some]
        by_cases h0 : s.reported[slot] = 0
        · simp only [h0, decide_true, if_true, setAt_eq hfirst, Option.bind_some]
          refine ⟨_, _, rfl, ⟨hs.index, hs.kinds, hs.values, ?_, ?_⟩, rfl, rfl⟩
          · simpa using hs.reported
          · simpa using hs.firstIntruder
        · simp only [h0, decide_false, Bool.false_eq_true, if_false]
          refine ⟨_, _, rfl, ⟨hs.index, hs.kinds, hs.values, ?_, hs.firstIntruder⟩, rfl, rfl⟩
          simpa using hs.reported

/-- The report of conflicts returns. -/
theorem Ok.conflictsByEdge (hs : s.Ok) : ∃ rows, s.conflictsByEdge = some rows := by
  have hrow : ∀ slot, slot < s.firstIntruder.length → ∃ row, s.conflictAt slot = some row := by
    intro slot hfirst
    have hkind : slot < s.kinds.length := by rw [← hs.firstIntruder]; exact hfirst
    have hvalue : slot < s.values.length := by rw [hs.values]; exact hkind
    have hrep : slot < s.reported.length := by rw [hs.reported]; exact hkind
    have hkey : slot < s.index.table.keys.length := by rw [← hs.kinds]; exact hkind
    unfold StaticStore.conflictAt
    simp only [Option.bind_eq_bind, List.getElem?_eq_getElem hfirst, Option.bind_some]
    cases s.firstIntruder[slot] with
    | none => exact ⟨_, rfl⟩
    | some intruder =>
      simp only [List.getElem?_eq_getElem hvalue, Option.bind_some]
      cases s.values[slot] with
      | none => exact ⟨_, rfl⟩
      | some v =>
        simp only [EdgeIndex.key, List.getElem?_eq_getElem hkey, List.getElem?_eq_getElem hrep,
          Option.bind_some]
        exact ⟨_, rfl⟩
  obtain ⟨rows, hrows⟩ := mapM_isSome_iff.mpr fun slot hslot => hrow slot (List.mem_range.mp hslot)
  exact ⟨rows.reduceOption, by unfold StaticStore.conflictsByEdge; rw [hrows]; rfl⟩

end StaticStore

end TfTree.Bridge
