import TfTree.Bridge.Statics
import TfTree.Data.Tally

/-!
# One publisher per edge

`authority.rs` of `tf_tree_bridge`. `none` is a panic.

Results, for any sequence of samples under `FirstWriterWins` or `Strict`:
* `Authority.Traced.admitAt`: what the tables hold is determined by the collisions
  among the samples so far.
* `Authority.Traced.conflicts`: the conflicts are reported, each pair of publishers with
  the number of its collisions, as long as all the parties were given an identifier.
* `Authority.Traced.conflicts_isSome_iff`: which is the case up to `maxTrackedPublishers`
  of them.
-/

namespace TfTree.Bridge

open Data

variable {F : Type}

/-! ## Model of `authority.rs` -/

/-- `AuthorityPolicy`. -/
inductive AuthorityPolicy where
  | firstWriterWins
  | lastWriterWins
  | strict
  deriving DecidableEq, Repr

/-- `Verdict` (lines 27–49). -/
inductive Verdict where
  | accept
  | reject (owner intruder : Publisher) (firstTime : Bool)
  | fatal (owner intruder : Publisher) (firstTime : Bool)
  deriving DecidableEq, Repr

/-- `MAX_TRACKED_PUBLISHERS` (`clock.rs`). -/
def maxTrackedPublishers : ℕ := 64

/-- `u32::MAX`. -/
def u32Max : ℕ := 2 ^ 32 - 1

/-- The order of the keys of `reported`. -/
abbrev compareRow : ℕ × ℕ × ℕ → ℕ × ℕ × ℕ → Ordering :=
  compareLex (compareOn Prod.fst) (compareLex (compareOn fun k => k.2.1) (compareOn fun k => k.2.2))

instance : Std.LawfulEqCmp compareRow where
  eq_of_compare := by
    intro a b h
    simp only [compareRow, compareLex, compareOn, Ordering.then_eq_eq, Std.compare_eq_iff_eq] at h
    exact Prod.ext h.1 (Prod.ext h.2.1 h.2.2)

/-- `Authority` (lines 53–65). -/
structure Authority where
  policy : AuthorityPolicy
  index : EdgeIndex ℕ
  owners : List (Option Publisher)
  ids : StrInterner
  pubs : List Publisher
  reported : Std.TreeMap (ℕ × ℕ × ℕ) ℕ compareRow
  dropped : ℕ

/-- A row of `conflicts`: the edge, its owner, the intruder and their collisions. -/
structure ConflictRow where
  edge : String × String
  owner : Publisher
  intruder : Publisher
  count : ℕ

namespace Authority

/-- `Authority::new` (lines 83–89). -/
def new (policy : AuthorityPolicy) : Authority :=
  ⟨policy, .withCapacity 0, [], .withCap maxTrackedPublishers, [], ∅, 0⟩

/-- `Authority::slot_or_insert` (lines 103–111). -/
def slotOrInsert (a : Authority) (parent child : String) : Option (ℕ × Authority) := do
  match ← a.index.get parent child with
  | some slot => return (slot, a)
  | none =>
    let slot := a.index.len
    let index ← a.index.insert parent child slot
    return (slot, { a with index := index, owners := a.owners ++ [none] })

/-- `Authority::seeded` (lines 93–101). -/
def seeded (policy : AuthorityPolicy) (c : TopologyConfig F) : Option Authority :=
  c.edges.foldlM (fun a e => (a.slotOrInsert e.parent e.child).map Prod.snd)
    { new policy with index := .withCapacity c.edges.length }

/-- `Vec::resize`. -/
def resize {α : Type} (xs : List α) (n : ℕ) (v : α) : List α :=
  xs.take n ++ List.replicate (n - xs.length) v

/-- `Authority::id_for` (lines 114–126): `u32::MAX` past the cap. -/
def idFor (a : Authority) (publisher : Publisher) : Option (ℕ × Authority) := do
  let (id, ids) ← a.ids.intern publisher.key
  let a := { a with ids := ids }
  match id with
  | some id =>
    if a.pubs.length ≤ id then
      let pubs ← setAt (resize a.pubs (id + 1) .unattributed) id publisher
      return (id, { a with pubs := pubs })
    else return (id, a)
  | none => return (u32Max, a)

/-- `Authority::record` (lines 171–178). -/
def record (a : Authority) (slot : ℕ) (owner intruder : Publisher) :
    Option (Bool × Authority) := do
  let (o, a) ← a.idFor owner
  let (i, a) ← a.idFor intruder
  let firstTime := decide (a.reported.getD (slot, o, i) 0 = 0)
  return (firstTime, { a with
    reported := bump a.reported (slot, o, i), dropped := a.dropped + 1 })

/-- `Authority::admit_at` (lines 136–174). -/
def admitAt (a : Authority) (slot : ℕ) (publisher : Publisher) : Option (Verdict × Authority) := do
  match ← a.owners[slot]? with
  | none => return (.accept, { a with owners := a.owners.set slot (some publisher) })
  | some owner =>
    if owner.key = publisher.key then return (.accept, a)
    else
      match a.policy with
      | .lastWriterWins =>
        return (.accept, { a with owners := a.owners.set slot (some publisher) })
      | .strict =>
        let (firstTime, a) ← a.record slot owner publisher
        return (.fatal owner publisher firstTime, a)
      | .firstWriterWins =>
        let (firstTime, a) ← a.record slot owner publisher
        return (.reject owner publisher firstTime, a)

/-- `Authority::admit` (lines 129–132). -/
def admitEdge (a : Authority) (parent child : String) (publisher : Publisher) :
    Option (Verdict × Authority) := do
  let (slot, a) ← a.slotOrInsert parent child
  a.admitAt slot publisher

/-- The row of `conflicts` of an entry of `reported`: an index out of range panics. -/
def conflictRow (a : Authority) (row : (ℕ × ℕ × ℕ) × ℕ) : Option ConflictRow := do
  let edge ← a.index.key row.1.1
  let owner ← a.pubs[row.1.2.1]?
  let intruder ← a.pubs[row.1.2.2]?
  return ⟨edge, owner, intruder, row.2⟩

/-- `Authority::conflicts` (lines 193–198), taken to its end. -/
def conflicts (a : Authority) : Option (List ConflictRow) := a.reported.toList.mapM a.conflictRow

end Authority

/-! ## Collisions -/

/-- A sample of a publisher on an edge that belongs to another. -/
structure Collision where
  edge : String × String
  owner : Publisher
  intruder : Publisher
  deriving DecidableEq

/-- A sample as it reaches the table: the edge and the publisher. -/
abbrev Arrival := (String × String) × Publisher

/-- The owner of an edge: its first publisher. -/
def ownerOf (hist : List Arrival) (e : String × String) : Option Publisher :=
  (hist.find? fun a => a.1 = e).map Prod.snd

/-- The collision a sample makes after `hist`. -/
def collide (hist : List Arrival) (a : Arrival) : Option Collision :=
  (ownerOf hist a.1).bind fun owner =>
    if owner.key = a.2.key then none else some ⟨a.1, owner, a.2⟩

/-- The collisions of the samples `hist` after `past`. -/
def collisionsAfter (past : List Arrival) : List Arrival → List Collision
  | [] => []
  | a :: hist => (collide past a).toList ++ collisionsAfter (past ++ [a]) hist

/-- The collisions among the samples, in order. -/
def collisions (hist : List Arrival) : List Collision := collisionsAfter [] hist

/-- The identities of the publishers of the collisions, in the order of `record`. -/
def partyKeys (cs : List Collision) : List String :=
  cs.flatMap fun c => [c.owner.key, c.intruder.key]

/-- The distinct parties of the collisions among the samples. -/
def parties (hist : List Arrival) : List String := (partyKeys (collisions hist)).dedup

/-- The row reports a collision: the same edge and the same two publishers. -/
def ConflictRow.Reports (r : ConflictRow) (c : Collision) : Prop :=
  c.edge = r.edge ∧ c.owner.key = r.owner.key ∧ c.intruder.key = r.intruder.key

instance (r : ConflictRow) (c : Collision) : Decidable (r.Reports c) :=
  inferInstanceAs (Decidable (_ ∧ _ ∧ _))

theorem collisionsAfter_concat (past hist : List Arrival) (a : Arrival) :
    collisionsAfter past (hist ++ [a]) =
      collisionsAfter past hist ++ (collide (past ++ hist) a).toList := by
  induction hist generalizing past with
  | nil => simp [collisionsAfter]
  | cons b hist ih =>
    rw [List.cons_append, collisionsAfter, ih, collisionsAfter, List.append_assoc,
      List.append_assoc]
    rfl

theorem collisions_concat (hist : List Arrival) (a : Arrival) :
    collisions (hist ++ [a]) = collisions hist ++ (collide hist a).toList :=
  collisionsAfter_concat [] hist a

theorem ownerOf_concat (hist : List Arrival) (a : Arrival) (e : String × String) :
    ownerOf (hist ++ [a]) e =
      (ownerOf hist e).orElse fun _ => if a.1 = e then some a.2 else none := by
  unfold ownerOf
  rw [List.find?_append]
  cases hist.find? fun b => b.1 = e with
  | some b => rfl
  | none =>
    by_cases h : a.1 = e
    · simp [h]
    · simp [h]

theorem partyKeys_append (cs cs' : List Collision) :
    partyKeys (cs ++ cs') = partyKeys cs ++ partyKeys cs' := List.flatMap_append ..

/-! ## Identifiers of publishers -/

/-- The names interned after `ks`. -/
def internedAfter (names : List String) (ks : List String) : List String :=
  ks.foldl (StrInterner.after maxTrackedPublishers) names

/-- The identifier of a publisher. -/
def idIn (names : List String) (k : String) : ℕ := (position names k).getD u32Max

/-- A name that was interned once: it has its identifier, or will never get one. -/
def Settled (names : List String) (k : String) : Prop :=
  k ∈ names ∨ maxTrackedPublishers ≤ names.length

section Interned

variable {names ks : List String} {k k' : String}

theorem settled_after : Settled (StrInterner.after maxTrackedPublishers names k) k := by
  unfold Settled StrInterner.after
  split_ifs with h
  · exact h
  · exact Or.inl (by simp)

theorem Settled.after (h : Settled names k) :
    Settled (StrInterner.after maxTrackedPublishers names k') k := by
  unfold Settled StrInterner.after at *
  split_ifs
  · exact h
  · refine h.imp (fun h => List.mem_append_left _ h) fun h => ?_
    rw [List.length_append]
    omega

/-- The identifier of a settled name does not change. -/
theorem Settled.idIn_after (h : Settled names k) :
    idIn (StrInterner.after maxTrackedPublishers names k') k = idIn names k := by
  unfold StrInterner.after
  split_ifs with h'
  · rfl
  · rcases h with hmem | hfull
    · obtain ⟨e, he⟩ := exists_position hmem
      unfold idIn
      rw [position_append _ he, he]
    · exact absurd (Or.inr hfull) h'

theorem Settled.internedAfter (h : Settled names k) (ks : List String) :
    Settled (internedAfter names ks) k := by
  induction ks generalizing names with
  | nil => exact h
  | cons k' ks ih => exact ih h.after

theorem Settled.idIn_internedAfter (h : Settled names k) (ks : List String) :
    idIn (Bridge.internedAfter names ks) k = idIn names k := by
  induction ks generalizing names with
  | nil => rfl
  | cons k' ks ih => exact (ih h.after).trans h.idIn_after

theorem settled_internedAfter (h : k ∈ ks) : Settled (internedAfter names ks) k := by
  induction ks generalizing names with
  | nil => cases h
  | cons k' ks ih =>
    rcases List.mem_cons.mp h with rfl | h
    · exact settled_after.internedAfter ks
    · exact ih h

theorem internedAfter_append (names ks ks' : List String) :
    internedAfter names (ks ++ ks') = internedAfter (internedAfter names ks) ks' :=
  List.foldl_append ..

/-- What is interned is a list of distinct names among those offered, up to the cap. -/
theorem internedAfter_subset (ks : List String) (h : names.Nodup)
    (hlen : names.length ≤ maxTrackedPublishers) :
    (internedAfter names ks).Nodup ∧ (internedAfter names ks).length ≤ maxTrackedPublishers ∧
      ∀ k ∈ internedAfter names ks, k ∈ names ∨ k ∈ ks := by
  induction ks generalizing names with
  | nil => exact ⟨h, hlen, fun k hk => Or.inl hk⟩
  | cons k ks ih =>
    have hstep : (StrInterner.after maxTrackedPublishers names k).Nodup ∧
        (StrInterner.after maxTrackedPublishers names k).length ≤ maxTrackedPublishers ∧
        ∀ k' ∈ StrInterner.after maxTrackedPublishers names k, k' ∈ names ∨ k' = k := by
      unfold StrInterner.after
      split_ifs with hold
      · exact ⟨h, hlen, fun k' hk' => Or.inl hk'⟩
      · rw [not_or, not_le] at hold
        refine ⟨?_, by rw [List.length_append]; exact hold.2, fun k' hk' => ?_⟩
        · exact List.nodup_append.mpr ⟨h, List.nodup_singleton k, fun a ha b hb => by
            rw [List.mem_singleton.mp hb]
            rintro rfl
            exact hold.1 ha⟩
        · rcases List.mem_append.mp hk' with hk' | hk'
          · exact Or.inl hk'
          · exact Or.inr (List.mem_singleton.mp hk')
    obtain ⟨hnd, hle, hmem⟩ := ih hstep.1 hstep.2.1
    refine ⟨hnd, hle, fun k' hk' => ?_⟩
    rcases hmem k' hk' with hk' | hk'
    · rcases hstep.2.2 k' hk' with hk' | rfl
      · exact Or.inl hk'
      · exact Or.inr List.mem_cons_self
    · exact Or.inr (List.mem_cons_of_mem _ hk')

/-- Every name gets an identifier exactly if there are no more of them than the cap. -/
theorem all_interned_iff (ks : List String) :
    (∀ k ∈ ks, k ∈ internedAfter [] ks) ↔ ks.dedup.length ≤ maxTrackedPublishers := by
  obtain ⟨hnd, hle, hsub⟩ := internedAfter_subset ks List.nodup_nil (Nat.zero_le _)
  have hsub' : ∀ k ∈ internedAfter [] ks, k ∈ ks := by
    intro k hk
    rcases hsub k hk with hk | hk
    · cases hk
    · exact hk
  constructor
  · intro hall
    have hperm : ks.dedup.Subperm (internedAfter [] ks) :=
      List.subperm_of_subset (List.nodup_dedup ks) fun k hk => hall k (List.mem_dedup.mp hk)
    exact hperm.length_le.trans hle
  · intro hcap k hk
    have hsettled : Settled (internedAfter [] ks) k := settled_internedAfter hk
    rcases hsettled with hmem | hfull
    · exact hmem
    · -- the table is full, so it holds all of them
      by_contra hnot
      have hperm : (k :: internedAfter [] ks).Subperm ks.dedup := by
        refine List.subperm_of_subset (List.nodup_cons.mpr ⟨hnot, hnd⟩) fun k' hk' => ?_
        rcases List.mem_cons.mp hk' with rfl | hk'
        · exact List.mem_dedup.mpr hk
        · exact List.mem_dedup.mpr (hsub' k' hk')
      have hlen := hperm.length_le
      rw [List.length_cons] at hlen
      omega

end Interned

/-! ## What the tables hold -/

namespace Authority

/-- The tables are in order. -/
structure Ok (a : Authority) : Prop where
  index : a.index.Slots
  owners : a.owners.length = a.index.table.keys.length
  ids : a.ids.Ok
  cap : a.ids.cap = maxTrackedPublishers
  pubs : a.pubs.map Publisher.key = a.ids.table.keys

/-- What interning leaves alone. -/
structure SameBut (a a' : Authority) : Prop where
  policy : a'.policy = a.policy
  index : a'.index = a.index
  owners : a'.owners = a.owners

variable {a a' : Authority} {hist : List Arrival}

theorem Ok.pubs_length (ha : a.Ok) : a.pubs.length = a.ids.table.keys.length := by
  rw [← ha.pubs, List.length_map]

theorem resize_concat {α : Type} (xs : List α) (v w : α) :
    (resize xs (xs.length + 1) v).set xs.length w = xs ++ [w] := by
  unfold resize
  rw [List.take_of_length_le (by omega), Nat.add_sub_cancel_left, List.set_append_right _ _ le_rfl]
  simp

/-- A publisher gets its identifier. -/
theorem Ok.idFor (ha : a.Ok) (p : Publisher) :
    ∃ a', a.idFor p =
        some (idIn (StrInterner.after maxTrackedPublishers a.ids.table.keys p.key) p.key, a') ∧
      a'.Ok ∧ a'.ids.table.keys = StrInterner.after maxTrackedPublishers a.ids.table.keys p.key ∧
      a.SameBut a' ∧ a'.reported = a.reported ∧ a'.dropped = a.dropped := by
  obtain ⟨ids, hint, hok, hcap, hkeys⟩ := ha.ids.intern p.key
  rw [ha.cap] at hint hcap hkeys
  unfold Authority.idFor
  rw [hint]
  simp only [Option.bind_eq_bind, Option.bind_some]
  unfold idIn
  cases hpos : position (StrInterner.after maxTrackedPublishers a.ids.table.keys p.key) p.key with
  | none =>
    -- past the cap
    have hsame : StrInterner.after maxTrackedPublishers a.ids.table.keys p.key =
        a.ids.table.keys := by
      have hnot := position_eq_none.mp hpos
      unfold StrInterner.after at hnot ⊢
      split_ifs at hnot ⊢ with h
      · rfl
      · exact absurd (by simp) hnot
    refine ⟨_, rfl, ⟨ha.index, ha.owners, hok, hcap, ?_⟩, hkeys, ⟨rfl, rfl, rfl⟩, rfl, rfl⟩
    show a.pubs.map Publisher.key = ids.table.keys
    rw [hkeys, hsame, ha.pubs]
  | some id =>
    dsimp only
    by_cases hold : p.key ∈ a.ids.table.keys ∨ maxTrackedPublishers ≤ a.ids.table.keys.length
    · have hsame : StrInterner.after maxTrackedPublishers a.ids.table.keys p.key =
          a.ids.table.keys := if_pos hold
      have hlt := position_lt hpos
      rw [hsame, ← ha.pubs_length] at hlt
      rw [if_neg (by omega)]
      refine ⟨_, rfl, ⟨ha.index, ha.owners, hok, hcap, ?_⟩, hkeys, ⟨rfl, rfl, rfl⟩, rfl, rfl⟩
      show a.pubs.map Publisher.key = ids.table.keys
      rw [hkeys, hsame, ha.pubs]
    · have hnew : StrInterner.after maxTrackedPublishers a.ids.table.keys p.key =
          a.ids.table.keys ++ [p.key] := if_neg hold
      rw [not_or] at hold
      obtain rfl : a.pubs.length = id := by
        rw [hnew, position_concat hold.1] at hpos
        rw [ha.pubs_length]
        exact Option.some_inj.mp hpos
      have hlt : a.pubs.length < (resize a.pubs (a.pubs.length + 1) .unattributed).length := by
        unfold resize
        simp
      rw [if_pos le_rfl, setAt_eq hlt, Option.bind_some, resize_concat]
      refine ⟨_, rfl, ⟨ha.index, ha.owners, hok, hcap, ?_⟩, hkeys, ⟨rfl, rfl, rfl⟩, rfl, rfl⟩
      show (a.pubs ++ [p]).map Publisher.key = ids.table.keys
      rw [hkeys, hnew, List.map_append, ha.pubs]
      rfl

/-- A collision is counted under the identifiers of its parties. -/
theorem Ok.record (ha : a.Ok) (slot : ℕ) (o i : Publisher) :
    ∃ a', a.record slot o i = some (decide (a.reported.getD (slot, idIn a'.ids.table.keys o.key,
        idIn a'.ids.table.keys i.key) 0 = 0), a') ∧ a'.Ok ∧
      a'.ids.table.keys = internedAfter a.ids.table.keys [o.key, i.key] ∧ a.SameBut a' ∧
      a'.reported = bump a.reported
        (slot, idIn a'.ids.table.keys o.key, idIn a'.ids.table.keys i.key) ∧
      a'.dropped = a.dropped + 1 := by
  obtain ⟨a₁, h₁, hok₁, hkeys₁, hsame₁, hrep₁, hdrop₁⟩ := ha.idFor o
  obtain ⟨a₂, h₂, hok₂, hkeys₂, hsame₂, hrep₂, hdrop₂⟩ := hok₁.idFor i
  unfold Authority.record
  rw [h₁]
  simp only [Option.bind_eq_bind, Option.bind_some]
  rw [h₂]
  refine ⟨{ a₂ with
      reported := bump a₂.reported
        (slot, idIn a₁.ids.table.keys o.key, idIn a₂.ids.table.keys i.key)
      dropped := a₂.dropped + 1 }, ?_,
    ⟨hok₂.index, hok₂.owners, hok₂.ids, hok₂.cap, hok₂.pubs⟩, ?_,
    ⟨hsame₂.policy.trans hsame₁.policy, hsame₂.index.trans hsame₁.index,
      hsame₂.owners.trans hsame₁.owners⟩, ?_, ?_⟩
  · dsimp only [Option.bind_some]
    rw [hkeys₂, hkeys₁, settled_after.idIn_after, hrep₂, hrep₁]
    rfl
  · show a₂.ids.table.keys = _
    rw [hkeys₂, hkeys₁]
    rfl
  · show bump a₂.reported _ = bump a.reported (slot, idIn a₂.ids.table.keys o.key,
      idIn a₂.ids.table.keys i.key)
    rw [hrep₂, hrep₁, hkeys₂, hkeys₁, settled_after.idIn_after]
  · show a₂.dropped + 1 = a.dropped + 1
    rw [hdrop₂, hdrop₁]

/-- A sample on a slot is decided, and keeps the tables in order. -/
theorem Ok.admitAt (ha : a.Ok) {slot : ℕ} (hslot : slot < a.index.table.keys.length)
    (p : Publisher) :
    ∃ v a', a.admitAt slot p = some (v, a') ∧ a'.Ok ∧ a'.index = a.index ∧
      a'.policy = a.policy := by
  have hlt : slot < a.owners.length := by rw [ha.owners]; exact hslot
  have hset : ({ a with owners := a.owners.set slot (some p) } : Authority).Ok :=
    ⟨ha.index, by simpa using ha.owners, ha.ids, ha.cap, ha.pubs⟩
  unfold Authority.admitAt
  rw [List.getElem?_eq_getElem hlt]
  simp only [Option.bind_eq_bind, Option.bind_some]
  cases a.owners[slot] with
  | none => exact ⟨_, _, rfl, hset, rfl, rfl⟩
  | some o =>
    dsimp only
    by_cases hsame : o.key = p.key
    · rw [if_pos hsame]
      exact ⟨_, _, rfl, ha, rfl, rfl⟩
    · rw [if_neg hsame]
      obtain ⟨a', hrec, hok, -, hbut, -, -⟩ := ha.record slot o p
      cases hp : a.policy with
      | lastWriterWins =>
        exact ⟨_, _, rfl, ⟨ha.index, hset.owners, ha.ids, ha.cap, ha.pubs⟩, rfl, rfl⟩
      | strict =>
        dsimp only
        rw [hrec]
        exact ⟨_, _, rfl, hok, hbut.index, hbut.policy.trans hp⟩
      | firstWriterWins =>
        dsimp only
        rw [hrec]
        exact ⟨_, _, rfl, hok, hbut.index, hbut.policy.trans hp⟩

theorem ok_new (policy : AuthorityPolicy) (n : ℕ) :
    ({ new policy with index := .withCapacity n } : Authority).Ok :=
  ⟨EdgeIndex.slots_withCapacity n, rfl, StrInterner.ok_withCap _, rfl, rfl⟩

/-- The table seeded with a topology has its slots, none of them owned. -/
theorem seeded_ok (policy : AuthorityPolicy) (c : TopologyConfig F) :
    ∃ a, seeded policy c = some a ∧ a.Ok ∧ a.policy = policy ∧
      a.index.table.keys = slotKeys c.edges ∧ (∀ o ∈ a.owners, o = none) ∧
      a.ids.table.keys = [] ∧ a.reported = ∅ ∧ a.dropped = 0 := by
  have hrun : ∀ (es : List (EdgeConfig F)) (a : Authority), a.Ok → a.policy = policy →
      (∀ o ∈ a.owners, o = none) → a.ids.table.keys = [] → a.reported = ∅ → a.dropped = 0 →
      ∃ a', es.foldlM (fun a e => (a.slotOrInsert e.parent e.child).map Prod.snd) a = some a' ∧
        a'.Ok ∧ a'.policy = policy ∧
        a'.index.table.keys = es.foldl (fun ks e => addKey ks e.key) a.index.table.keys ∧
        (∀ o ∈ a'.owners, o = none) ∧ a'.ids.table.keys = [] ∧ a'.reported = ∅ ∧
        a'.dropped = 0 := by
    intro es
    induction es with
    | nil => exact fun a ha hp ho hi hr hd => ⟨a, rfl, ha, hp, rfl, ho, hi, hr, hd⟩
    | cons e es ih =>
      intro a ha hp ho hi hr hd
      rw [List.foldlM_cons]
      unfold Authority.slotOrInsert
      rw [ha.index.get]
      cases hpos : position a.index.table.keys (e.parent, e.child) with
      | some slot =>
        have hkeys : addKey a.index.table.keys e.key = a.index.table.keys :=
          if_pos (List.mem_of_getElem? (getElem?_of_position hpos))
        obtain ⟨a', hrest, hok, hp', hk', ho', hi', hr', hd'⟩ := ih a ha hp ho hi hr hd
        exact ⟨a', hrest, hok, hp', by rw [hk', List.foldl_cons, hkeys], ho', hi', hr', hd'⟩
      | none =>
        have hnew := position_eq_none.mp hpos
        obtain ⟨index, hins, hslots, hkeys⟩ := ha.index.insert hnew
        have hadd : addKey a.index.table.keys e.key = index.table.keys := by
          rw [hkeys]
          exact if_neg hnew
        obtain ⟨a', hrest, hok, hp', hk', ho', hi', hr', hd'⟩ :=
          ih { a with index := index, owners := a.owners ++ [none] }
            ⟨hslots, by simp [hkeys, ha.owners], ha.ids, ha.cap, ha.pubs⟩ hp
            (by
              intro o hmem
              rcases List.mem_append.mp hmem with hmem | hmem
              · exact ho o hmem
              · exact List.mem_singleton.mp hmem) hi hr hd
        refine ⟨a', ?_, hok, hp', by rw [hk', List.foldl_cons, hadd], ho', hi', hr', hd'⟩
        simp only [Option.bind_eq_bind, Option.bind_some, hins]
        exact hrest
  exact hrun c.edges _ (ok_new policy _) rfl (fun o ho => by cases ho) rfl rfl rfl

/-! ## The tables after a history -/

/-- The entry of `reported` a collision is counted in. -/
def entryOf (keys : List (String × String)) (names : List String) (c : Collision) :
    ℕ × ℕ × ℕ :=
  ((position keys c.edge).getD 0, idIn names c.owner.key, idIn names c.intruder.key)

/-- The tables hold the first publisher of each edge, and the collisions of the
    others with it. -/
structure Traced (hist : List Arrival) (a : Authority) : Prop where
  ok : a.Ok
  policy : a.policy ≠ .lastWriterWins
  owner : ∀ (slot : ℕ) (e : String × String), a.index.table.keys[slot]? = some e →
    a.owners[slot]? = some (ownerOf hist e)
  fresh : ∀ e, e ∉ a.index.table.keys → ownerOf hist e = none
  known : ∀ c ∈ collisions hist, c.edge ∈ a.index.table.keys
  names : a.ids.table.keys = internedAfter [] (partyKeys (collisions hist))
  reported : a.reported = tally compareRow
    ((collisions hist).map (entryOf a.index.table.keys a.ids.table.keys))
  dropped : a.dropped = (collisions hist).length

theorem traced_seeded {policy : AuthorityPolicy} (hp : policy ≠ .lastWriterWins)
    {c : TopologyConfig F} (h : seeded policy c = some a) : a.Traced [] := by
  obtain ⟨a', hrun, hok, hpol, -, ho, hi, hr, hd⟩ := seeded_ok policy c
  rw [h] at hrun
  cases hrun
  refine ⟨hok, by rw [hpol]; exact hp, fun slot e he => ?_, fun _ _ => rfl,
    fun c hc => absurd hc List.not_mem_nil, hi, hr, hd⟩
  have hlt : slot < a.owners.length := by
    rw [hok.owners]
    exact (List.getElem?_eq_some_iff.mp he).1
  rw [List.getElem?_eq_getElem hlt, ho _ (List.getElem_mem hlt)]
  rfl

/-- The entries of the collisions so far do not move when more names are interned. -/
theorem Traced.entries (ht : a.Traced hist) (ks : List String) :
    (collisions hist).map
        (entryOf a.index.table.keys (internedAfter a.ids.table.keys ks)) =
      (collisions hist).map (entryOf a.index.table.keys a.ids.table.keys) := by
  refine List.map_congr_left fun c hc => ?_
  have hparty : ∀ k ∈ [c.owner.key, c.intruder.key], Settled a.ids.table.keys k := by
    intro k hk
    rw [ht.names]
    exact settled_internedAfter (List.mem_flatMap.mpr ⟨c, hc, hk⟩)
  unfold entryOf
  rw [(hparty _ (by simp)).idIn_internedAfter, (hparty _ (by simp)).idIn_internedAfter]

/-- **Step lemma.** A sample on an edge that has a slot is decided, and the tables then
    hold the history with it. -/
theorem Traced.admitAt (ht : a.Traced hist) {slot : ℕ} {e : String × String}
    (he : a.index.table.keys[slot]? = some e) (p : Publisher) :
    ∃ v a', a.admitAt slot p = some (v, a') ∧ a'.Traced (hist ++ [(e, p)]) ∧
      a'.index = a.index := by
  have hok := ht.ok
  have hslot := (List.getElem?_eq_some_iff.mp he).1
  have hlt : slot < a.owners.length := by rw [hok.owners]; exact hslot
  have hown := ht.owner slot e he
  have hpos := (position_eq_some hok.index.ok.table.nodup).mpr he
  have hfresh : ∀ e', e' ∉ a.index.table.keys → ownerOf (hist ++ [(e, p)]) e' = none := by
    intro e' he'
    have hne : e ≠ e' := by
      rintro rfl
      exact he' (List.mem_of_getElem? he)
    rw [ownerOf_concat, ht.fresh e' he', if_neg hne]
    rfl
  -- an edge that has an owner keeps it
  have hkeep : ∀ o, ownerOf hist e = some o → ∀ e',
      ownerOf (hist ++ [(e, p)]) e' = ownerOf hist e' := by
    intro o ho e'
    rw [ownerOf_concat]
    by_cases hee : e = e'
    · rw [← hee, ho]
      rfl
    · rw [if_neg hee]
      cases ownerOf hist e' <;> rfl
  unfold Authority.admitAt
  rw [hown]
  simp only [Option.bind_eq_bind, Option.bind_some]
  cases ho : ownerOf hist e with
  | none =>
    -- the first publisher of the edge
    have hnone : collisions (hist ++ [(e, p)]) = collisions hist := by
      rw [collisions_concat, collide, ho]
      simp
    refine ⟨_, _, rfl, ⟨⟨hok.index, by simpa using hok.owners, hok.ids, hok.cap, hok.pubs⟩,
      ht.policy, fun slot' e' he' => ?_, hfresh, ?_, ?_, ?_, ?_⟩, rfl⟩
    · show (a.owners.set slot (some p))[slot']? = _
      rw [ownerOf_concat]
      by_cases hs : slot = slot'
      · subst hs
        rw [he] at he'
        cases he'
        rw [List.getElem?_set_self hlt, ho, if_pos rfl]
        rfl
      · have hne : e ≠ e' := by
          rintro rfl
          have hpos' := (position_eq_some hok.index.ok.table.nodup).mpr he'
          rw [hpos] at hpos'
          exact hs (Option.some_inj.mp hpos')
        rw [List.getElem?_set_ne hs, ht.owner slot' e' he', if_neg hne]
        cases ownerOf hist e' <;> rfl
    · rw [hnone]; exact ht.known
    · rw [hnone]; exact ht.names
    · rw [hnone]; exact ht.reported
    · rw [hnone]; exact ht.dropped
  | some o =>
    dsimp only
    by_cases hsame : o.key = p.key
    · -- the owner itself
      have hnone : collisions (hist ++ [(e, p)]) = collisions hist := by
        rw [collisions_concat, collide, ho, Option.bind_some, if_pos hsame]
        simp
      rw [if_pos hsame]
      refine ⟨_, _, rfl, ⟨hok, ht.policy, fun slot' e' he' => ?_, hfresh, ?_, ?_, ?_, ?_⟩, rfl⟩
      · rw [hkeep o ho]
        exact ht.owner slot' e' he'
      · rw [hnone]; exact ht.known
      · rw [hnone]; exact ht.names
      · rw [hnone]; exact ht.reported
      · rw [hnone]; exact ht.dropped
    · rw [if_neg hsame]
      have hone : collisions (hist ++ [(e, p)]) = collisions hist ++ [⟨e, o, p⟩] := by
        rw [collisions_concat, collide, ho, Option.bind_some, if_neg hsame]
        rfl
      obtain ⟨a', hrec, hok', hkeys', hbut, hrep', hdrop'⟩ := hok.record slot o p
      have htraced : a'.Traced (hist ++ [(e, p)]) := by
        refine ⟨hok', by rw [hbut.policy]; exact ht.policy, fun slot' e' he' => ?_,
          by rw [hbut.index]; exact hfresh, ?_, ?_, ?_, ?_⟩
        · rw [hbut.index] at he'
          rw [hbut.owners, hkeep o ho]
          exact ht.owner slot' e' he'
        · rw [hone, hbut.index]
          intro c hc
          rcases List.mem_append.mp hc with hc | hc
          · exact ht.known c hc
          · rw [List.mem_singleton.mp hc]
            exact List.mem_of_getElem? he
        · rw [hkeys', hone, ht.names, partyKeys_append, internedAfter_append]
          rfl
        · rw [hrep', hone, List.map_append, List.map_singleton, tally_concat, ht.reported,
            hbut.index, hkeys', ht.entries]
          unfold entryOf
          rw [hpos]
          rfl
        · rw [hdrop', hone, ht.dropped, List.length_append]
          rfl
      cases hp : a.policy with
      | lastWriterWins => exact absurd hp ht.policy
      | strict =>
        dsimp only
        rw [hrec]
        exact ⟨_, _, rfl, htraced, hbut.index⟩
      | firstWriterWins =>
        dsimp only
        rw [hrec]
        exact ⟨_, _, rfl, htraced, hbut.index⟩

/-- An edge without a slot gets one, and the tables still hold the history. -/
theorem Traced.slotOrInsert (ht : a.Traced hist) (e : String × String) :
    ∃ slot a', a.slotOrInsert e.1 e.2 = some (slot, a') ∧ a'.Traced hist ∧
      a'.index.table.keys[slot]? = some e := by
  have hok := ht.ok
  unfold Authority.slotOrInsert
  rw [hok.index.get]
  cases hpos : position a.index.table.keys (e.1, e.2) with
  | some slot => exact ⟨slot, a, rfl, ht, getElem?_of_position hpos⟩
  | none =>
    have hnew : e ∉ a.index.table.keys := position_eq_none.mp hpos
    obtain ⟨index, hins, hslots, hkeys⟩ := hok.index.insert hnew
    simp only [Option.bind_eq_bind, Option.bind_some, hins]
    refine ⟨_, _, rfl, ⟨⟨hslots, ?_, hok.ids, hok.cap, hok.pubs⟩, ht.policy, ?_, ?_, ?_,
      ht.names, ?_,
      ht.dropped⟩, ?_⟩
    · simp [hkeys, hok.owners]
    · show ∀ slot e', index.table.keys[slot]? = some e' →
        (a.owners ++ [none])[slot]? = some (ownerOf hist e')
      intro slot e' he'
      rw [hkeys] at he'
      by_cases hlt : slot < a.index.table.keys.length
      · rw [List.getElem?_append_left hlt] at he'
        rw [List.getElem?_append_left (by rw [hok.owners]; exact hlt)]
        exact ht.owner slot e' he'
      · have hmem := (List.getElem?_eq_some_iff.mp he').1
        rw [List.length_append, List.length_singleton] at hmem
        obtain rfl : slot = a.index.table.keys.length := by omega
        rw [List.getElem?_concat_length] at he'
        cases he'
        rw [← hok.owners, List.getElem?_concat_length, ht.fresh e hnew]
    · show ∀ e', e' ∉ index.table.keys → ownerOf hist e' = none
      intro e' he'
      rw [hkeys] at he'
      exact ht.fresh e' fun h => he' (List.mem_append_left _ h)
    · show ∀ c ∈ collisions hist, c.edge ∈ index.table.keys
      intro c hc
      rw [hkeys]
      exact List.mem_append_left _ (ht.known c hc)
    · show a.reported = tally compareRow
        ((collisions hist).map (entryOf index.table.keys a.ids.table.keys))
      rw [ht.reported]
      refine congrArg (tally compareRow) (List.map_congr_left fun c hc => ?_)
      obtain ⟨slot, hslot⟩ := exists_position (ht.known c hc)
      unfold entryOf
      rw [hkeys, position_append _ hslot, hslot]
    · show index.table.keys[a.index.len]? = some e
      rw [hkeys]
      exact List.getElem?_concat_length

/-- A sample on any edge is decided, and the tables then hold the history with it. -/
theorem Traced.admitEdge (ht : a.Traced hist) (e : String × String) (p : Publisher) :
    ∃ v a', a.admitEdge e.1 e.2 p = some (v, a') ∧ a'.Traced (hist ++ [(e, p)]) := by
  obtain ⟨slot, a₁, hslot, ht₁, he⟩ := ht.slotOrInsert e
  obtain ⟨v, a', hadm, ht', -⟩ := ht₁.admitAt he p
  refine ⟨v, a', ?_, ht'⟩
  unfold Authority.admitEdge
  rw [hslot]
  exact hadm

/-! ## The report -/

/-- Every party of a collision has an identifier. -/
def Complete (a : Authority) (hist : List Arrival) : Prop :=
  ∀ k ∈ partyKeys (collisions hist), k ∈ a.ids.table.keys

theorem Traced.complete_iff (ht : a.Traced hist) :
    a.Complete hist ↔ (parties hist).length ≤ maxTrackedPublishers := by
  unfold Complete parties
  rw [ht.names]
  exact all_interned_iff _

/-- An entry of `reported` is the entry of a collision. -/
theorem Traced.mem_reported (ht : a.Traced hist) {row : (ℕ × ℕ × ℕ) × ℕ} :
    row ∈ a.reported.toList ↔
      ∃ c ∈ collisions hist, entryOf a.index.table.keys a.ids.table.keys c = row.1 ∧
        row.2 = ((collisions hist).map
          (entryOf a.index.table.keys a.ids.table.keys)).countP fun k => k = row.1 := by
  obtain ⟨key, n⟩ := row
  rw [Std.TreeMap.mem_toList_iff_getElem?_eq_some, ht.reported, getElem?_tally]
  dsimp only
  constructor
  · intro h
    split_ifs at h with hmem
    obtain ⟨c, hc, heq⟩ := List.mem_map.mp hmem
    exact ⟨c, hc, heq, (Option.some_inj.mp h).symm⟩
  · rintro ⟨c, hc, heq, hcount⟩
    rw [if_pos (List.mem_map.mpr ⟨c, hc, heq⟩), hcount]

/-- A party with an identifier is found under it. -/
theorem Ok.pubs_idIn (ha : a.Ok) {k : String} (hk : k ∈ a.ids.table.keys) :
    ∃ p, a.pubs[idIn a.ids.table.keys k]? = some p ∧ p.key = k := by
  obtain ⟨e, he⟩ := exists_position hk
  have hget := getElem?_of_position he
  rw [← ha.pubs, List.getElem?_map] at hget
  obtain ⟨p, hp, hkey⟩ := Option.map_eq_some_iff.mp hget
  refine ⟨p, ?_, hkey⟩
  unfold idIn
  rw [he]
  exact hp

/-- The row of the entry of a collision names its edge and its parties. -/
theorem Traced.conflictRow (ht : a.Traced hist) (hall : a.Complete hist) {c : Collision}
    (hc : c ∈ collisions hist) (n : ℕ) :
    ∃ r, a.conflictRow (entryOf a.index.table.keys a.ids.table.keys c, n) = some r ∧
      r.Reports c ∧ r.count = n := by
  obtain ⟨slot, hslot⟩ := exists_position (ht.known c hc)
  obtain ⟨o, ho, hokey⟩ :=
    ht.ok.pubs_idIn (hall c.owner.key (List.mem_flatMap.mpr ⟨c, hc, by simp⟩))
  obtain ⟨i, hi, hikey⟩ :=
    ht.ok.pubs_idIn (hall c.intruder.key (List.mem_flatMap.mpr ⟨c, hc, by simp⟩))
  refine ⟨⟨c.edge, o, i, n⟩, ?_, ⟨rfl, hokey.symm, hikey.symm⟩, rfl⟩
  unfold Authority.conflictRow EdgeIndex.key entryOf
  rw [hslot]
  dsimp only [Option.getD_some]
  rw [getElem?_of_position hslot, ho, hi]
  rfl

/-- Collisions have one entry exactly if they are of one edge and of the same parties. -/
theorem Traced.entryOf_inj (ht : a.Traced hist) (hall : a.Complete hist) {c c' : Collision}
    (hc : c ∈ collisions hist) (hc' : c' ∈ collisions hist) :
    entryOf a.index.table.keys a.ids.table.keys c =
        entryOf a.index.table.keys a.ids.table.keys c' ↔
      c.edge = c'.edge ∧ c.owner.key = c'.owner.key ∧ c.intruder.key = c'.intruder.key := by
  constructor
  · intro h
    obtain ⟨r, hr, hrep, -⟩ := ht.conflictRow hall hc 0
    obtain ⟨r', hr', hrep', -⟩ := ht.conflictRow hall hc' 0
    rw [h, hr'] at hr
    cases hr
    exact ⟨hrep.1.trans hrep'.1.symm, hrep.2.1.trans hrep'.2.1.symm,
      hrep.2.2.trans hrep'.2.2.symm⟩
  · rintro ⟨he, ho, hi⟩
    unfold entryOf
    rw [he, ho, hi]

/-- The conflicts are reported: the counts add up to the dropped samples, and a row
    counts the collisions of its two publishers on its edge. -/
theorem Traced.conflicts (ht : a.Traced hist) (hall : a.Complete hist) :
    ∃ rows, a.conflicts = some rows ∧ (rows.map ConflictRow.count).sum = a.dropped ∧
      ∀ r ∈ rows, 0 < r.count ∧ r.count = (collisions hist).countP fun c => r.Reports c := by
  have hrows : ∀ row ∈ a.reported.toList, ∃ r, a.conflictRow row = some r := by
    intro row hrow
    obtain ⟨c, hc, hentry, -⟩ := ht.mem_reported.mp hrow
    obtain ⟨r, hr, -, -⟩ := ht.conflictRow hall hc row.2
    rw [hentry] at hr
    exact ⟨r, hr⟩
  obtain ⟨rows, hmap⟩ := mapM_isSome_iff.mpr hrows
  have hforall := mapM_forall₂ hmap
  refine ⟨rows, hmap, ?_, fun r hr => ?_⟩
  · -- the counts are those of the entries
    have hcounts : rows.map ConflictRow.count = a.reported.toList.map Prod.snd := by
      have hmem : ∀ row ∈ a.reported.toList, ∀ r, a.conflictRow row = some r → r.count = row.2 := by
        intro row hrow r hr
        obtain ⟨c, hc, hentry, -⟩ := ht.mem_reported.mp hrow
        obtain ⟨r', hr', -, hcount⟩ := ht.conflictRow hall hc row.2
        rw [hentry] at hr'
        rw [hr] at hr'
        cases hr'
        exact hcount
      clear hmap hrows
      generalize a.reported.toList = entries at hforall hmem
      induction hforall with
      | nil => rfl
      | cons h _ ih =>
        rw [List.map_cons, List.map_cons, hmem _ List.mem_cons_self _ h,
          ih fun row hrow => hmem row (List.mem_cons_of_mem _ hrow)]
    rw [hcounts]
    show total a.reported = a.dropped
    rw [ht.reported, total_tally, List.length_map, ht.dropped]
  · obtain ⟨row, hrow, hr⟩ : ∃ row ∈ a.reported.toList, a.conflictRow row = some r := by
      clear hmap hrows
      generalize a.reported.toList = entries at hforall
      induction hforall with
      | nil => cases hr
      | cons h _ ih =>
        rcases List.mem_cons.mp hr with rfl | hr
        · exact ⟨_, List.mem_cons_self, h⟩
        · obtain ⟨row, hrow, hr⟩ := ih hr
          exact ⟨row, List.mem_cons_of_mem _ hrow, hr⟩
    obtain ⟨c, hc, hentry, hn⟩ := ht.mem_reported.mp hrow
    obtain ⟨r', hr', hrep, hcount⟩ := ht.conflictRow hall hc row.2
    rw [hentry, hr] at hr'
    cases hr'
    have hcountP : row.2 = (collisions hist).countP fun c => r.Reports c := by
      rw [hn, List.countP_map]
      refine List.countP_congr fun c' hc' => ?_
      rw [Function.comp_apply, decide_eq_true_iff, decide_eq_true_iff, ← hentry,
        ht.entryOf_inj hall hc' hc, hrep.1, hrep.2.1, hrep.2.2]
      rfl
    refine ⟨?_, hcount.trans hcountP⟩
    rw [hcount, hcountP, List.countP_pos_iff]
    exact ⟨c, hc, by simpa using hrep⟩

/-- The report returns exactly if every party has an identifier. -/
theorem Traced.conflicts_isSome_iff (ht : a.Traced hist) :
    (∃ rows, a.conflicts = some rows) ↔ a.Complete hist := by
  constructor
  · rintro ⟨rows, hrows⟩ k hk
    obtain ⟨c, hc, hkc⟩ := List.mem_flatMap.mp hk
    obtain ⟨n, hn⟩ : ∃ n, (entryOf a.index.table.keys a.ids.table.keys c, n) ∈ a.reported.toList :=
      ⟨((collisions hist).map (entryOf a.index.table.keys a.ids.table.keys)).countP
        fun k => k = entryOf a.index.table.keys a.ids.table.keys c,
        ht.mem_reported.mpr ⟨c, hc, rfl, rfl⟩⟩
    obtain ⟨r, hr⟩ := mapM_isSome_iff.mp ⟨rows, hrows⟩ _ hn
    obtain ⟨_, _, h⟩ := Option.bind_eq_some_iff.mp hr
    obtain ⟨o, ho, h⟩ := Option.bind_eq_some_iff.mp h
    obtain ⟨i, hi, -⟩ := Option.bind_eq_some_iff.mp h
    -- no publisher stands at `u32::MAX`
    have hin : ∀ k' p, a.pubs[idIn a.ids.table.keys k']? = some p → k' ∈ a.ids.table.keys := by
      intro k' p hp
      by_contra hnot
      have hlt := (List.getElem?_eq_some_iff.mp hp).1
      have hle := ht.ok.ids.le
      rw [ht.ok.cap] at hle
      rw [ht.ok.pubs_length] at hlt
      unfold idIn at hlt
      rw [position_eq_none.mpr hnot, Option.getD_none] at hlt
      unfold u32Max at hlt
      unfold maxTrackedPublishers at hle
      omega
    simp only [List.mem_cons, List.not_mem_nil, or_false] at hkc
    rcases hkc with rfl | rfl
    · exact hin _ o ho
    · exact hin _ i hi
  · intro hall
    obtain ⟨rows, hrows, -, -⟩ := ht.conflicts hall
    exact ⟨rows, hrows⟩

end Authority

end TfTree.Bridge
