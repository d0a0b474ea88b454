import Mathlib
import TfTree.Bridge.Authority

/-!
# Who owns an edge, and when a conflict is loud

The verdicts of `authority.rs` (`tf_tree_bridge`) on a sequence of samples under
`FirstWriterWins` or `Strict`.

Results:
* `Authority.Traced.verdict`: the verdict on a sample is determined by the samples before it.
* `loud_once_iff`: `first_time` marks the first collision of each owner and intruder on an edge
  exactly as long as no two intruders of an edge are past the cap of the identifiers.
-/

namespace TfTree.Bridge

open Data

variable {F : Type}

/-! ## Model of `authority.rs` -/

namespace Authority

/-- `Authority::owner_of` (lines 208–212): an index out of range panics. -/
def ownerOf (a : Authority) (parent child : String) : Option (Option Publisher) := do
  match ← a.index.get parent child with
  | some slot => a.owners[slot]?
  | none => return none

/-- The verdicts on a sequence of samples. -/
def verdicts (a : Authority) : List Arrival → Option (List Verdict × Authority)
  | [] => some ([], a)
  | ((parent, child), publisher) :: hist => do
    let (v, a) ← a.admitEdge parent child publisher
    let (vs, a) ← a.verdicts hist
    return (v :: vs, a)

end Authority

/-! ## What the verdicts should be -/

/-- The collisions are of one edge and of the same parties. -/
def Collision.Same (c c' : Collision) : Prop :=
  c.edge = c'.edge ∧ c.owner.key = c'.owner.key ∧ c.intruder.key = c'.intruder.key

instance (c c' : Collision) : Decidable (c.Same c') := inferInstanceAs (Decidable (_ ∧ _ ∧ _))

/-- The verdict on an intruder. -/
def refuse (policy : AuthorityPolicy) (c : Collision) (firstTime : Bool) : Verdict :=
  match policy with
  | .strict => .fatal c.owner c.intruder firstTime
  | _ => .reject c.owner c.intruder firstTime

/-- The verdict on a sample after `hist`: the owner of the edge is accepted, an intruder is
    refused, and loudly the first time. -/
def verdictOn (policy : AuthorityPolicy) (hist : List Arrival) (x : Arrival) : Verdict :=
  match collide hist x with
  | none => .accept
  | some c => refuse policy c (decide (∀ c' ∈ collisions hist, ¬ c'.Same c))

/-- The verdicts on the samples `hist` after `past`. -/
def verdictsAfter (policy : AuthorityPolicy) (past : List Arrival) : List Arrival → List Verdict
  | [] => []
  | x :: hist => verdictOn policy past x :: verdictsAfter policy (past ++ [x]) hist

/-- The parties that have an identifier: the first `maxTrackedPublishers` of them. -/
def tracked (hist : List Arrival) : List String := internedAfter [] (partyKeys (collisions hist))

/-- Of the intruders of an edge at most one has no identifier. -/
def OneUntracked (hist : List Arrival) : Prop :=
  ∀ c ∈ collisions hist, ∀ c' ∈ collisions hist, c.edge = c'.edge →
    c.intruder.key ∉ tracked hist → c'.intruder.key ∉ tracked hist →
    c.intruder.key = c'.intruder.key

instance (hist : List Arrival) : Decidable (OneUntracked hist) :=
  inferInstanceAs (Decidable (∀ c ∈ collisions hist, ∀ c' ∈ collisions hist, _ → _ → _ → _))

theorem verdictsAfter_append (policy : AuthorityPolicy) (past hist : List Arrival) (x : Arrival) :
    verdictsAfter policy past (hist ++ [x]) =
      verdictsAfter policy past hist ++ [verdictOn policy (past ++ hist) x] := by
  induction hist generalizing past with
  | nil => simp [verdictsAfter]
  | cons y hist ih => simp [verdictsAfter, ih]

/-! ## Collisions and their entries -/

/-- The owner of an edge stays its owner. -/
theorem ownerOf_append {hist : List Arrival} {e : String × String} {o : Publisher}
    (h : ownerOf hist e = some o) (more : List Arrival) : ownerOf (hist ++ more) e = some o := by
  unfold ownerOf at h ⊢
  obtain ⟨x, hx, rfl⟩ := Option.map_eq_some_iff.mp h
  rw [List.find?_append, hx]
  rfl

/-- A collision is with the owner of its edge. -/
theorem owner_of_collision {hist : List Arrival} {c : Collision} (h : c ∈ collisions hist) :
    ownerOf hist c.edge = some c.owner := by
  induction hist using List.reverseRecOn with
  | nil => cases h
  | append_singleton hist x ih =>
    rw [collisions_concat] at h
    rcases List.mem_append.mp h with h | h
    · exact ownerOf_append (ih h) [x]
    · obtain ⟨o, ho, hc⟩ := Option.bind_eq_some_iff.mp (Option.mem_toList.mp h)
      split_ifs at hc
      cases hc
      exact ownerOf_append ho [x]

theorem idIn_inj {names : List String} (hle : names.length ≤ maxTrackedPublishers)
    {k k' : String} :
    idIn names k = idIn names k' ↔ k = k' ∨ k ∉ names ∧ k' ∉ names := by
  have hlow : ∀ {k e}, position names k = some e → e < u32Max := by
    intro k e h
    have hlt := position_lt h
    unfold maxTrackedPublishers at hle
    unfold u32Max
    omega
  unfold idIn
  rw [← position_eq_none, ← position_eq_none]
  cases hk : position names k with
  | none =>
    cases hk' : position names k' with
    | none => simp
    | some e' =>
      have hlt := hlow hk'
      constructor
      · intro h
        exact absurd (show u32Max = e' from h) hlt.ne'
      · rintro (rfl | ⟨-, h⟩)
        · rw [hk] at hk'
          cases hk'
        · cases h
  | some e =>
    cases hk' : position names k' with
    | none =>
      have hlt := hlow hk
      constructor
      · intro h
        exact absurd (show e = u32Max from h) hlt.ne
      · rintro (rfl | ⟨h, -⟩)
        · rw [hk] at hk'
          cases hk'
        · cases h
    | some e' =>
      have hget := getElem?_of_position hk
      have hget' := getElem?_of_position hk'
      constructor
      · rintro (h : e = e')
        rw [h, hget'] at hget
        exact .inl (Option.some_inj.mp hget).symm
      · rintro (rfl | ⟨h, -⟩)
        · rw [hk] at hk'
          exact Option.some_inj.mp hk'
        · cases h

/-- No collision among the samples has the entry of `c`, with the names interned at `names`. -/
def NewEntry (a : Authority) (hist : List Arrival) (c : Collision) : Prop :=
  ∀ c' ∈ collisions hist, Authority.entryOf a.index.table.keys a.ids.table.keys c' ≠
    Authority.entryOf a.index.table.keys a.ids.table.keys c

instance (a : Authority) (hist : List Arrival) (c : Collision) : Decidable (NewEntry a hist c) :=
  inferInstanceAs (Decidable (∀ c' ∈ collisions hist, _))

namespace Authority

variable {a a' : Authority} {hist : List Arrival} {policy : AuthorityPolicy}

/-- **Step lemma.** The verdict on a sample: an intruder is refused, and loudly if there is no
    entry of the collision yet. -/
theorem Traced.verdict (ht : a.Traced hist) {slot : ℕ} {e : String × String} {p : Publisher}
    {v : Verdict} (he : a.index.table.keys[slot]? = some e)
    (h : a.admitAt slot p = some (v, a')) :
    v = match collide hist (e, p) with
      | none => .accept
      | some c => refuse a.policy c (decide (NewEntry a' hist c)) := by
  have hpos := (position_eq_some ht.ok.index.ok.table.nodup).mpr he
  unfold Authority.admitAt at h
  rw [ht.owner slot e he] at h
  simp only [Option.bind_eq_bind, Option.bind_some] at h
  unfold collide
  cases ho : Bridge.ownerOf hist e with
  | none =>
    rw [ho] at h
    simp only [Option.pure_def, Option.some.injEq, Prod.mk.injEq] at h
    exact h.1.symm
  | some o =>
    rw [ho] at h
    dsimp only [Option.bind_some] at h ⊢
    by_cases hsame : o.key = p.key
    · rw [if_pos hsame] at h ⊢
      simp only [Option.pure_def, Option.some.injEq, Prod.mk.injEq] at h
      exact h.1.symm
    · rw [if_neg hsame] at h ⊢
      obtain ⟨a₁, hrec, -, hkeys, hbut, -, -⟩ := ht.ok.record slot o p
      -- the entries do not move while the parties of this collision are interned
      have hfirst : a.reported.getD (slot, idIn a₁.ids.table.keys o.key,
          idIn a₁.ids.table.keys p.key) 0 = 0 ↔ NewEntry a₁ hist ⟨e, o, p⟩ := by
        unfold NewEntry
        rw [ht.reported, ← ht.entries [o.key, p.key], ← hkeys, getD_tally_eq_zero, hbut.index]
        have hentry : entryOf a.index.table.keys a₁.ids.table.keys ⟨e, o, p⟩ =
            (slot, idIn a₁.ids.table.keys o.key, idIn a₁.ids.table.keys p.key) := by
          unfold entryOf
          rw [hpos]
          rfl
        rw [hentry]
        simp
      rw [hrec] at h
      cases hp : a.policy with
      | lastWriterWins => exact absurd hp ht.policy
      | strict =>
        rw [hp] at h
        simp only [Option.bind_some, Option.pure_def, Option.some.injEq, Prod.mk.injEq] at h
        obtain ⟨rfl, rfl⟩ := h
        simp only [refuse, hfirst]
      | firstWriterWins =>
        rw [hp] at h
        simp only [Option.bind_some, Option.pure_def, Option.some.injEq, Prod.mk.injEq] at h
        obtain ⟨rfl, rfl⟩ := h
        simp only [refuse, hfirst]

theorem slotOrInsert_policy {slot : ℕ} {e : String × String}
    (h : a.slotOrInsert e.1 e.2 = some (slot, a')) : a'.policy = a.policy := by
  unfold Authority.slotOrInsert at h
  simp only [Option.bind_eq_bind, Option.pure_def, Option.bind_eq_some_iff] at h
  obtain ⟨found, -, h⟩ := h
  cases found with
  | some s =>
    simp only [Option.some.injEq, Prod.mk.injEq] at h
    rw [← h.2]
  | none =>
    simp only [Option.bind_eq_some_iff, Option.some.injEq, Prod.mk.injEq] at h
    obtain ⟨_, -, -, rfl⟩ := h
    rfl

/-- A sample on any edge is decided, and the tables then hold the history with it. -/
theorem Traced.admit (ht : a.Traced hist) (x : Arrival) :
    ∃ v a', a.admitEdge x.1.1 x.1.2 x.2 = some (v, a') ∧ a'.Traced (hist ++ [x]) ∧
      a'.policy = a.policy ∧
      v = match collide hist x with
        | none => .accept
        | some c => refuse a.policy c (decide (NewEntry a' hist c)) := by
  obtain ⟨slot, a₁, hslot, ht₁, he⟩ := ht.slotOrInsert x.1
  obtain ⟨v, a', hadm, ht', -⟩ := ht₁.admitAt he x.2
  obtain ⟨v', a'', hadm', -, -, hpol⟩ := ht₁.ok.admitAt (List.getElem?_eq_some_iff.mp he).1 x.2
  rw [hadm] at hadm'
  cases hadm'
  have hkeep := slotOrInsert_policy hslot
  refine ⟨v, a', ?_, ht', hpol.trans hkeep, ?_⟩
  · unfold Authority.admitEdge
    rw [hslot]
    exact hadm
  · rw [ht₁.verdict he hadm, hkeep]

theorem verdicts_append (a : Authority) (hist : List Arrival) (x : Arrival) :
    a.verdicts (hist ++ [x]) = do
      let (vs, a) ← a.verdicts hist
      let (v, a) ← a.admitEdge x.1.1 x.1.2 x.2
      return (vs ++ [v], a) := by
  induction hist generalizing a with
  | nil =>
    show ((a.admitEdge x.1.1 x.1.2 x.2).bind fun r => some ([r.1], r.2)) = _
    rfl
  | cons y hist ih =>
    show ((a.admitEdge y.1.1 y.1.2 y.2).bind fun r =>
      (r.2.verdicts (hist ++ [x])).bind fun r' => some (r.1 :: r'.1, r'.2)) =
      ((a.admitEdge y.1.1 y.1.2 y.2).bind fun r =>
        (r.2.verdicts hist).bind fun r' => some (r.1 :: r'.1, r'.2)).bind fun r =>
          (r.2.admitEdge x.1.1 x.1.2 x.2).bind fun r' => some (r.1 ++ [r'.1], r'.2)
    cases a.admitEdge y.1.1 y.1.2 y.2 with
    | none => rfl
    | some r =>
      simp only [Option.bind_some, ih]
      cases r.2.verdicts hist with
      | none => rfl
      | some r' =>
        show ((r'.2.admitEdge x.1.1 x.1.2 x.2).bind _).bind _ =
          (r'.2.admitEdge x.1.1 x.1.2 x.2).bind _
        cases r'.2.admitEdge x.1.1 x.1.2 x.2 <;> rfl

/-- Whose entries are the same: the intruders of an edge that are one, or have no identifier. -/
theorem Traced.entryOf_eq_iff (ht : a.Traced hist) {c c' : Collision} (hc : c ∈ collisions hist)
    (hc' : c' ∈ collisions hist) :
    entryOf a.index.table.keys a.ids.table.keys c =
        entryOf a.index.table.keys a.ids.table.keys c' ↔
      c.edge = c'.edge ∧ (c.intruder.key = c'.intruder.key ∨
        c.intruder.key ∉ tracked hist ∧ c'.intruder.key ∉ tracked hist) := by
  have hle : a.ids.table.keys.length ≤ maxTrackedPublishers := by
    rw [ht.names]
    exact (internedAfter_subset _ List.nodup_nil (Nat.zero_le _)).2.1
  have hnames : tracked hist = a.ids.table.keys := ht.names.symm
  obtain ⟨slot, hslot⟩ := exists_position (ht.known c hc)
  obtain ⟨slot', hslot'⟩ := exists_position (ht.known c' hc')
  have hedge : slot = slot' ↔ c.edge = c'.edge := by
    constructor
    · rintro rfl
      have hget := getElem?_of_position hslot
      rw [getElem?_of_position hslot'] at hget
      exact (Option.some_inj.mp hget).symm
    · intro h
      rw [h, hslot'] at hslot
      exact (Option.some_inj.mp hslot).symm
  unfold entryOf
  rw [hslot, hslot', Option.getD_some, Option.getD_some, Prod.mk.injEq, Prod.mk.injEq, hedge,
    idIn_inj hle, idIn_inj hle, hnames]
  constructor
  · rintro ⟨he, -, hi⟩
    exact ⟨he, hi⟩
  · rintro ⟨he, hi⟩
    have ho := owner_of_collision hc
    rw [he, owner_of_collision hc', Option.some_inj] at ho
    exact ⟨he, .inl (by rw [ho]), hi⟩

end Authority

/-! ## One history more -/

section Step

variable {hist : List Arrival} {x : Arrival}

theorem mem_partyKeys {c : Collision} (hc : c ∈ collisions hist) :
    c.intruder.key ∈ partyKeys (collisions hist) :=
  List.mem_flatMap.mpr ⟨c, hc, by simp⟩

/-- A party keeps its identifier, or never gets one. -/
theorem mem_tracked_append {k : String} (hk : k ∈ partyKeys (collisions hist)) :
    k ∈ tracked (hist ++ [x]) ↔ k ∈ tracked hist := by
  have hsettled : ∀ (ks : List String) (names : List String), Settled names k →
      (k ∈ internedAfter names ks ↔ k ∈ names) := by
    intro ks
    induction ks with
    | nil => exact fun names _ => Iff.rfl
    | cons k' ks ih =>
      intro names h
      refine (ih _ h.after).trans ?_
      unfold StrInterner.after
      split_ifs with hold
      · exact Iff.rfl
      · rw [not_or] at hold
        rcases h with hmem | hfull
        · simp [hmem]
        · exact absurd hfull hold.2
  unfold tracked
  rw [collisions_concat, partyKeys_append, internedAfter_append]
  exact hsettled _ _ (settled_internedAfter hk)

/-- The intruder `c` is the only one of its edge without an identifier, or has one. -/
def OnlyUntracked (hist : List Arrival) (names : List String) (c : Collision) : Prop :=
  ∀ c' ∈ collisions hist, c'.edge = c.edge → c'.intruder.key ∉ names → c.intruder.key ∉ names →
    c'.intruder.key = c.intruder.key

theorem oneUntracked_append :
    OneUntracked (hist ++ [x]) ↔ OneUntracked hist ∧
      ∀ c ∈ collide hist x, OnlyUntracked hist (tracked (hist ++ [x])) c := by
  have hmem : ∀ c, c ∈ collisions (hist ++ [x]) ↔ c ∈ collisions hist ∨ c ∈ collide hist x := by
    intro c
    rw [collisions_concat, List.mem_append, Option.mem_toList]
    exact Iff.rfl
  constructor
  · intro h
    refine ⟨fun c hc c' hc' he hu hu' => ?_, fun c hc c' hc' he hu' hu => ?_⟩
    · refine h c ((hmem c).mpr (.inl hc)) c' ((hmem c').mpr (.inl hc')) he ?_ ?_
      · rwa [mem_tracked_append (mem_partyKeys hc)]
      · rwa [mem_tracked_append (mem_partyKeys hc')]
    · exact h c' ((hmem c').mpr (.inl hc')) c ((hmem c).mpr (.inr hc)) he hu' hu
  · rintro ⟨h, hnew⟩ c hc c' hc' he hu hu'
    rcases (hmem c).mp hc with hold | hlast
    · rcases (hmem c').mp hc' with hold' | hlast'
      · rw [mem_tracked_append (mem_partyKeys hold)] at hu
        rw [mem_tracked_append (mem_partyKeys hold')] at hu'
        exact h c hold c' hold' he hu hu'
      · exact hnew c' hlast' c hold he hu hu'
    · rcases (hmem c').mp hc' with hold' | hlast'
      · exact (hnew c hlast c' hold' he.symm hu' hu).symm
      · rw [Option.mem_def.mp hlast] at hlast'
        cases hlast'
        rfl

/-- A collision is of the same parties as another one of its edge exactly if the intruder is. -/
theorem same_iff {c c' : Collision} (hc : c ∈ collisions hist) (hc' : c' ∈ collisions hist) :
    c.Same c' ↔ c.edge = c'.edge ∧ c.intruder.key = c'.intruder.key := by
  constructor
  · rintro ⟨he, -, hi⟩
    exact ⟨he, hi⟩
  · rintro ⟨he, hi⟩
    have ho := owner_of_collision hc
    rw [he, owner_of_collision hc', Option.some_inj] at ho
    exact ⟨he, by rw [ho], hi⟩

theorem refuse_inj {policy : AuthorityPolicy} {c : Collision} {b b' : Bool} :
    refuse policy c b = refuse policy c b' ↔ b = b' := by
  cases policy <;> simp [refuse]

/-- **Step lemma.** As long as at most one intruder of each edge has no identifier, the verdict
    on the next sample is right exactly if that stays so. -/
theorem Authority.Traced.verdict_iff {a' : Authority} {policy : AuthorityPolicy}
    (ht' : a'.Traced (hist ++ [x])) (hone : OneUntracked hist) :
    (match collide hist x with
      | none => Verdict.accept
      | some c => refuse policy c (decide (NewEntry a' hist c))) = verdictOn policy hist x ↔
      ∀ c ∈ collide hist x, OnlyUntracked hist (tracked (hist ++ [x])) c := by
  unfold verdictOn
  cases hcol : collide hist x with
  | none => simp
  | some c =>
    have hmem : ∀ c' ∈ collisions hist, c' ∈ collisions (hist ++ [x]) := by
      intro c' hc'
      rw [collisions_concat]
      exact List.mem_append_left _ hc'
    have hlast : c ∈ collisions (hist ++ [x]) := by
      rw [collisions_concat, hcol]
      simp
    have hentry := fun c' hc' => ht'.entryOf_eq_iff (hmem c' hc') hlast
    have hsame := fun c' hc' => same_iff (hmem c' hc') hlast
    dsimp only
    rw [refuse_inj, decide_eq_decide]
    constructor
    · intro hiff c₀ hc₀ c' hc' he hu' hu
      cases hc₀
      -- the entry of `c'` is there, so that a collision like this one is, too
      have hnot : ¬ NewEntry a' hist c :=
        fun hnew => hnew c' hc' ((hentry c' hc').mpr ⟨he, .inr ⟨hu', hu⟩⟩)
      rw [hiff] at hnot
      push Not at hnot
      obtain ⟨c'', hc'', hsame''⟩ := hnot
      obtain ⟨he'', hi''⟩ := (hsame c'' hc'').mp hsame''
      rw [mem_tracked_append (mem_partyKeys hc')] at hu'
      rw [← hi'', mem_tracked_append (mem_partyKeys hc'')] at hu
      exact (hone c' hc' c'' hc'' (he.trans he''.symm) hu' hu).trans hi''
    · intro honly
      refine forall₂_congr fun c' hc' => not_congr ?_
      rw [hentry c' hc', hsame c' hc']
      refine and_congr_right fun he => ⟨?_, .inl⟩
      rintro (hi | ⟨hu', hu⟩)
      · exact hi
      · exact honly c rfl c' hc' he hu' hu

end Step

/-! ## Every sequence of samples -/

namespace Authority

variable {a : Authority} {policy : AuthorityPolicy}

theorem Traced.ownerOf_eq {hist : List Arrival} (ht : a.Traced hist) (e : String × String) :
    a.ownerOf e.1 e.2 = some (Bridge.ownerOf hist e) := by
  unfold Authority.ownerOf
  rw [ht.ok.index.get]
  cases hpos : position a.index.table.keys (e.1, e.2) with
  | none =>
    have hfresh := ht.fresh e (position_eq_none.mp hpos)
    rw [hfresh]
    rfl
  | some slot => exact ht.owner slot e (getElem?_of_position hpos)

/-- The owner of its edge, or the first publisher on it, is accepted. -/
theorem verdict_eq_accept {hist : List Arrival} {x : Arrival} {f : Collision → Bool} :
    (match collide hist x with
      | none => Verdict.accept
      | some c => refuse policy c (f c)) = .accept ↔
      ∀ o ∈ Bridge.ownerOf hist x.1, o.key = x.2.key := by
  unfold collide
  cases Bridge.ownerOf hist x.1 with
  | none => simp
  | some o =>
    by_cases h : o.key = x.2.key
    · simp [h]
    · cases policy <;> simp [h, refuse]

/-- **Run lemma.** The verdicts on a sequence of samples. -/
theorem Traced.verdicts (ht : a.Traced []) (hp : a.policy = policy) (hist : List Arrival) :
    ∃ vs a', a.verdicts hist = some (vs, a') ∧ a'.Traced hist ∧ a'.policy = policy ∧
      vs.length = hist.length ∧
      (∀ i x, hist[i]? = some x → (vs[i]? = some .accept ↔
        ∀ o ∈ Bridge.ownerOf (hist.take i) x.1, o.key = x.2.key)) ∧
      (vs = verdictsAfter policy [] hist ↔ OneUntracked hist) := by
  induction hist using List.reverseRecOn with
  | nil => exact ⟨[], a, rfl, ht, hp, rfl, nofun, by simp [verdictsAfter, OneUntracked, collisions,
      collisionsAfter]⟩
  | append_singleton hist x ih =>
    obtain ⟨vs, a₁, hrun, ht₁, hp₁, hlen, hacc, hloud⟩ := ih
    obtain ⟨v, a', hadm, ht', hpol, hv⟩ := ht₁.admit x
    rw [hp₁] at hv hpol
    refine ⟨vs ++ [v], a', ?_, ht', hpol, by simp [hlen], fun i y hy => ?_, ?_⟩
    · rw [verdicts_append, hrun]
      show ((a₁.admitEdge x.1.1 x.1.2 x.2).bind _) = _
      rw [hadm]
      rfl
    · by_cases hi : i < hist.length
      · rw [List.getElem?_append_left hi] at hy
        rw [List.getElem?_append_left (by omega), List.take_append_of_le_length hi.le]
        exact hacc i y hy
      · have hlt := (List.getElem?_eq_some_iff.mp hy).1
        rw [List.length_append, List.length_singleton] at hlt
        obtain rfl : i = hist.length := by omega
        rw [List.getElem?_concat_length, Option.some_inj] at hy
        subst hy
        rw [← hlen, List.getElem?_concat_length, Option.some_inj, hlen, List.take_left, hv]
        exact verdict_eq_accept
    · rw [verdictsAfter_append, ← List.concat_eq_append, ← List.concat_eq_append, List.concat_inj,
        hloud, oneUntracked_append, List.nil_append, hv]
      exact and_congr_right fun hone => ht'.verdict_iff hone

end Authority

/-- **Main theorem.** Under a policy that refuses intruders, every sequence of samples is decided;
    the owner of an edge is its first publisher, and its samples alone are accepted; and
    `first_time` marks the first collision of each owner and intruder on an edge exactly if of
    the intruders of an edge at most one is past the cap of the identifiers. -/
theorem loud_once_iff {policy : AuthorityPolicy} (hp : policy ≠ .lastWriterWins)
    (config : TopologyConfig F) :
    ∃ a, Authority.seeded policy config = some a ∧ ∀ hist, ∃ vs a',
      a.verdicts hist = some (vs, a') ∧ vs.length = hist.length ∧
      (∀ e, a'.ownerOf e.1 e.2 = some ((hist.find? fun x => x.1 = e).map Prod.snd)) ∧
      (∀ i x, hist[i]? = some x → (vs[i]? = some .accept ↔
        ∀ o ∈ ownerOf (hist.take i) x.1, o.key = x.2.key)) ∧
      (vs = verdictsAfter policy [] hist ↔ OneUntracked hist) := by
  obtain ⟨a, hseed, -, hpol, -⟩ := Authority.seeded_ok policy config
  have ht : a.Traced [] := Authority.traced_seeded hp hseed
  refine ⟨a, hseed, fun hist => ?_⟩
  obtain ⟨vs, a', hrun, ht', -, hlen, hacc, hloud⟩ := ht.verdicts hpol hist
  exact ⟨vs, a', hrun, hlen, ht'.ownerOf_eq, hacc, hloud⟩

/-- An owner on one edge, and `n` others, each with one sample. -/
def intruders (n : ℕ) : List Arrival :=
  (List.range (n + 1)).map fun k =>
    (("odom", "base"), .topic (String.ofList (List.replicate k 'p')))

/-- The table of the samples. -/
def emptyTable : Authority := .new .firstWriterWins

theorem loud_once_iff_pair : ∃ vs a', emptyTable.verdicts (intruders 2) = some (vs, a') ∧
    vs = verdictsAfter .firstWriterWins [] (intruders 2) := by
  have hp : AuthorityPolicy.firstWriterWins ≠ .lastWriterWins := by decide
  obtain ⟨a, hseed, hrun⟩ := loud_once_iff hp ({} : TopologyConfig ℚ)
  cases hseed
  obtain ⟨vs, a', hrun, -, -, -, hloud⟩ := hrun (intruders 2)
  exact ⟨vs, a', hrun, hloud.mpr (by decide)⟩

/-- With two intruders past the cap, the second one's first sample is refused quietly. -/
theorem second_untracked_is_quiet : ∃ vs a',
    emptyTable.verdicts (intruders (maxTrackedPublishers + 1)) = some (vs, a') ∧
      vs ≠ verdictsAfter .firstWriterWins [] (intruders (maxTrackedPublishers + 1)) := by
  have hp : AuthorityPolicy.firstWriterWins ≠ .lastWriterWins := by decide
  have hseed : Authority.seeded .firstWriterWins ({} : TopologyConfig ℚ) = some emptyTable := rfl
  have htwo : ¬ OneUntracked (intruders (maxTrackedPublishers + 1)) := by decide +kernel
  obtain ⟨vs, a', hrun, -, -, -, -, hloud⟩ :=
    (Authority.traced_seeded hp hseed).verdicts rfl (intruders (maxTrackedPublishers + 1))
  exact ⟨vs, a', hrun, fun hvs => htwo (hloud.mp hvs)⟩

end TfTree.Bridge
