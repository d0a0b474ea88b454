import Mathlib.Data.List.Nodup
import Mathlib.Data.Nat.Basic
import Mathlib.Tactic.Common
import Mathlib.Algebra.Group.Nat.Defs
import TfTree.Data.Numerals

/-!
# Linear probing

Keys are kept in the order of their insertion; a table of buckets, a power of two of
them, holds their hashes and positions. A key is looked for from the bucket of its
hash on, up to the first empty bucket, and every hit is confirmed by the key itself.

Results, for any hash:
* `Probe.Ok.find`: as long as there is room, a search returns, with the position of
  the key.
* `Probe.Ok.add`: a new key finds an empty bucket.
* `Probe.rebuild_eq`: a table built anew for the same keys.
* `Loose.findFrom`, `Loose.putFrom`: where buckets may lose positions, walks still end,
  and a hit is the key's own.
-/

namespace TfTree.Data

/-- A bucket in use: the hash of its key and the position of the key. -/
structure Bucket where
  hash : ℕ
  entry : ℕ
  deriving DecidableEq, Repr

variable {κ : Type}

/-! ## Positions of keys -/

/-- The first position of `k`. -/
def position [DecidableEq κ] (keys : List κ) (k : κ) : Option ℕ :=
  keys.findIdx? fun k' => k' = k

section Position

variable [DecidableEq κ] {keys : List κ} {k : κ} {e : ℕ}

theorem position_eq_none : position keys k = none ↔ k ∉ keys := by
  unfold position
  rw [List.findIdx?_eq_none_iff]
  constructor
  · intro h hk
    simpa using h k hk
  · intro h k' hk'
    have hne : k' ≠ k := fun heq => h (heq ▸ hk')
    simpa using hne

theorem getElem?_of_position (h : position keys k = some e) : keys[e]? = some k := by
  obtain ⟨hlt, heq, -⟩ := List.findIdx?_eq_some_iff_getElem.mp h
  rw [List.getElem?_eq_getElem hlt]
  simpa using heq

theorem position_lt (h : position keys k = some e) : e < keys.length :=
  (List.getElem?_eq_some_iff.mp (getElem?_of_position h)).1

theorem exists_position (h : k ∈ keys) : ∃ e, position keys k = some e := by
  rw [← Option.isSome_iff_exists, Option.isSome_iff_ne_none]
  exact fun hnone => position_eq_none.mp hnone h

/-- Keys without repetition have one position each. -/
theorem position_eq_some (hnd : keys.Nodup) : position keys k = some e ↔ keys[e]? = some k := by
  refine ⟨getElem?_of_position, fun h => ?_⟩
  obtain ⟨e', he'⟩ := exists_position (List.mem_of_getElem? h)
  rw [he', (List.getElem?_inj (position_lt he') hnd).mp ((getElem?_of_position he').trans h.symm)]

/-- Later keys do not move the earlier ones. -/
theorem position_append (ks : List κ) (h : position keys k = some e) :
    position (keys ++ ks) k = some e := by
  unfold position at h ⊢
  rw [List.findIdx?_append, h]
  rfl

theorem position_concat (h : k ∉ keys) : position (keys ++ [k]) k = some keys.length := by
  have hnone := position_eq_none.mpr h
  unfold position at hnone ⊢
  rw [List.findIdx?_append, hnone]
  simp

end Position

/-! ## Model of the table -/

section Walk

variable [DecidableEq κ] (bs : List (Option Bucket)) (mask : ℕ)

/-- The search for `k` from the bucket `i`; `n` bounds the buckets it looks at. It
    aborts at a position that has no key. -/
def findFrom (keys : List κ) (h : ℕ) (k : κ) : ℕ → ℕ → Option (Option ℕ)
  | 0, _ => none
  | n + 1, i =>
    match bs[i]? with
    | none => some none
    | some none => some none
    | some (some b) =>
      if b.hash = h then
        match keys[b.entry]? with
        | none => none
        | some k' =>
          if k' = k then some (some b.entry) else findFrom keys h k n ((i + 1) &&& mask)
      else findFrom keys h k n ((i + 1) &&& mask)

/-- The entry is put in the first empty bucket from `i` on; `n` bounds the buckets
    looked at. -/
def placeFrom (b : Bucket) : ℕ → ℕ → Option (List (Option Bucket))
  | 0, _ => none
  | n + 1, i =>
    match bs[i]? with
    | none => none
    | some none => some (bs.set i (some b))
    | some (some _) => placeFrom b n ((i + 1) &&& mask)

end Walk

/-- The table of keys. -/
structure Probe (κ : Type) where
  buckets : List (Option Bucket)
  mask : ℕ
  keys : List κ

namespace Probe

/-- The table with `len` buckets and no key. -/
def empty (len : ℕ) : Probe κ := ⟨List.replicate len none, len - 1, []⟩

/-- The position of a key. -/
def find [DecidableEq κ] (hash : κ → ℕ) (t : Probe κ) (k : κ) : Option (Option ℕ) :=
  findFrom t.buckets t.mask t.keys (hash k) k t.buckets.length (hash k &&& t.mask)

/-- The bucket of the key at the position `e` is entered. -/
def place (hash : κ → ℕ) (t : Probe κ) (k : κ) (e : ℕ) : Option (Probe κ) :=
  (placeFrom t.buckets t.mask ⟨hash k, e⟩ t.buckets.length (hash k &&& t.mask)).map
    fun bs => { t with buckets := bs }

/-- A new key, at the end of the keys. -/
def add (hash : κ → ℕ) (t : Probe κ) (k : κ) : Option (Probe κ) :=
  place hash { t with keys := t.keys ++ [k] } k t.keys.length

/-- The buckets of the keys `ks`, which stand from the position `e` on, are entered. -/
def placeAll (hash : κ → ℕ) : Probe κ → List κ → ℕ → Option (Probe κ)
  | t, [], _ => some t
  | t, k :: ks, e => (t.place hash k e).bind fun t => placeAll hash t ks (e + 1)

/-- The same keys in a table of `len` buckets. -/
def rebuild (hash : κ → ℕ) (t : Probe κ) (len : ℕ) : Option (Probe κ) :=
  placeAll hash ⟨List.replicate len none, len - 1, t.keys⟩ t.keys 0

end Probe

/-! ## The invariant -/

/-- The bucket `d` steps from the home of the hash `h`. -/
def bucketAt (bs : List (Option Bucket)) (h d : ℕ) : Option Bucket :=
  (bs[(h + d) % bs.length]?).join

/-- The buckets hold the positions of `keys`: what is in a bucket is the hash and the
    position of a key, and each key is reached from its home through full buckets. -/
structure Indexes (hash : κ → ℕ) (bs : List (Option Bucket)) (keys : List κ) : Prop where
  size : ∃ m, bs.length = 2 ^ m
  sound : ∀ (i : ℕ) (b : Bucket), bs[i]? = some (some b) →
    ∃ k, keys[b.entry]? = some k ∧ b.hash = hash k
  reach : ∀ (e : ℕ) (k : κ), keys[e]? = some k → ∃ d, d < bs.length ∧
    bucketAt bs (hash k) d = some ⟨hash k, e⟩ ∧ ∀ d', d' < d → (bucketAt bs (hash k) d').isSome
  load : bs.countP Option.isSome ≤ keys.length

/-- The table is in order and has an empty bucket. -/
structure Probe.Ok (hash : κ → ℕ) (t : Probe κ) : Prop where
  indexes : Indexes hash t.buckets t.keys
  mask : t.mask = t.buckets.length - 1
  nodup : t.keys.Nodup
  room : t.keys.length < t.buckets.length

section Walks

variable {bs : List (Option Bucket)} {h d : ℕ}

/-- A step of the walk wraps at the end of the table. -/
theorem and_mask_eq_mod (hsize : ∃ m, bs.length = 2 ^ m) (x : ℕ) :
    x &&& (bs.length - 1) = x % bs.length := by
  obtain ⟨m, hm⟩ := hsize
  rw [hm, Nat.and_two_pow_sub_one_eq_mod]

theorem walk_step (hsize : ∃ m, bs.length = 2 ^ m) :
    ((h + d) % bs.length + 1) &&& (bs.length - 1) = (h + (d + 1)) % bs.length := by
  rw [and_mask_eq_mod hsize, Nat.mod_add_mod, Nat.add_assoc]

theorem length_pos_of_pow (hsize : ∃ m, bs.length = 2 ^ m) : 0 < bs.length := by
  obtain ⟨m, hm⟩ := hsize
  rw [hm]
  exact Nat.two_pow_pos m

theorem getElem?_bucketAt (hsize : ∃ m, bs.length = 2 ^ m) :
    bs[(h + d) % bs.length]? = some (bucketAt bs h d) := by
  have hlt : (h + d) % bs.length < bs.length := Nat.mod_lt _ (length_pos_of_pow hsize)
  unfold bucketAt
  rw [List.getElem?_eq_getElem hlt]
  rfl

/-- The walk from any home meets an empty bucket, if there is one. -/
theorem exists_bucketAt_none (hsize : ∃ m, bs.length = 2 ^ m)
    (hroom : bs.countP Option.isSome < bs.length) (h : ℕ) :
    ∃ d, d < bs.length ∧ bucketAt bs h d = none := by
  have hpos := length_pos_of_pow hsize
  obtain ⟨i, hlt, hempty⟩ : ∃ i, ∃ hlt : i < bs.length, bs[i] = none := by
    by_contra hfull
    have hall : bs.countP Option.isSome = bs.length := by
      rw [List.countP_eq_length]
      intro b hb
      obtain ⟨i, hlt, rfl⟩ := List.getElem_of_mem hb
      by_contra hnone
      exact hfull ⟨i, hlt, by simpa using hnone⟩
    omega
  refine ⟨(i + (bs.length - h % bs.length)) % bs.length, Nat.mod_lt _ hpos, ?_⟩
  have hhome : h % bs.length < bs.length := Nat.mod_lt _ hpos
  have hback : (h + (i + (bs.length - h % bs.length)) % bs.length) % bs.length = i := by
    rw [Nat.add_mod_mod, ← Nat.mod_add_mod,
      show h % bs.length + (i + (bs.length - h % bs.length)) = i + bs.length by omega,
      Nat.add_mod_right, Nat.mod_eq_of_lt hlt]
  unfold bucketAt
  rw [hback, List.getElem?_eq_getElem hlt, hempty]
  rfl

end Walks

section Indexes

variable {hash : κ → ℕ} {bs : List (Option Bucket)} {keys : List κ} {k : κ} {h d e : ℕ}

theorem Indexes.pos (hi : Indexes hash bs keys) : 0 < bs.length := length_pos_of_pow hi.size

theorem Indexes.wrap (hi : Indexes hash bs keys) (x : ℕ) :
    x &&& (bs.length - 1) = x % bs.length := and_mask_eq_mod hi.size x

theorem Indexes.step (hi : Indexes hash bs keys) :
    ((h + d) % bs.length + 1) &&& (bs.length - 1) = (h + (d + 1)) % bs.length := walk_step hi.size

theorem Indexes.getElem?_bucket (hi : Indexes hash bs keys) :
    bs[(h + d) % bs.length]? = some (bucketAt bs h d) := getElem?_bucketAt hi.size

theorem Indexes.exists_empty (hi : Indexes hash bs keys) (hroom : keys.length < bs.length)
    (h : ℕ) : ∃ d, d < bs.length ∧ bucketAt bs h d = none :=
  exists_bucketAt_none hi.size (Nat.lt_of_le_of_lt hi.load hroom) h

/-- A search goes on past full buckets of other keys. It ends at the key or at an
    empty bucket. -/
theorem Indexes.findFrom [DecidableEq κ] (hi : Indexes hash bs keys) (hnd : keys.Nodup)
    (hroom : keys.length < bs.length) (k : κ) :
    ∀ n d, n + d = bs.length →
      (∀ d', d' < d → ∃ b, bucketAt bs (hash k) d' = some b ∧ keys[b.entry]? ≠ some k) →
      Data.findFrom bs (bs.length - 1) keys (hash k) k n ((hash k + d) % bs.length) =
        some (position keys k) := by
  intro n
  induction n with
  | zero =>
    intro d hd hpast
    obtain ⟨d₁, hlt, hempty⟩ := hi.exists_empty hroom (hash k)
    obtain ⟨b, hfull, -⟩ := hpast d₁ (by omega)
    rw [hempty] at hfull
    cases hfull
  | succ n ih =>
    intro d hd hpast
    rw [Data.findFrom, hi.getElem?_bucket]
    cases hb : bucketAt bs (hash k) d with
    | none =>
      -- the key would have been met on the way
      show some none = some (position keys k)
      rw [position_eq_none.mpr]
      intro hmem
      obtain ⟨e, hlt, rfl⟩ := List.getElem_of_mem hmem
      obtain ⟨d₀, -, hat, hway⟩ := hi.reach e _ (List.getElem?_eq_getElem hlt)
      rcases Nat.lt_trichotomy d₀ d with hlt₀ | rfl | hgt
      · obtain ⟨b, hb', hne⟩ := hpast d₀ hlt₀
        rw [hat] at hb'
        cases hb'
        exact hne (List.getElem?_eq_getElem hlt)
      · rw [hb] at hat
        cases hat
      · have hfull := hway d hgt
        rw [hb] at hfull
        cases hfull
    | some b =>
      obtain ⟨k', hkey, hhash⟩ := hi.sound _ b (hi.getElem?_bucket.trans (by rw [hb]))
      have hnext : keys[b.entry]? ≠ some k →
          Data.findFrom bs (bs.length - 1) keys (hash k) k n
            (((hash k + d) % bs.length + 1) &&& (bs.length - 1)) = some (position keys k) := by
        intro hne
        rw [hi.step]
        refine ih (d + 1) (by omega) fun d' hd' => ?_
        rcases Nat.lt_succ_iff_lt_or_eq.mp hd' with hlt | rfl
        · exact hpast d' hlt
        · exact ⟨b, hb, hne⟩
      dsimp only
      by_cases hh : b.hash = hash k
      · rw [if_pos hh, hkey]
        dsimp only
        by_cases hk : k' = k
        · subst hk
          rw [if_pos rfl, (position_eq_some hnd).mpr hkey]
        · rw [if_neg hk]
          exact hnext (by rw [hkey]; simpa using hk)
      · rw [if_neg hh]
        refine hnext fun hk => hh ?_
        rw [hkey] at hk
        rw [hhash, Option.some_inj.mp hk]

/-- A walk for a place ends at the first empty bucket. -/
theorem Indexes.placeFrom (hi : Indexes hash bs keys) (hroom : keys.length < bs.length)
    (b : Bucket) (h : ℕ) :
    ∀ n d, n + d = bs.length → (∀ d', d' < d → (bucketAt bs h d').isSome) →
      ∃ d₁, d₁ < bs.length ∧ bucketAt bs h d₁ = none ∧ (∀ d', d' < d₁ → (bucketAt bs h d').isSome) ∧
        Data.placeFrom bs (bs.length - 1) b n ((h + d) % bs.length) =
          some (bs.set ((h + d₁) % bs.length) (some b)) := by
  intro n
  induction n with
  | zero =>
    intro d hd hpast
    obtain ⟨d₁, hlt, hempty⟩ := hi.exists_empty hroom h
    have hfull := hpast d₁ (by omega)
    rw [hempty] at hfull
    cases hfull
  | succ n ih =>
    intro d hd hpast
    rw [Data.placeFrom, hi.getElem?_bucket]
    cases hb : bucketAt bs h d with
    | none => exact ⟨d, by omega, hb, hpast, rfl⟩
    | some b' =>
      dsimp only
      rw [hi.step]
      refine ih (d + 1) (by omega) fun d' hd' => ?_
      rcases Nat.lt_succ_iff_lt_or_eq.mp hd' with hlt | rfl
      · exact hpast d' hlt
      · rw [hb]
        rfl

/-- Entering the next key keeps the invariant: no walk passes the bucket it takes. -/
theorem Indexes.set (hi : Indexes hash bs keys) {d₁ : ℕ} (hlt : d₁ < bs.length)
    (hempty : bucketAt bs (hash k) d₁ = none)
    (hway : ∀ d', d' < d₁ → (bucketAt bs (hash k) d').isSome) :
    Indexes hash (bs.set ((hash k + d₁) % bs.length) (some ⟨hash k, keys.length⟩))
      (keys ++ [k]) := by
  have hslot : (hash k + d₁) % bs.length < bs.length := Nat.mod_lt _ hi.pos
  have hold : bs[(hash k + d₁) % bs.length]? = some none := by
    rw [hi.getElem?_bucket, hempty]
  -- full buckets stay as they are
  have hkeep : ∀ h d b, bucketAt bs h d = some b →
      bucketAt (bs.set ((hash k + d₁) % bs.length) (some ⟨hash k, keys.length⟩)) h d = some b := by
    intro h d b hb
    unfold bucketAt at hb ⊢
    rw [List.length_set, List.getElem?_set_ne]
    · exact hb
    · intro heq
      rw [← heq, hold] at hb
      cases hb
  have hkeep' : ∀ h d, (bucketAt bs h d).isSome →
      (bucketAt (bs.set ((hash k + d₁) % bs.length) (some ⟨hash k, keys.length⟩)) h d).isSome := by
    intro h d hsome
    obtain ⟨b, hb⟩ := Option.isSome_iff_exists.mp hsome
    rw [hkeep h d b hb]
    rfl
  refine ⟨?_, ?_, ?_, ?_⟩
  · rw [List.length_set]
    exact hi.size
  · intro i b hb
    by_cases hne : (hash k + d₁) % bs.length = i
    · subst hne
      rw [List.getElem?_set_self hslot] at hb
      cases hb
      exact ⟨k, by simp, rfl⟩
    · rw [List.getElem?_set_ne hne] at hb
      obtain ⟨k', hk', hh⟩ := hi.sound i b hb
      exact ⟨k', by rw [List.getElem?_append_left (List.getElem?_eq_some_iff.mp hk').1, hk'], hh⟩
  · intro e k' hk'
    rw [List.length_set]
    by_cases he : e < keys.length
    · rw [List.getElem?_append_left he] at hk'
      obtain ⟨d, hd, hat, hfull⟩ := hi.reach e k' hk'
      exact ⟨d, hd, hkeep _ _ _ hat, fun d' hd' => hkeep' _ _ (hfull d' hd')⟩
    · obtain ⟨rfl, rfl⟩ : e = keys.length ∧ k' = k := by
        rw [List.getElem?_append_right (by omega)] at hk'
        obtain ⟨hz, hv⟩ := List.getElem?_eq_some_iff.mp hk'
        simp only [List.length_singleton] at hz
        exact ⟨by omega, by simpa using hv.symm⟩
      refine ⟨d₁, hlt, ?_, fun d' hd' => hkeep' _ _ (hway d' hd')⟩
      unfold bucketAt
      rw [List.length_set, List.getElem?_set_self hslot]
      rfl
  · rw [List.length_append, List.length_singleton, List.countP_set hslot]
    have hload := hi.load
    simp only [Option.isSome_some, if_true]
    omega

end Indexes

/-! ## The table -/

section Table

variable {hash : κ → ℕ} {t t' : Probe κ} {k : κ}

theorem indexes_replicate (hash : κ → ℕ) {len : ℕ} (hlen : ∃ m, len = 2 ^ m) :
    Indexes hash (List.replicate len none) ([] : List κ) where
  size := by rw [List.length_replicate]; exact hlen
  sound := by
    intro i b hb
    have hmem := List.eq_of_mem_replicate (List.mem_of_getElem? hb)
    cases hmem
  reach := by
    intro e k hk
    cases hk
  load := by simp

theorem Probe.ok_empty (hash : κ → ℕ) {len : ℕ} (hlen : ∃ m, len = 2 ^ m) :
    (Probe.empty len : Probe κ).Ok hash where
  indexes := indexes_replicate hash hlen
  mask := by simp [Probe.empty]
  nodup := List.nodup_nil
  room := by
    obtain ⟨m, rfl⟩ := hlen
    show 0 < (List.replicate (2 ^ m) none).length
    rw [List.length_replicate]
    exact Nat.two_pow_pos m

/-- A search returns, with the position of the key. -/
theorem Probe.Ok.find [DecidableEq κ] (ht : t.Ok hash) (k : κ) :
    t.find hash k = some (position t.keys k) := by
  have hwalk := ht.indexes.findFrom ht.nodup ht.room k t.buckets.length 0 rfl
    fun d' hd' => absurd hd' (Nat.not_lt_zero _)
  unfold Probe.find
  rw [ht.mask, ht.indexes.wrap]
  exact hwalk

/-- The next key is entered in a table with room. The keys may be more than those of
    the buckets. -/
theorem Indexes.place {keys : List κ} (hi : Indexes hash t.buckets keys)
    (hmask : t.mask = t.buckets.length - 1) (hroom : keys.length < t.buckets.length) (k : κ) :
    ∃ bs, t.place hash k keys.length = some { t with buckets := bs } ∧
      bs.length = t.buckets.length ∧ Indexes hash bs (keys ++ [k]) := by
  obtain ⟨d₁, hlt, hempty, hway, hplace⟩ := hi.placeFrom hroom ⟨hash k, keys.length⟩ (hash k)
    t.buckets.length 0 rfl fun d' hd' => absurd hd' (Nat.not_lt_zero _)
  refine ⟨_, ?_, by rw [List.length_set], hi.set hlt hempty hway⟩
  unfold Probe.place
  rw [hmask, hi.wrap]
  rw [Nat.add_zero] at hplace
  rw [hplace]
  rfl

/-- A new key finds an empty bucket. -/
theorem Probe.Ok.add (ht : t.Ok hash) (hk : k ∉ t.keys)
    (hroom : t.keys.length + 1 < t.buckets.length) :
    ∃ t', t.add hash k = some t' ∧ t'.keys = t.keys ++ [k] ∧
      t'.buckets.length = t.buckets.length ∧ t'.Ok hash := by
  obtain ⟨bs, hplace, hlen, hi⟩ := Indexes.place (t := { t with keys := t.keys ++ [k] })
    ht.indexes ht.mask ht.room k
  refine ⟨_, hplace, rfl, hlen, ⟨hi, ?_, ?_, ?_⟩⟩
  · show t.mask = bs.length - 1
    rw [hlen]
    exact ht.mask
  · exact List.nodup_append.mpr ⟨ht.nodup, List.nodup_singleton k, fun a ha b hb => by
      rw [List.mem_singleton.mp hb]
      rintro rfl
      exact hk ha⟩
  · show (t.keys ++ [k]).length < bs.length
    rw [hlen, List.length_append]
    exact hroom

theorem Indexes.placeAll :
    ∀ (ks pre : List κ) (t : Probe κ), Indexes hash t.buckets pre →
      t.mask = t.buckets.length - 1 → pre.length + ks.length < t.buckets.length →
      ∃ bs, Probe.placeAll hash t ks pre.length = some { t with buckets := bs } ∧
        bs.length = t.buckets.length ∧ Indexes hash bs (pre ++ ks) := by
  intro ks
  induction ks with
  | nil =>
    intro pre t hi _ _
    exact ⟨t.buckets, rfl, rfl, by rw [List.append_nil]; exact hi⟩
  | cons k ks ih =>
    intro pre t hi hmask hroom
    rw [List.length_cons] at hroom
    obtain ⟨bs, hplace, hlen, hi'⟩ := hi.place hmask (by omega) k
    have hpre : (pre ++ [k]).length = pre.length + 1 := by simp
    obtain ⟨bs', hrest, hlen', hi''⟩ := ih (pre ++ [k]) { t with buckets := bs } hi'
      (by show t.mask = bs.length - 1; rw [hlen]; exact hmask)
      (by show _ < bs.length; rw [hlen, hpre]; omega)
    refine ⟨bs', ?_, hlen'.trans hlen, by rw [List.append_assoc] at hi''; exact hi''⟩
    rw [Probe.placeAll, hplace, Option.bind_some, ← hpre]
    exact hrest

/-- The keys of a table are entered in a new one with room for them. -/
theorem Probe.rebuild_eq (hash : κ → ℕ) {len : ℕ} (hnd : t.keys.Nodup) (hlen : ∃ m, len = 2 ^ m)
    (hroom : t.keys.length < len) :
    ∃ t', t.rebuild hash len = some t' ∧ t'.keys = t.keys ∧ t'.buckets.length = len ∧
      t'.Ok hash := by
  obtain ⟨bs, hall, hbs, hi⟩ := Indexes.placeAll t.keys []
    (⟨List.replicate len none, len - 1, t.keys⟩ : Probe κ) (indexes_replicate hash hlen)
    (by simp) (by simpa using hroom)
  rw [List.length_replicate] at hbs
  refine ⟨_, hall, rfl, hbs, ⟨hi, ?_, hnd, ?_⟩⟩
  · show len - 1 = bs.length - 1
    rw [hbs]
  · show t.keys.length < bs.length
    rw [hbs]
    exact hroom

end Table

/-! ## Buckets that lose positions -/

/-- What the buckets hold are positions below `n`, and not more than `n` of them. A position
    may be that of another key, and a key may have none. -/
structure Loose (bs : List (Option Bucket)) (n : ℕ) : Prop where
  size : ∃ m, bs.length = 2 ^ m
  entries : ∀ (i : ℕ) (b : Bucket), bs[i]? = some (some b) → b.entry < n
  load : bs.countP Option.isSome ≤ n

section Loose

variable (bs : List (Option Bucket)) (mask : ℕ)

/-- `b`, which may be no entry, is put in the first empty bucket from `i` on; `n` bounds
    the buckets looked at. -/
def putFrom (b : Option Bucket) : ℕ → ℕ → Option (List (Option Bucket))
  | 0, _ => none
  | n + 1, i =>
    match bs[i]? with
    | none => none
    | some none => some (bs.set i b)
    | some (some _) => putFrom b n ((i + 1) &&& mask)

variable {bs} {h : ℕ} {keys : List κ} {n : ℕ}

theorem loose_replicate {len : ℕ} (hlen : ∃ m, len = 2 ^ m) (n : ℕ) :
    Loose (List.replicate len none) n where
  size := by rw [List.length_replicate]; exact hlen
  entries := by
    intro i b hb
    have hmem := List.eq_of_mem_replicate (List.mem_of_getElem? hb)
    cases hmem
  load := by
    rw [List.countP_eq_zero.mpr]
    · exact Nat.zero_le n
    · intro b hb
      rw [List.eq_of_mem_replicate hb]
      decide

theorem Loose.mono {m : ℕ} (hl : Loose bs n) (hle : n ≤ m) : Loose bs m :=
  ⟨hl.size, fun i b hb => Nat.lt_of_lt_of_le (hl.entries i b hb) hle, Nat.le_trans hl.load hle⟩

/-- A search ends, and what it finds is a position of the key. -/
theorem Loose.findFrom [DecidableEq κ] (hl : Loose bs keys.length) (hroom : keys.length < bs.length)
    (k : κ) : ∀ n d, n + d = bs.length → (∀ d', d' < d → (bucketAt bs h d').isSome) →
      ∃ r, Data.findFrom bs (bs.length - 1) keys h k n ((h + d) % bs.length) = some r ∧
        ∀ e, r = some e → keys[e]? = some k := by
  intro n
  induction n with
  | zero =>
    intro d hd hpast
    obtain ⟨d₁, hlt, hempty⟩ := exists_bucketAt_none hl.size (Nat.lt_of_le_of_lt hl.load hroom) h
    have hfull := hpast d₁ (by omega)
    rw [hempty] at hfull
    cases hfull
  | succ n ih =>
    intro d hd hpast
    have hnext : (bucketAt bs h d).isSome →
        ∃ r, Data.findFrom bs (bs.length - 1) keys h k n
          (((h + d) % bs.length + 1) &&& (bs.length - 1)) = some r ∧
            ∀ e, r = some e → keys[e]? = some k := by
      intro hsome
      rw [walk_step hl.size]
      refine ih (d + 1) (by omega) fun d' hd' => ?_
      rcases Nat.lt_succ_iff_lt_or_eq.mp hd' with hlt | rfl
      · exact hpast d' hlt
      · exact hsome
    rw [Data.findFrom, getElem?_bucketAt hl.size]
    cases hb : bucketAt bs h d with
    | none => exact ⟨none, rfl, fun e he => by cases he⟩
    | some b =>
      rw [hb] at hnext
      dsimp only
      by_cases hh : b.hash = h
      · have hlt := hl.entries _ b ((getElem?_bucketAt hl.size).trans (by rw [hb]))
        rw [if_pos hh, List.getElem?_eq_getElem hlt]
        dsimp only
        by_cases hk : keys[b.entry] = k
        · rw [if_pos hk]
          refine ⟨_, rfl, fun e he => ?_⟩
          cases he
          rw [List.getElem?_eq_getElem hlt, hk]
        · rw [if_neg hk]
          exact hnext rfl
      · rw [if_neg hh]
        exact hnext rfl

/-- A walk for a place ends, and leaves one bucket more in use at most. -/
theorem Loose.putFrom (hl : Loose bs n) (hroom : n < bs.length) {b : Option Bucket}
    (hb : ∀ b', b = some b' → b'.entry < n + 1) :
    ∀ m d, m + d = bs.length → (∀ d', d' < d → (bucketAt bs h d').isSome) →
      ∃ bs', Data.putFrom bs (bs.length - 1) b m ((h + d) % bs.length) = some bs' ∧
        bs'.length = bs.length ∧ Loose bs' (n + 1) := by
  intro m
  induction m with
  | zero =>
    intro d hd hpast
    obtain ⟨d₁, hlt, hempty⟩ := exists_bucketAt_none hl.size (Nat.lt_of_le_of_lt hl.load hroom) h
    have hfull := hpast d₁ (by omega)
    rw [hempty] at hfull
    cases hfull
  | succ m ih =>
    intro d hd hpast
    rw [Data.putFrom, getElem?_bucketAt hl.size]
    cases hat : bucketAt bs h d with
    | none =>
      have hlt : (h + d) % bs.length < bs.length := Nat.mod_lt _ (length_pos_of_pow hl.size)
      refine ⟨_, rfl, List.length_set .., ?_, fun i b' hi => ?_, ?_⟩
      · rw [List.length_set]
        exact hl.size
      · by_cases hne : (h + d) % bs.length = i
        · subst hne
          rw [List.getElem?_set_self hlt] at hi
          exact hb b' (Option.some_inj.mp hi)
        · rw [List.getElem?_set_ne hne] at hi
          exact Nat.lt_succ_of_lt (hl.entries i b' hi)
      · rw [List.countP_set hlt]
        have hload := hl.load
        split_ifs <;> omega
    | some b' =>
      dsimp only
      rw [walk_step hl.size]
      refine ih (d + 1) (by omega) fun d' hd' => ?_
      rcases Nat.lt_succ_iff_lt_or_eq.mp hd' with hlt | rfl
      · exact hpast d' hlt
      · rw [hat]
        rfl

end Loose

end TfTree.Data
