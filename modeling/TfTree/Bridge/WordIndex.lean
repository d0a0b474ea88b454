import Mathlib
import TfTree.Bridge.Authority

/-!
# Positions of 32 bits

`edgeindex.rs` keeps the positions of its keys in a `u32`, with one value for an empty
bucket: past `2 ^ 32` keys a position is lost, or is that of another key.

* `EdgeIndex.Weak.insertAllWord`: any number of insertions ends, and a hit is a value of
  its own pair all the same.
* `EdgeIndex.Stores`: what a user of the table relies on, with positions of any width.
-/

namespace TfTree.Bridge

open Data

/-! ## Model of `edgeindex.rs`, positions cut -/

/-- The bucket of the position `e`, as `place` stores it: `e as u32`, where `EMPTY` is no
    position. -/
def bucketOf (hash e : ℕ) : Option Bucket :=
  if e % 2 ^ 32 = u32Max then none else some ⟨hash, e % 2 ^ 32⟩

/-- `place` (`edgeindex.rs`, lines 168–174). -/
def placeWord (bs : List (Option Bucket)) (mask hash e : ℕ) : Option (List (Option Bucket)) :=
  putFrom bs mask (bucketOf hash e) bs.length (hash &&& mask)

/-- The loop of `rehash` over the keys from the position `e` on. -/
def placeAllWord (mask : ℕ) : List (Option Bucket) → List (String × String) → ℕ →
    Option (List (Option Bucket))
  | bs, [], _ => some bs
  | bs, k :: ks, e =>
    (placeWord bs mask (hashPair k) e).bind fun bs => placeAllWord mask bs ks (e + 1)

namespace EdgeIndex

variable {V : Type}

/-- `EdgeIndex::rehash` (lines 131–147), with its positions cut to 32 bits. -/
def rehashWord (t : EdgeIndex V) : Option (EdgeIndex V) := do
  let len := bucketsFor t.table.keys.length
  let buckets ← placeAllWord (len - 1) (List.replicate len none) t.table.keys 0
  return ⟨⟨buckets, len - 1, t.table.keys⟩, t.values⟩

/-- `EdgeIndex::insert` (lines 114–129), with its positions cut to 32 bits. -/
def insertWord (t : EdgeIndex V) (parent child : String) (v : V) : Option (EdgeIndex V) := do
  match ← t.table.find hashPair (parent, child) with
  | some e => if e < t.values.length then return { t with values := t.values.set e v } else none
  | none =>
    let e := t.table.keys.length
    let t' : EdgeIndex V :=
      ⟨{ t.table with keys := t.table.keys ++ [(parent, child)] }, t.values ++ [v]⟩
    if t'.table.buckets.length < bucketsFor t'.table.keys.length then t'.rehashWord
    else
      let buckets ← placeWord t'.table.buckets t'.table.mask (hashPair (parent, child)) e
      return { t' with table := { t'.table with buckets := buckets } }

/-- The pair and the value stand at one position. -/
def Has (t : EdgeIndex V) (k : String × String) (v : V) : Prop :=
  ∃ e : ℕ, t.table.keys[e]? = some k ∧ t.values[e]? = some v

/-- What is left of the invariant of the table if positions may be lost. -/
structure Weak (t : EdgeIndex V) : Prop where
  loose : Loose t.table.buckets t.table.keys.length
  mask : t.table.mask = t.table.buckets.length - 1
  room : t.table.keys.length < t.table.buckets.length
  values : t.values.length = t.table.keys.length

variable {t : EdgeIndex V} {k : String × String} {v : V}

theorem weak_withCapacity (n : ℕ) : (withCapacity n : EdgeIndex V).Weak where
  loose := loose_replicate (bucketsFor_pow n) 0
  mask := by
    show bucketsFor n - 1 = (List.replicate (bucketsFor n) none).length - 1
    rw [List.length_replicate]
  room := by
    show 0 < (List.replicate (bucketsFor n) none).length
    rw [List.length_replicate]
    have hlt := lt_bucketsFor n
    omega
  values := rfl

theorem Weak.find (ht : t.Weak) (k : String × String) :
    ∃ r, t.table.find hashPair k = some r ∧ ∀ e, r = some e → t.table.keys[e]? = some k := by
  obtain ⟨r, hfind, hr⟩ := ht.loose.findFrom (h := hashPair k) ht.room k _ 0 (Nat.add_zero _)
    fun d' hd' => absurd hd' (Nat.not_lt_zero _)
  rw [Nat.add_zero, ← and_mask_eq_mod ht.loose.size, ← ht.mask] at hfind
  exact ⟨r, hfind, hr⟩

/-- A probe ends, and a hit is a value of the pair. -/
theorem Weak.get (ht : t.Weak) (p c : String) :
    ∃ r, t.get p c = some r ∧ ∀ v, r = some v → t.Has (p, c) v := by
  obtain ⟨r, hfind, hr⟩ := ht.find (p, c)
  unfold EdgeIndex.get
  rw [hfind]
  cases r with
  | none => exact ⟨none, rfl, fun v hv => by cases hv⟩
  | some e =>
    have hkey := hr e rfl
    have hlt : e < t.values.length := by
      rw [ht.values]
      exact (List.getElem?_eq_some_iff.mp hkey).1
    simp only [Option.bind_eq_bind, Option.bind_some, List.getElem?_eq_getElem hlt]
    refine ⟨_, rfl, fun v hv => ⟨e, hkey, ?_⟩⟩
    cases hv
    exact List.getElem?_eq_getElem hlt

/-- The bucket of a position, whatever is left of it. -/
theorem entry_lt_of_bucketOf {hash e : ℕ} {b : Bucket} (h : bucketOf hash e = some b) :
    b.entry < e + 1 := by
  unfold bucketOf at h
  split_ifs at h
  cases h
  have hle := Nat.mod_le e (2 ^ 32)
  exact Nat.lt_succ_of_le hle

/-- A walk for a place ends. -/
theorem placeWord_loose {bs : List (Option Bucket)} {n : ℕ} (hl : Loose bs n)
    (hroom : n < bs.length) (hash : ℕ) :
    ∃ bs', placeWord bs (bs.length - 1) hash n = some bs' ∧ bs'.length = bs.length ∧
      Loose bs' (n + 1) := by
  obtain ⟨bs', hput, hlen, hl'⟩ := hl.putFrom (h := hash) hroom
    (fun b' hb' => entry_lt_of_bucketOf hb') bs.length 0 (Nat.add_zero _)
    fun d' hd' => absurd hd' (Nat.not_lt_zero _)
  rw [Nat.add_zero, ← and_mask_eq_mod hl.size] at hput
  exact ⟨bs', hput, hlen, hl'⟩

/-- A table is built anew. -/
theorem placeAllWord_loose (ks : List (String × String)) :
    ∀ {bs : List (Option Bucket)} {n : ℕ}, Loose bs n → n + ks.length < bs.length →
      ∃ bs', placeAllWord (bs.length - 1) bs ks n = some bs' ∧ bs'.length = bs.length ∧
        Loose bs' (n + ks.length) := by
  induction ks with
  | nil =>
    intro bs n hl _
    exact ⟨bs, rfl, rfl, hl⟩
  | cons k ks ih =>
    intro bs n hl hroom
    rw [List.length_cons] at hroom
    obtain ⟨bs₁, hplace, hlen₁, hl₁⟩ := placeWord_loose hl (by omega) (hashPair k)
    obtain ⟨bs', hrest, hlen', hl'⟩ := ih hl₁ (by rw [hlen₁]; omega)
    refine ⟨bs', ?_, hlen'.trans hlen₁, ?_⟩
    · rw [placeAllWord, hplace, Option.bind_some, ← hlen₁]
      exact hrest
    · rw [List.length_cons, ← Nat.add_assoc, Nat.add_right_comm]
      exact hl'

/-- A table with one key more. -/
theorem has_concat {t' : EdgeIndex V} {k₁ : String × String} {v₁ : V}
    (hlen : t.values.length = t.table.keys.length) (hkeys : t'.table.keys = t.table.keys ++ [k₁])
    (hvalues : t'.values = t.values ++ [v₁]) (h : t'.Has k v) : t.Has k v ∨ (k = k₁ ∧ v = v₁) := by
  obtain ⟨e, hk, hv⟩ := h
  rw [hkeys] at hk
  rw [hvalues] at hv
  by_cases he : e < t.table.keys.length
  · rw [List.getElem?_append_left he] at hk
    rw [List.getElem?_append_left (by rw [hlen]; exact he)] at hv
    exact Or.inl ⟨e, hk, hv⟩
  · have hlt := (List.getElem?_eq_some_iff.mp hk).1
    rw [List.length_append, List.length_singleton] at hlt
    obtain rfl : e = t.table.keys.length := by omega
    rw [List.getElem?_concat_length] at hk
    rw [← hlen, List.getElem?_concat_length] at hv
    exact Or.inr ⟨(Option.some_inj.mp hk).symm, (Option.some_inj.mp hv).symm⟩

/-- **Step lemma.** An insertion ends, and the table has the value of the pair and what it
    had before, nothing else. -/
theorem Weak.insertWord (ht : t.Weak) (p c : String) (v : V) :
    ∃ t', t.insertWord p c v = some t' ∧ t'.Weak ∧
      ∀ k w, t'.Has k w → t.Has k w ∨ (k = (p, c) ∧ w = v) := by
  obtain ⟨r, hfind, hr⟩ := ht.find (p, c)
  unfold EdgeIndex.insertWord
  rw [hfind]
  simp only [Option.bind_eq_bind, Option.bind_some]
  cases r with
  | some e =>
    -- the value is overwritten
    have hkey := hr e rfl
    have hlt : e < t.values.length := by
      rw [ht.values]
      exact (List.getElem?_eq_some_iff.mp hkey).1
    refine ⟨_, if_pos hlt, ⟨ht.loose, ht.mask, ht.room, ?_⟩, ?_⟩
    · rw [List.length_set]
      exact ht.values
    · rintro k w ⟨e', hk, hw⟩
      by_cases he : e = e'
      · subst he
        rw [List.getElem?_set_self hlt] at hw
        exact Or.inr ⟨Option.some_inj.mp (hk.symm.trans hkey), (Option.some_inj.mp hw).symm⟩
      · rw [List.getElem?_set_ne he] at hw
        exact Or.inl ⟨e', hk, hw⟩
  | none =>
    have hlen : (t.table.keys ++ [(p, c)]).length = t.table.keys.length + 1 := by simp
    have hvalues : (t.values ++ [v]).length = (t.table.keys ++ [(p, c)]).length := by
      rw [List.length_append, hlen, ht.values]
      rfl
    by_cases hgrow : t.table.buckets.length < bucketsFor (t.table.keys ++ [(p, c)]).length
    · have hlt := lt_bucketsFor (t.table.keys ++ [(p, c)]).length
      obtain ⟨bs, hall, hbs, hloose⟩ := placeAllWord_loose (t.table.keys ++ [(p, c)])
        (loose_replicate (bucketsFor_pow (t.table.keys ++ [(p, c)]).length) 0)
        (by rw [List.length_replicate]; omega)
      rw [List.length_replicate] at hall hbs
      rw [Nat.zero_add] at hloose
      refine ⟨⟨⟨bs, bucketsFor (t.table.keys ++ [(p, c)]).length - 1, t.table.keys ++ [(p, c)]⟩,
        t.values ++ [v]⟩, ?_, ⟨hloose, ?_, ?_, hvalues⟩, fun k w => has_concat ht.values rfl rfl⟩
      · rw [if_pos hgrow]
        unfold rehashWord
        simp only [Option.bind_eq_bind, hall, Option.bind_some]
        rfl
      · show _ = bs.length - 1
        rw [hbs]
      · show (t.table.keys ++ [(p, c)]).length < bs.length
        rw [hbs]
        exact hlt
    · have hroom : t.table.keys.length + 1 < t.table.buckets.length := by
        have hlt := lt_bucketsFor (t.table.keys ++ [(p, c)]).length
        omega
      obtain ⟨bs, hplace, hbs, hloose⟩ := placeWord_loose ht.loose ht.room (hashPair (p, c))
      rw [← ht.mask] at hplace
      refine ⟨⟨⟨bs, t.table.mask, t.table.keys ++ [(p, c)]⟩, t.values ++ [v]⟩, ?_,
        ⟨?_, ?_, ?_, hvalues⟩, fun k w => has_concat ht.values rfl rfl⟩
      · rw [if_neg hgrow, hplace]
        rfl
      · show Loose bs (t.table.keys ++ [(p, c)]).length
        rw [hlen]
        exact hloose
      · show t.table.mask = bs.length - 1
        rw [hbs]
        exact ht.mask
      · show (t.table.keys ++ [(p, c)]).length < bs.length
        rw [hbs, hlen]
        exact hroom

/-- A sequence of insertions. -/
def insertAllWord (t : EdgeIndex V) : List ((String × String) × V) → Option (EdgeIndex V)
  | [] => some t
  | (k, v) :: ops => do
    let t ← t.insertWord k.1 k.2 v
    t.insertAllWord ops

/-- **Run lemma.** Any number of insertions ends, as every probe does then, and a hit is a value
    that was inserted for the pair. -/
theorem Weak.insertAllWord (ht : t.Weak) (ops : List ((String × String) × V)) :
    ∃ t', t.insertAllWord ops = some t' ∧ t'.Weak ∧
      ∀ k w, t'.Has k w → t.Has k w ∨ (k, w) ∈ ops := by
  induction ops generalizing t with
  | nil => exact ⟨t, rfl, ht, fun k w h => Or.inl h⟩
  | cons op ops ih =>
    obtain ⟨⟨p, c⟩, v⟩ := op
    obtain ⟨t₁, hins, ht₁, hhas₁⟩ := ht.insertWord p c v
    obtain ⟨t', hrest, ht', hhas'⟩ := ih ht₁
    refine ⟨t', ?_, ht', fun k w h => ?_⟩
    · show (t.insertWord p c v).bind _ = _
      rw [hins]
      exact hrest
    · rcases hhas' k w h with h | h
      · rcases hhas₁ k w h with h | ⟨rfl, rfl⟩
        · exact Or.inl h
        · exact Or.inr List.mem_cons_self
      · exact Or.inr (List.mem_cons_of_mem _ h)

/-- A table that keeps `P`: a hit is a value of its own pair, and an insertion adds a value of
    its own pair only. -/
structure Stores (P : EdgeIndex V → Prop)
    (ins : EdgeIndex V → String → String → V → Option (EdgeIndex V)) : Prop where
  get : ∀ {t : EdgeIndex V}, P t → ∀ p c, ∃ r, t.get p c = some r ∧ ∀ v, r = some v → t.Has (p, c) v
  insert : ∀ {t : EdgeIndex V}, P t → ∀ p c v, t.get p c = some none → ∃ t', ins t p c v = some t' ∧
    P t' ∧ ∀ k w, t'.Has k w → t.Has k w ∨ (k = (p, c) ∧ w = v)

theorem stores_weak : Stores (V := V) Weak insertWord where
  get := fun ht p c => ht.get p c
  insert := fun ht p c v _ => ht.insertWord p c v

theorem stores_ok : Stores (V := V) Ok EdgeIndex.insert where
  get := by
    intro t ht p c
    refine ⟨_, ht.get p c, fun v hv => ?_⟩
    obtain ⟨e, hpos, hval⟩ := Option.bind_eq_some_iff.mp hv
    exact ⟨e, getElem?_of_position hpos, hval⟩
  insert := by
    intro t ht p c v hget
    have hnew : (p, c) ∉ t.table.keys := by
      intro hmem
      obtain ⟨e, he⟩ := exists_position hmem
      have hlt := position_lt he
      rw [← ht.values] at hlt
      rw [ht.get, he, Option.bind_some, List.getElem?_eq_getElem hlt] at hget
      cases hget
    obtain ⟨t', hins, hok, hkeys, hvalues⟩ := ht.insert hnew v
    exact ⟨t', hins, hok, fun k w => has_concat ht.values hkeys hvalues⟩

end EdgeIndex

end TfTree.Bridge
