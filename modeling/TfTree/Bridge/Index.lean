import TfTree.Data.Probe
import Mathlib.Data.Nat.Log
import Mathlib.Order.Lattice

/-!
# Tables of names

`edgeindex.rs` and `interner.rs` of `tf_tree_bridge`: the table of declared edges and
the table of publishers. Positions are `ℕ`; the code keeps them in a `u32`.

Results:
* `EdgeIndex.Ok.get`, `EdgeIndex.Ok.insert`: the table of edges grows as its keys do,
  and finds each of them.
* `StrInterner.Ok.intern`: a name gets the next position until the cap is reached.
-/

namespace TfTree.Bridge

open Data

/-! ## Hashes -/

/-- The 64-bit word of up to eight bytes, the first one lowest. -/
def leWord : List UInt8 → UInt64
  | [] => 0
  | b :: bs => b.toUInt64 ||| (leWord bs <<< 8)

/-- `u64::rotate_left(5)`. -/
def rotateLeft5 (x : UInt64) : UInt64 := (x <<< 5) ||| (x >>> 59)

/-- `K` (`edgeindex.rs`). -/
def hashK : UInt64 := 0x517cc1b727220a95

/-- The chunks of `mix`: eight bytes at a time, and the rest, which may be empty. -/
def mixChunks (h : UInt64) : List UInt8 → UInt64
  | b₀ :: b₁ :: b₂ :: b₃ :: b₄ :: b₅ :: b₆ :: b₇ :: rest =>
    mixChunks (rotateLeft5 (h ^^^ leWord [b₀, b₁, b₂, b₃, b₄, b₅, b₆, b₇]) * hashK) rest
  | rest => rotateLeft5 (h ^^^ leWord rest) * hashK

/-- `mix` (`edgeindex.rs`, lines 22–34). -/
def mix (h : UInt64) (bytes : List UInt8) : UInt64 :=
  (mixChunks h bytes ^^^ UInt64.ofNat bytes.length) * hashK

/-- `str::as_bytes`. -/
def asBytes (s : String) : List UInt8 := s.toUTF8.data.toList

/-- `hash_pair` (`edgeindex.rs`, lines 38–43). -/
def hashPair (k : String × String) : ℕ :=
  let h := mix 0xcbf29ce484222325 (asBytes k.1) ^^^ 0x9e3779b97f4a7c15
  let h := mix h (asBytes k.2)
  let h := (h ^^^ (h >>> 32)) * hashK
  (h ^^^ (h >>> 29)).toNat

/-- `StrInterner::hash` (`interner.rs`, lines 53–57). -/
def hashStr (s : String) : ℕ :=
  let h := mix 0xcbf29ce484222325 (asBytes s)
  let h := (h ^^^ (h >>> 32)) * hashK
  (h ^^^ (h >>> 29)).toNat

/-- `usize::next_power_of_two`. -/
def nextPowerOfTwo (n : ℕ) : ℕ := if n ≤ 1 then 1 else 2 ^ ((n - 1).log2 + 1)

/-- `buckets_for` (`edgeindex.rs`, lines 49–51). -/
def bucketsFor (n : ℕ) : ℕ := max (nextPowerOfTwo (4 * n + 4)) 16

theorem nextPowerOfTwo_pow (n : ℕ) : ∃ m, nextPowerOfTwo n = 2 ^ m := by
  unfold nextPowerOfTwo
  split_ifs
  · exact ⟨0, rfl⟩
  · exact ⟨_, rfl⟩

theorem le_nextPowerOfTwo (n : ℕ) : n ≤ nextPowerOfTwo n := by
  unfold nextPowerOfTwo
  split_ifs with h
  · exact h
  · have hlt := Nat.lt_log2_self (n := n - 1)
    omega

theorem bucketsFor_pow (n : ℕ) : ∃ m, bucketsFor n = 2 ^ m := by
  obtain ⟨m, hm⟩ := nextPowerOfTwo_pow (4 * n + 4)
  unfold bucketsFor
  rcases le_total (nextPowerOfTwo (4 * n + 4)) 16 with h | h
  · exact ⟨4, (max_eq_right h).trans (by decide)⟩
  · exact ⟨m, by rw [max_eq_left h, hm]⟩

theorem lt_bucketsFor (n : ℕ) : n < bucketsFor n := by
  have hle := le_nextPowerOfTwo (4 * n + 4)
  have hmax := le_max_left (nextPowerOfTwo (4 * n + 4)) 16
  unfold bucketsFor
  omega

/-! ## The table of edges -/

/-- `EdgeIndex` (`edgeindex.rs`, lines 61–68). -/
structure EdgeIndex (V : Type) where
  table : Probe (String × String)
  values : List V

namespace EdgeIndex

variable {V : Type}

/-- `EdgeIndex::with_capacity` (lines 77–91). -/
def withCapacity (n : ℕ) : EdgeIndex V := ⟨.empty (bucketsFor n), []⟩

/-- `EdgeIndex::len`. -/
def len (t : EdgeIndex V) : ℕ := t.table.keys.length

/-- `EdgeIndex::key`: an index out of range panics. -/
def key (t : EdgeIndex V) (e : ℕ) : Option (String × String) := t.table.keys[e]?

/-- `EdgeIndex::get` (lines 162–164). -/
def get (t : EdgeIndex V) (parent child : String) : Option (Option V) := do
  match ← t.table.find hashPair (parent, child) with
  | none => return none
  | some e =>
    let v ← t.values[e]?
    return some v

/-- `EdgeIndex::rehash` (lines 131–147). -/
def rehash (t : EdgeIndex V) : Option (EdgeIndex V) := do
  let table ← t.table.rebuild hashPair (bucketsFor t.table.keys.length)
  return { t with table := table }

/-- `EdgeIndex::insert` (lines 114–129), without the returned position. -/
def insert (t : EdgeIndex V) (parent child : String) (v : V) : Option (EdgeIndex V) := do
  match ← t.table.find hashPair (parent, child) with
  | some e => if e < t.values.length then return { t with values := t.values.set e v } else none
  | none =>
    let e := t.table.keys.length
    let t' : EdgeIndex V :=
      ⟨{ t.table with keys := t.table.keys ++ [(parent, child)] }, t.values ++ [v]⟩
    if t'.table.buckets.length < bucketsFor t'.table.keys.length then t'.rehash
    else
      let table ← t'.table.place hashPair (parent, child) e
      return { t' with table := table }

/-- The table is in order, with a value for each key. -/
structure Ok (t : EdgeIndex V) : Prop where
  table : t.table.Ok hashPair
  values : t.values.length = t.table.keys.length

variable {t : EdgeIndex V} {p c : String}

theorem ok_withCapacity (n : ℕ) : (withCapacity n : EdgeIndex V).Ok where
  table := Probe.ok_empty _ (bucketsFor_pow n)
  values := rfl

/-- A probe finds the value of the key. -/
theorem Ok.get (ht : t.Ok) (p c : String) :
    t.get p c = some ((position t.table.keys (p, c)).bind (t.values[·]?)) := by
  unfold EdgeIndex.get
  rw [ht.table.find]
  cases hidx : position t.table.keys (p, c) with
  | none => rfl
  | some e =>
    have hlt := position_lt hidx
    rw [← ht.values] at hlt
    show (t.values[e]?.bind fun v => some (some v)) = some (t.values[e]?)
    rw [List.getElem?_eq_getElem hlt]
    rfl

/-- A new key comes last, with its value. -/
theorem Ok.insert (ht : t.Ok) (hnew : (p, c) ∉ t.table.keys) (v : V) :
    ∃ t', t.insert p c v = some t' ∧ t'.Ok ∧ t'.table.keys = t.table.keys ++ [(p, c)] ∧
      t'.values = t.values ++ [v] := by
  have hnd : (t.table.keys ++ [(p, c)]).Nodup :=
    List.nodup_append.mpr ⟨ht.table.nodup, List.nodup_singleton _, fun a ha b hb => by
      rw [List.mem_singleton.mp hb]
      rintro rfl
      exact hnew ha⟩
  have hlen : (t.table.keys ++ [(p, c)]).length = t.table.keys.length + 1 := by simp
  have hvalues : (t.values ++ [v]).length = (t.table.keys ++ [(p, c)]).length := by
    rw [List.length_append, List.length_append, ht.values]
    rfl
  unfold EdgeIndex.insert
  rw [ht.table.find, position_eq_none.mpr hnew]
  simp only [Option.bind_eq_bind, Option.bind_some]
  by_cases hgrow : t.table.buckets.length < bucketsFor (t.table.keys ++ [(p, c)]).length
  · rw [if_pos hgrow]
    obtain ⟨table, hre, hkeys, -, hok⟩ := Probe.rebuild_eq hashPair
      (t := { t.table with keys := t.table.keys ++ [(p, c)] }) hnd (bucketsFor_pow _)
      (lt_bucketsFor (t.table.keys ++ [(p, c)]).length)
    refine ⟨⟨table, t.values ++ [v]⟩, ?_, ⟨hok, by rw [hkeys]; exact hvalues⟩, hkeys, rfl⟩
    unfold rehash
    rw [hre]
    rfl
  · rw [if_neg hgrow]
    have hroom : t.table.keys.length + 1 < t.table.buckets.length := by
      have hlt := lt_bucketsFor (t.table.keys ++ [(p, c)]).length
      omega
    obtain ⟨table, hadd, hkeys, -, hok⟩ := ht.table.add hnew hroom
    refine ⟨⟨table, t.values ++ [v]⟩, ?_, ⟨hok, by rw [hkeys]; exact hvalues⟩, hkeys, rfl⟩
    unfold Probe.add at hadd
    rw [hadd]
    rfl

end EdgeIndex

/-! ## The table of publishers -/

/-- `StrInterner` (`interner.rs`, lines 28–33). -/
structure StrInterner where
  table : Probe String
  cap : ℕ

namespace StrInterner

/-- `StrInterner::with_cap` (lines 37–51). -/
def withCap (cap : ℕ) : StrInterner := ⟨.empty (bucketsFor cap), cap⟩

/-- `StrInterner::id_of` (lines 75–79). -/
def idOf (t : StrInterner) (s : String) : Option (Option ℕ) := t.table.find hashStr s

/-- `StrInterner::intern` (lines 82–98): `none` past the cap. -/
def intern (t : StrInterner) (s : String) : Option (Option ℕ × StrInterner) := do
  match ← t.idOf s with
  | some id => return (some id, t)
  | none =>
    if t.table.keys.length ≥ t.cap then return (none, t)
    else
      let e := t.table.keys.length
      let table ← Probe.place hashStr { t.table with keys := t.table.keys ++ [s] } s e
      return (some e, { t with table := table })

/-- The table is in order, and has room for as many names as the cap allows. -/
structure Ok (t : StrInterner) : Prop where
  table : t.table.Ok hashStr
  cap : t.cap < t.table.buckets.length
  le : t.table.keys.length ≤ t.cap

/-- The names after `s` was interned. -/
def after (cap : ℕ) (names : List String) (s : String) : List String :=
  if s ∈ names ∨ cap ≤ names.length then names else names ++ [s]

variable {t : StrInterner}

theorem ok_withCap (cap : ℕ) : (withCap cap).Ok where
  table := Probe.ok_empty _ (bucketsFor_pow cap)
  cap := by
    show cap < (List.replicate (bucketsFor cap) none).length
    rw [List.length_replicate]
    exact lt_bucketsFor cap
  le := Nat.zero_le _

/-- A name gets the next position until the cap is reached, and keeps it. -/
theorem Ok.intern (ht : t.Ok) (s : String) :
    ∃ t', t.intern s = some (position (after t.cap t.table.keys s) s, t') ∧ t'.Ok ∧
      t'.cap = t.cap ∧ t'.table.keys = after t.cap t.table.keys s := by
  unfold StrInterner.intern idOf after
  rw [ht.table.find]
  cases hidx : position t.table.keys s with
  | some id =>
    have hmem : s ∈ t.table.keys := by
      by_contra hnot
      rw [position_eq_none.mpr hnot] at hidx
      cases hidx
    rw [if_pos (Or.inl hmem), hidx]
    exact ⟨t, rfl, ht, rfl, rfl⟩
  | none =>
    have hnew := position_eq_none.mp hidx
    simp only [Option.bind_eq_bind, Option.bind_some]
    by_cases hfull : t.cap ≤ t.table.keys.length
    · rw [if_pos hfull, if_pos (Or.inr hfull), hidx]
      exact ⟨t, rfl, ht, rfl, rfl⟩
    · rw [if_neg hfull, if_neg (by rintro (h | h); exacts [hnew h, hfull h])]
      have hcap := ht.cap
      obtain ⟨table, hadd, hkeys, hlen, hok⟩ := ht.table.add hnew (by omega)
      refine ⟨{ t with table := table }, ?_, ⟨hok, by rw [hlen]; exact hcap, ?_⟩, rfl, hkeys⟩
      · unfold Probe.add at hadd
        rw [hadd]
        rw [position_concat hnew]
        rfl
      · rw [hkeys, List.length_append]
        simp only [List.length_singleton]
        omega

end StrInterner

end TfTree.Bridge
