import Mathlib.Logic.Function.Basic
import Mathlib.Tactic.Common
import TfTree.Data.Numerals

/-!
# Direct-mapped caches

A cache with one entry for each index; storing an entry evicts the one that was there.

Results:
* `Sound.hit`: a hit is an entry that was stored under its key.
* `Sound.store`, `Sound.mono`: what keeps a cache sound.
* `hit_store`: the entry stored last is hit.
-/

namespace TfTree.Data

/-- A cache of `n` entries with keys in `κ` and values in `ν`. -/
abbrev DirectMapped (n : ℕ) (κ ν : Type) := Fin n → Option (κ × ν)

namespace DirectMapped

variable {n : ℕ} {κ ν : Type}

/-- The cache without entries. -/
def empty : DirectMapped n κ ν := fun _ => none

/-- The value stored under a key. -/
def hit [DecidableEq κ] (index : κ → Fin n) (c : DirectMapped n κ ν) (k : κ) : Option ν :=
  match c (index k) with
  | some (k', v) => if k' = k then some v else none
  | none => none

/-- Store a value in the place of its key. -/
def store (index : κ → Fin n) (c : DirectMapped n κ ν) (k : κ) (v : ν) : DirectMapped n κ ν :=
  Function.update c (index k) (some (k, v))

/-- Every entry satisfies `P`. -/
def Sound (P : κ → ν → Prop) (c : DirectMapped n κ ν) : Prop :=
  ∀ i k v, c i = some (k, v) → P k v

variable {P Q : κ → ν → Prop} {index : κ → Fin n} {c : DirectMapped n κ ν} {k : κ} {v : ν}

theorem sound_empty : Sound P (empty : DirectMapped n κ ν) := by
  intro i k v h
  cases h

theorem Sound.hit [DecidableEq κ] (hc : Sound P c) (h : c.hit index k = some v) : P k v := by
  unfold DirectMapped.hit at h
  split at h
  · next k' v' hget =>
    split_ifs at h with hk
    cases h
    exact hk ▸ hc _ _ _ hget
  · cases h

theorem Sound.store (hc : Sound P c) (h : P k v) : Sound P (c.store index k v) := by
  intro i k' v' hget
  unfold DirectMapped.store at hget
  by_cases hi : i = index k
  · rw [hi, Function.update_self] at hget
    cases hget
    exact h
  · rw [Function.update_of_ne hi] at hget
    exact hc i k' v' hget

/-- What was stored last is hit. -/
theorem hit_store [DecidableEq κ] : (c.store index k v).hit index k = some v := by
  rw [DirectMapped.hit, DirectMapped.store, Function.update_self]
  exact if_pos rfl

theorem Sound.mono (hc : Sound P c) (h : ∀ k v, P k v → Q k v) : Sound Q c :=
  fun i k v hget => h k v (hc i k v hget)

end DirectMapped

end TfTree.Data
