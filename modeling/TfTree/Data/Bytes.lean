import Mathlib.Data.Nat.Digits.Defs
import Mathlib.Data.List.Basic
import Mathlib.Tactic.Common
import TfTree.Data.Numerals

/-!
# Bytes

Little-endian numbers, and records laid out at fixed offsets of a memory.

Results:
* `ofLe_leBytes`: a number that fits is read back.
* `bytesAt_image`, `numberAt_image`: a field of a record is read back at its offset.
* `numberAt_congr`, `numberAt_zero`: what a number read from a memory depends on.
-/

namespace TfTree.Data

/-- `from_le_bytes`. -/
def ofLe (bytes : List UInt8) : ℕ := Nat.ofDigits 256 (bytes.map UInt8.toNat)

/-- `to_le_bytes`, of a number of `n` bytes. -/
def leBytes : ℕ → ℕ → List UInt8
  | 0, _ => []
  | n + 1, x => UInt8.ofNat x :: leBytes n (x / 256)

/-- The `n` bytes of a memory from an offset on. -/
def bytesAt (memory : ℕ → UInt8) (off n : ℕ) : List UInt8 :=
  (List.range n).map fun i => memory (off + i)

/-- The number of `n` bytes that a memory holds at an offset. -/
def numberAt (memory : ℕ → UInt8) (off n : ℕ) : ℕ := ofLe (bytesAt memory off n)

/-- The array of `n` bytes that a memory holds at an offset. -/
def arrayAt (memory : ℕ → UInt8) (off n : ℕ) : Vector UInt8 n :=
  ⟨(bytesAt memory off n).toArray, by simp [bytesAt]⟩

/-- The memory of a record: its fields, each at its offset, and zeros around them. -/
def image (fields : List (ℕ × List UInt8)) (i : ℕ) : UInt8 :=
  match fields.find? fun field => field.1 ≤ i ∧ i < field.1 + field.2.length with
  | some (off, bytes) => bytes.getD (i - off) 0
  | none => 0

/-- The fields stand one behind the other. -/
def InOrder (fields : List (ℕ × List UInt8)) : Prop :=
  fields.Pairwise fun a b => a.1 + a.2.length ≤ b.1

/-! ## Little-endian numbers -/

@[simp] theorem length_leBytes (n x : ℕ) : (leBytes n x).length = n := by
  induction n generalizing x with
  | zero => rfl
  | succ n ih => rw [leBytes, List.length_cons, ih]

theorem ofLe_leBytes_mod (n x : ℕ) : ofLe (leBytes n x) = x % 256 ^ n := by
  induction n generalizing x with
  | zero => rw [pow_zero, Nat.mod_one]; rfl
  | succ n ih =>
    have hhead : (UInt8.ofNat x).toNat = x % 256 := UInt8.toNat_ofNat'
    have htail : Nat.ofDigits 256 ((leBytes n (x / 256)).map UInt8.toNat) = x / 256 % 256 ^ n :=
      ih (x / 256)
    rw [ofLe, leBytes, List.map_cons, Nat.ofDigits_cons, hhead, htail, pow_succ',
      Nat.mod_mul]

theorem ofLe_leBytes {n x : ℕ} (h : x < 256 ^ n) : ofLe (leBytes n x) = x := by
  rw [ofLe_leBytes_mod, Nat.mod_eq_of_lt h]

theorem ofLe_zeros (n : ℕ) : ofLe (List.replicate n 0) = 0 := by
  induction n with
  | zero => rfl
  | succ n ih =>
    have htail : Nat.ofDigits 256 ((List.replicate n (0 : UInt8)).map UInt8.toNat) = 0 := ih
    rw [ofLe, List.replicate_succ, List.map_cons, Nat.ofDigits_cons, htail]
    rfl

/-! ## Reading a memory -/

section Memory

variable {memory memory' : ℕ → UInt8} {off n : ℕ}

@[simp] theorem length_bytesAt : (bytesAt memory off n).length = n := by simp [bytesAt]

theorem bytesAt_congr (h : ∀ i, off ≤ i → i < off + n → memory i = memory' i) :
    bytesAt memory off n = bytesAt memory' off n := by
  unfold bytesAt
  apply List.map_congr_left
  intro i hi
  have hi := List.mem_range.mp hi
  exact h (off + i) (by omega) (by omega)

theorem bytesAt_eq {bytes : List UInt8} (hlen : bytes.length = n)
    (h : ∀ i (hi : i < bytes.length), memory (off + i) = bytes[i]) :
    bytesAt memory off n = bytes := by
  apply List.ext_getElem
  · rw [length_bytesAt, hlen]
  · intro i hi hi'
    simpa [bytesAt] using h i hi'

theorem numberAt_congr (h : ∀ i, off ≤ i → i < off + n → memory i = memory' i) :
    numberAt memory off n = numberAt memory' off n := by
  rw [numberAt, numberAt, bytesAt_congr h]

theorem numberAt_zero (h : ∀ i, off ≤ i → i < off + n → memory i = 0) :
    numberAt memory off n = 0 := by
  have hzeros : bytesAt memory off n = List.replicate n 0 := by
    apply bytesAt_eq (List.length_replicate ..)
    intro i hi
    rw [List.getElem_replicate]
    rw [List.length_replicate] at hi
    exact h (off + i) (by omega) (by omega)
  rw [numberAt, hzeros, ofLe_zeros]

theorem arrayAt_congr (h : ∀ i, off ≤ i → i < off + n → memory i = memory' i) :
    arrayAt memory off n = arrayAt memory' off n := by
  apply Vector.toArray_inj.mp
  exact congrArg List.toArray (bytesAt_congr h)

end Memory

/-! ## Records -/

section Records

variable {fields : List (ℕ × List UInt8)} {off : ℕ} {bytes : List UInt8}

theorem image_field (hin : InOrder fields) (hmem : (off, bytes) ∈ fields) {i : ℕ}
    (hi : i < bytes.length) : image fields (off + i) = bytes[i] := by
  have hfind : fields.find? (fun field => field.1 ≤ off + i ∧
      off + i < field.1 + field.2.length) = some (off, bytes) := by
    induction fields with
    | nil => cases hmem
    | cons field fields ih =>
      obtain ⟨hhead, htail⟩ := List.pairwise_cons.mp hin
      rcases List.mem_cons.mp hmem with rfl | hmem
      · rw [List.find?_cons_of_pos]
        simp only [decide_eq_true_eq]
        omega
      · have hbefore := hhead _ hmem
        rw [List.find?_cons_of_neg, ih htail hmem]
        simp only [decide_eq_true_eq]
        omega
  rw [image, hfind]
  have hsub : off + i - off = i := by omega
  simp [hsub, hi]

theorem bytesAt_image (hin : InOrder fields) (hmem : (off, bytes) ∈ fields) :
    bytesAt (image fields) off bytes.length = bytes :=
  bytesAt_eq rfl fun _ hi => image_field hin hmem hi

theorem numberAt_image {n x : ℕ} (hin : InOrder fields) (hmem : (off, leBytes n x) ∈ fields)
    (hx : x < 256 ^ n) : numberAt (image fields) off n = x := by
  have hbytes := bytesAt_image hin hmem
  rw [length_leBytes] at hbytes
  rw [numberAt, hbytes, ofLe_leBytes hx]

theorem arrayAt_image {n : ℕ} {v : Vector UInt8 n} (hin : InOrder fields)
    (hmem : (off, v.toList) ∈ fields) : arrayAt (image fields) off n = v := by
  have hbytes := bytesAt_image hin hmem
  rw [Vector.length_toList] at hbytes
  apply Vector.toArray_inj.mp
  exact congrArg List.toArray hbytes

end Records

end TfTree.Data
