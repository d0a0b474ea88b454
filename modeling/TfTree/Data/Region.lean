import Mathlib.Algebra.BigOperators.Group.List.Basic
import Mathlib.Tactic.Common
import Mathlib.Algebra.GroupWithZero.Nat
import TfTree.Data.Numerals

/-!
# Regions of a byte range

A region is an offset and a size. Regions packed one after the other do not overlap
and end where the sum of their sizes ends; a slice of elements lies inside a region
when its last element does.

Results:
* `pack_before`: of two packed regions the first ends before the second begins.
* `pack_end`: packed regions end inside the sum of the sizes.
* `Slice.within_element`: one element of an array that lies inside a region.
-/

namespace TfTree

/-- A contiguous run of bytes. -/
structure Region where
  offset : ℕ
  size : ℕ
  deriving DecidableEq, Repr

/-- A run of `len` elements of `size` bytes each, that want the alignment `align`. -/
structure Slice where
  offset : ℕ
  size : ℕ
  align : ℕ
  len : ℕ
  deriving DecidableEq, Repr

/-- The regions share no byte. -/
def Region.Disjoint (a b : Region) : Prop :=
  a.offset + a.size ≤ b.offset ∨ b.offset + b.size ≤ a.offset

/-- The bytes of a slice. -/
def Slice.bytes (s : Slice) : Region := ⟨s.offset, s.len * s.size⟩

/-- The slice lies inside the region. -/
def Slice.Within (s : Slice) (a : Region) : Prop :=
  a.offset ≤ s.offset ∧ s.offset + s.len * s.size ≤ a.offset + a.size

/-- The slice is aligned in memory, when its base is. -/
def Slice.Aligned (s : Slice) (base : ℕ) : Prop := s.align ∣ base + s.offset

/-- Regions of the sizes in the list, packed from `off` on. -/
def packRegions : ℕ → List ℕ → List Region
  | _, [] => []
  | off, n :: ns => ⟨off, n⟩ :: packRegions (off + n) ns

section Pack

variable {off i j : ℕ} {ns : List ℕ} {a b : Region}

theorem packRegions_length (off : ℕ) (ns : List ℕ) : (packRegions off ns).length = ns.length := by
  induction ns generalizing off with
  | nil => rfl
  | cons n ns ih => simp [packRegions, ih]

/-- A packed region begins at or after the start. -/
theorem pack_start (ha : a ∈ packRegions off ns) : off ≤ a.offset := by
  induction ns generalizing off with
  | nil => cases ha
  | cons n ns ih =>
    rcases List.mem_cons.mp ha with rfl | ha
    · exact Nat.le_refl off
    · have hstart := ih ha
      omega

/-- A packed region ends inside the sum of the sizes. -/
theorem pack_end (ha : a ∈ packRegions off ns) : a.offset + a.size ≤ off + ns.sum := by
  induction ns generalizing off with
  | nil => cases ha
  | cons n ns ih =>
    rw [List.sum_cons]
    rcases List.mem_cons.mp ha with rfl | ha
    · show off + n ≤ off + (n + ns.sum)
      omega
    · have hend := ih ha
      omega

/-- Of two packed regions the first ends before the second begins. -/
theorem pack_before (hij : i < j) (ha : (packRegions off ns)[i]? = some a)
    (hb : (packRegions off ns)[j]? = some b) : a.offset + a.size ≤ b.offset := by
  induction ns generalizing off i j with
  | nil => cases ha
  | cons n ns ih =>
    obtain ⟨j, rfl⟩ : ∃ j', j = j' + 1 := ⟨j - 1, by omega⟩
    rw [packRegions, List.getElem?_cons_succ] at hb
    cases i with
    | zero =>
      obtain rfl : (⟨off, n⟩ : Region) = a := Option.some_inj.mp ha
      exact pack_start (List.mem_of_getElem? hb)
    | succ i =>
      rw [packRegions, List.getElem?_cons_succ] at ha
      exact ih (by omega) ha hb

/-- Sizes that keep an alignment keep the offsets aligned. -/
theorem pack_aligned {d : ℕ} (hoff : d ∣ off) (hns : ∀ n ∈ ns, d ∣ n)
    (ha : a ∈ packRegions off ns) : d ∣ a.offset := by
  induction ns generalizing off with
  | nil => cases ha
  | cons n ns ih =>
    rcases List.mem_cons.mp ha with rfl | ha
    · exact hoff
    · exact ih (Nat.dvd_add hoff (hns n List.mem_cons_self))
        (fun n' hn' => hns n' (List.mem_cons_of_mem _ hn')) ha

/-- The last packed region ends where the sum of the sizes ends. -/
theorem pack_last (ha : (packRegions off ns).getLast? = some a) :
    a.offset + a.size = off + ns.sum := by
  induction ns generalizing off with
  | nil => cases ha
  | cons n ns ih =>
    rw [List.sum_cons]
    rw [packRegions, List.getLast?_cons] at ha
    cases hrest : (packRegions (off + n) ns).getLast? with
    | none =>
      have hnil : ns = [] := by
        have hlen := packRegions_length (off + n) ns
        rw [List.getLast?_eq_none_iff.mp hrest] at hlen
        exact List.eq_nil_of_length_eq_zero hlen.symm
      rw [hrest] at ha
      obtain rfl : (⟨off, n⟩ : Region) = a := Option.some_inj.mp ha
      rw [hnil]
      rfl
    | some b =>
      rw [hrest] at ha
      obtain rfl : b = a := Option.some_inj.mp ha
      rw [ih hrest, Nat.add_assoc]

end Pack

theorem Region.Disjoint.symm {a b : Region} (h : a.Disjoint b) : b.Disjoint a := Or.symm h

section Slices

variable {s s' : Slice} {a : Region} {base : ℕ}

/-- An array that starts a region. -/
theorem Slice.within_start (hoff : s.offset = a.offset) (hlen : s.len * s.size ≤ a.size) :
    s.Within a := by
  unfold Slice.Within
  omega

/-- One element of an array of `n` elements that lies inside a region. -/
theorem Slice.within_element {n i : ℕ} (hlen : s.len = 1) (hi : i < n)
    (hoff : s.offset = a.offset + i * s.size) (hn : n * s.size ≤ a.size) : s.Within a := by
  have hle : (i + 1) * s.size ≤ n * s.size := Nat.mul_le_mul_right _ hi
  rw [Nat.add_mul, Nat.one_mul] at hle
  unfold Slice.Within
  rw [hlen, Nat.one_mul]
  omega

/-- Of two runs of one array the first ends before the other begins. -/
theorem Slice.disjoint_of_before {start size align i j n n' : ℕ} (h : i + n ≤ j) :
    (⟨start + i * size, size, align, n⟩ : Slice).bytes.Disjoint
      (⟨start + j * size, size, align, n'⟩ : Slice).bytes := by
  have hmul : (i + n) * size ≤ j * size := Nat.mul_le_mul_right _ h
  rw [Nat.add_mul] at hmul
  refine .inl ?_
  show start + i * size + n * size ≤ start + j * size
  omega

/-- Slices of disjoint regions share no byte. -/
theorem Slice.disjoint_of_within {b : Region} (hs : s.Within a) (hs' : s'.Within b)
    (hab : a.Disjoint b) : s.bytes.Disjoint s'.bytes := by
  unfold Slice.Within at hs hs'
  unfold Region.Disjoint at hab ⊢
  dsimp only [Slice.bytes]
  omega

end Slices

end TfTree
