import TfTree.Core.Error
import TfTree.Data.StableSort
import Mathlib.Algebra.BigOperators.Fin
import Mathlib.Data.Prod.Lex

/-!
# Spill files and their merge

`tf_tree_ingest/src/spill.rs`: sorted runs of samples, back to back in one file, and the
merge that reads a window of each run at a time. Reads past the end of the file fail;
other failures of the file system are not modelled.

Results:
* `RunFile.Holds.writeRun`: a written run is in the file, and the runs before it still are.
* `Merging.nextSample`: the merger yields the first of the least heads, whatever its window.
* `Merging.forEach`: its whole stream is the stable sort of the runs.
-/

namespace TfTree

open Data

variable {F : Type}

/-! ## Model of `spill.rs` -/

/-- `IngestError`. -/
inductive IngestError where
  | spill
  | push (e : PushError)
  deriving DecidableEq, Repr

/-- `to_le_bytes` and `from_le_bytes` of a 64-bit type. -/
class LeBytes (F : Type) where
  toLeBytes : F → List UInt8
  fromLeBytes : List UInt8 → F
  length_toLeBytes : ∀ x, (toLeBytes x).length = 8
  fromLeBytes_toLeBytes : ∀ x, fromLeBytes (toLeBytes x) = x

export LeBytes (toLeBytes fromLeBytes length_toLeBytes fromLeBytes_toLeBytes)

instance : LeBytes (BitVec 64) where
  toLeBytes x := (List.range 8).map fun i => UInt8.ofNat (x.toNat >>> (8 * i))
  fromLeBytes bytes := BitVec.ofNat 64 (bytes.foldr (fun b n => b.toNat + 256 * n) 0)
  length_toLeBytes _ := rfl
  fromLeBytes_toLeBytes x := by
    have hx := x.isLt
    apply BitVec.eq_of_toNat_eq
    simp only [List.range_succ, List.range_zero, List.nil_append, List.cons_append, List.map_cons,
      List.map_nil, List.foldr_cons, List.foldr_nil, UInt8.toNat_ofNat', Nat.shiftRight_eq_div_pow,
      BitVec.toNat_ofNat, Nat.reduceMul, Nat.reducePow]
    omega

/-- `Sample`: an `i64` stamp beside the canonical pose. -/
structure Sample (F : Type) where
  stamp : Int64
  pose : Fin 7 → F

/-- The stamp as a number: the key of every sort. -/
def Sample.ns (s : Sample F) : ℤ := s.stamp.toInt

/-- `ENCODED`. -/
def ENCODED : ℕ := 8 + 7 * 8

/-- `sort_run` (lines 100–102). -/
def sortRun (buf : List (Sample F)) : List (Sample F) := buf.mergeSort (keyLe Sample.ns)

section Model

variable [LeBytes F]

/-- `encode` (lines 112–118). -/
def encode (s : Sample F) : List UInt8 :=
  toLeBytes s.stamp.toBitVec ++ (List.finRange 7).flatMap fun i => toLeBytes (s.pose i)

/-- `decode` (lines 124–134). -/
def decode (b : List UInt8) : Sample F where
  stamp := Int64.ofBitVec (fromLeBytes (b.take 8))
  pose := fun i => fromLeBytes ((b.drop (8 + 8 * i)).take 8)

/-- `RunFile` (lines 166–176): the bytes of the file, and its runs as
    `(byte offset, sample count)`. -/
structure RunFile where
  file : List UInt8
  runs : List (ℕ × ℕ)
  staging : List UInt8
  /-- The capacity of `staging`. -/
  capacity : ℕ
  openRun : Option (ℕ × ℕ)

namespace RunFile

/-- `create` (lines 181–203). -/
def create (staging : ℕ) : RunFile where
  file := []
  runs := []
  staging := []
  capacity := max staging ENCODED
  openRun := none

/-- `flush` (lines 237–245). -/
def flush (f : RunFile) : RunFile :=
  if f.staging = [] then f else { f with file := f.file ++ f.staging, staging := [] }

/-- `begin_run` (lines 208–211). -/
def beginRun (f : RunFile) : RunFile :=
  { f with openRun := some (f.file.length + f.staging.length, 0) }

/-- `append` (lines 214–223). -/
def append (f : RunFile) (s : Sample F) : RunFile :=
  let f := if f.staging.length + ENCODED > f.capacity then f.flush else f
  { f with
    staging := f.staging ++ encode s
    openRun := f.openRun.map fun (off, n) => (off, n + 1) }

/-- `end_run` (lines 227–235). -/
def endRun (f : RunFile) : RunFile :=
  let f := f.flush
  match f.openRun with
  | some span =>
    { f with openRun := none, runs := if span.2 > 0 then f.runs ++ [span] else f.runs }
  | none => f

/-- `write_run` (lines 248–254). -/
def writeRun (f : RunFile) (samples : List (Sample F)) : RunFile :=
  (samples.foldl append f.beginRun).endRun

end RunFile

/-- `RunReader` (lines 312–317). -/
structure RunReader (F : Type) where
  nextOff : ℕ
  remaining : ℕ
  buf : List (Sample F)
  pos : ℕ

/-- `peek` (lines 320–322). -/
def RunReader.peek (r : RunReader F) : Option (Sample F) := r.buf[r.pos]?

/-- `seek` and `read_exact`. -/
def readExact (file : List UInt8) (off n : ℕ) : Except IngestError (List UInt8) :=
  if off + n ≤ file.length then .ok ((file.drop off).take n) else .error .spill

/-- `chunks_exact(ENCODED).map(decode)`, on `n` chunks. -/
def decodeChunks : ℕ → List UInt8 → List (Sample F)
  | 0, _ => []
  | n + 1, slot => decode (slot.take ENCODED) :: decodeChunks n (slot.drop ENCODED)

/-- `refill` (lines 330–351). -/
def RunReader.refill (r : RunReader F) (file : List UInt8) (window : ℕ) :
    Except IngestError (RunReader F) :=
  if r.pos < r.buf.length ∨ r.remaining = 0 then .ok r
  else
    let take := min r.remaining window
    let bytes := take * ENCODED
    (readExact file r.nextOff bytes).map fun slot =>
      { nextOff := r.nextOff + bytes
        remaining := r.remaining - take
        buf := decodeChunks (slot.length / ENCODED) slot
        pos := 0 }

/-- `Merger` (lines 357–364) over `n` runs. The heap holds `(stamp, run index)`. -/
structure Merger (F : Type) (n : ℕ) where
  file : List UInt8
  readers : Fin n → RunReader F
  window : ℕ
  heap : List (ℤ ×ₗ Fin n)

namespace Merger

variable {n : ℕ}

/-- `seed` (lines 367–373). -/
def seed (m : Merger F n) (i : Fin n) : Except IngestError (Merger F n) :=
  ((m.readers i).refill m.file m.window).map fun r =>
    { m with
      readers := Function.update m.readers i r
      heap := match r.peek with
        | some s => toLex (s.ns, i) :: m.heap
        | none => m.heap }

/-- `next_sample` (lines 376–384). -/
def nextSample (m : Merger F n) : Except IngestError (Option (Sample F) × Merger F n) :=
  match m.heap.min? with
  | none => .ok (none, m)
  | some e =>
    let i := (ofLex e).2
    let item := (m.readers i).peek
    let m := { m with
      heap := m.heap.erase e
      readers := Function.update m.readers i { m.readers i with pos := (m.readers i).pos + 1 } }
    (m.seed i).map fun m => (item, m)

end Merger

/-- `merge_runs` (lines 282–308). -/
def RunFile.mergeRuns (f : RunFile) (spans : List (ℕ × ℕ)) (window : ℕ) :
    Except IngestError (Merger F spans.length) :=
  (List.finRange spans.length).foldlM (fun m i => m.seed i)
    { file := f.flush.file
      readers := fun i =>
        { nextOff := (spans.get i).1, remaining := (spans.get i).2, buf := [], pos := 0 }
      window := window
      heap := [] }

end Model

/-! ## The bytes -/

section Bytes

variable [LeBytes F]

theorem length_encode (s : Sample F) : (encode s).length = ENCODED := by
  simp [encode, ENCODED, length_toLeBytes, List.length_flatMap]

/-- The `i`-th of the parts of one length. -/
theorem take_drop_flatMap {α β : Type} {f : α → List β} {c : ℕ} (hf : ∀ a, (f a).length = c)
    (l : List α) (i : ℕ) (hi : i < l.length) : ((l.flatMap f).drop (c * i)).take c = f l[i] := by
  induction l generalizing i with
  | nil => cases hi
  | cons a l ih =>
    rw [List.flatMap_cons]
    cases i with
    | zero => simp [← hf a]
    | succ i =>
      have hlen : c * (i + 1) = (f a).length + c * i := by rw [hf, Nat.mul_succ, Nat.add_comm]
      rw [hlen, List.drop_append, List.drop_eq_nil_of_le (by omega), List.nil_append,
        Nat.add_sub_cancel_left]
      exact ih i (Nat.lt_of_succ_lt_succ hi)

/-- A sample round-trips through its bytes. -/
theorem decode_encode (s : Sample F) : decode (encode s) = s := by
  obtain ⟨stamp, pose⟩ := s
  have hstamp : (encode ⟨stamp, pose⟩).take 8 = toLeBytes stamp.toBitVec := by
    rw [encode, ← length_toLeBytes stamp.toBitVec, List.take_left]
  have hpose : ∀ i : Fin 7,
      ((encode ⟨stamp, pose⟩).drop (8 + 8 * i)).take 8 = toLeBytes (pose i) := by
    intro i
    rw [encode, List.drop_append, List.drop_eq_nil_of_le (by rw [length_toLeBytes]; omega),
      List.nil_append, length_toLeBytes, Nat.add_sub_cancel_left,
      take_drop_flatMap (fun i => length_toLeBytes (pose i)) _ _ (by simp)]
    simp
  simp only [decode, hstamp, hpose, fromLeBytes_toLeBytes]
  rfl

theorem length_flatMap_encode (xs : List (Sample F)) :
    (xs.flatMap encode).length = xs.length * ENCODED := by
  induction xs with
  | nil => simp
  | cons x xs ih => rw [List.flatMap_cons, List.length_append, length_encode, ih, List.length_cons,
      Nat.succ_mul, Nat.add_comm]

/-- The samples of a slice of the file. -/
theorem decodeChunks_encode (xs : List (Sample F)) :
    decodeChunks xs.length (xs.flatMap encode) = xs := by
  induction xs with
  | nil => rfl
  | cons x xs ih =>
    rw [List.flatMap_cons, List.length_cons, decodeChunks, ← length_encode x, List.take_left,
      List.drop_left, decode_encode, ih]

theorem length_decodeChunks (n : ℕ) (b : List UInt8) :
    (decodeChunks n b : List (Sample F)).length = n := by
  induction n generalizing b with
  | zero => rfl
  | succ n ih => rw [decodeChunks, List.length_cons, ih]

end Bytes

/-! ## Writing runs -/

section Writing

variable [LeBytes F] {file : List UInt8} {span : ℕ × ℕ} {xs ys : List (Sample F)}

/-- The samples `xs` are in the file at `span`. -/
structure HoldsRun (file : List UInt8) (span : ℕ × ℕ) (xs : List (Sample F)) : Prop where
  count : span.2 = xs.length
  bytes : ∃ before after, file = before ++ (xs.flatMap encode ++ after) ∧ before.length = span.1

theorem HoldsRun.append (h : HoldsRun file span xs) (more : List UInt8) :
    HoldsRun (file ++ more) span xs := by
  obtain ⟨before, after, hfile, hlen⟩ := h.bytes
  refine ⟨h.count, before, after ++ more, ?_, hlen⟩
  rw [hfile]
  simp only [List.append_assoc]

/-- The file holds the runs `xss`, and nothing is staged. -/
structure RunFile.Stores (f : RunFile) (xss : List (List (Sample F))) : Prop where
  flushed : f.staging = []
  runs : List.Forall₂ (HoldsRun f.file) f.runs xss

/-- The file holds the runs `xss`, and `xs` is the open run. -/
structure RunFile.Writes (f : RunFile) (xss : List (List (Sample F))) (xs : List (Sample F)) :
    Prop where
  bytes : ∃ before, f.file ++ f.staging = before ++ xs.flatMap encode ∧
    f.openRun = some (before.length, xs.length) ∧ List.Forall₂ (HoldsRun before) f.runs xss

variable {f : RunFile} {xss : List (List (Sample F))}

theorem RunFile.flush_bytes (f : RunFile) : f.flush.file = f.file ++ f.staging ∧
    f.flush.staging = [] ∧ f.flush.runs = f.runs ∧ f.flush.openRun = f.openRun := by
  unfold RunFile.flush
  split_ifs with h
  · simp [h]
  · simp

theorem RunFile.Stores.beginRun (h : f.Stores xss) : f.beginRun.Writes xss [] := by
  refine ⟨f.file, ?_, ?_, h.runs⟩
  · show f.file ++ f.staging = _
    rw [h.flushed, List.flatMap_nil]
  · show some (f.file.length + f.staging.length, 0) = _
    rw [h.flushed]
    rfl

theorem RunFile.Writes.append (h : f.Writes xss xs) (s : Sample F) :
    (f.append s).Writes xss (xs ++ [s]) := by
  obtain ⟨before, hbytes, hopen, hruns⟩ := h
  obtain ⟨hfile, hstaging, hfruns, hfopen⟩ := f.flush_bytes
  unfold RunFile.append
  refine ⟨before, ?_⟩
  split_ifs
  · -- the staging buffer is full
    refine ⟨?_, ?_, ?_⟩
    · show f.flush.file ++ (f.flush.staging ++ encode s) = _
      rw [hfile, hstaging, List.nil_append, hbytes]
      simp
    · show f.flush.openRun.map _ = _
      rw [hfopen, hopen]
      simp
    · show List.Forall₂ _ f.flush.runs _
      rw [hfruns]
      exact hruns
  · refine ⟨?_, ?_, hruns⟩
    · show f.file ++ (f.staging ++ encode s) = _
      rw [← List.append_assoc, hbytes]
      simp
    · show f.openRun.map _ = _
      rw [hopen]
      simp

theorem RunFile.Writes.foldl (h : f.Writes xss xs) (ys : List (Sample F)) :
    (ys.foldl RunFile.append f).Writes xss (xs ++ ys) := by
  induction ys generalizing f xs with
  | nil => simpa using h
  | cons y ys ih =>
    rw [List.foldl_cons]
    have hnext := ih (h.append y)
    rw [List.append_assoc] at hnext
    exact hnext

theorem RunFile.Writes.endRun (h : f.Writes xss xs) :
    f.endRun.Stores (if xs = [] then xss else xss ++ [xs]) := by
  obtain ⟨before, hbytes, hopen, hruns⟩ := h
  obtain ⟨hfile, hstaging, hfruns, hfopen⟩ := f.flush_bytes
  simp only [RunFile.endRun, hfopen, hopen]
  have hwritten : f.flush.file = before ++ xs.flatMap encode := hfile.trans hbytes
  have hkeep : List.Forall₂ (HoldsRun f.flush.file) f.flush.runs xss := by
    rw [hfruns, hwritten]
    exact hruns.imp fun _ _ hrun => hrun.append _
  refine ⟨hstaging, ?_⟩
  by_cases hxs : xs = []
  · rw [if_pos hxs]
    subst hxs
    exact hkeep
  · rw [if_neg hxs]
    show List.Forall₂ _ (if xs.length > 0 then _ else _) _
    rw [if_pos (List.length_pos_iff.mpr hxs)]
    refine List.rel_append hkeep (.cons ⟨rfl, before, [], ?_, rfl⟩ .nil)
    rw [List.append_nil]
    exact hwritten

/-- A written run joins the runs of the file, unless it is empty. -/
theorem RunFile.Stores.writeRun (h : f.Stores xss) (xs : List (Sample F)) :
    (f.writeRun xs).Stores (if xs = [] then xss else xss ++ [xs]) := by
  have hw := h.beginRun.foldl xs
  rw [List.nil_append] at hw
  exact hw.endRun

theorem RunFile.stores_create (staging : ℕ) :
    (RunFile.create staging).Stores ([] : List (List (Sample F))) := ⟨rfl, .nil⟩

end Writing

/-! ## Reading runs -/

section Reading

variable {file : List UInt8} {r : RunReader F} {xs : List (Sample F)} {x : Sample F}

/-- The window is not spent, or the run is. -/
def RunReader.Seeded (r : RunReader F) : Prop := r.pos < r.buf.length ∨ r.remaining = 0

/-- The samples the reader has still to give. -/
def RunReader.left (r : RunReader F) : ℕ := r.buf.length - r.pos + r.remaining

variable [LeBytes F]

/-- `xs` is the rest of the run. -/
def RunReader.Rest (r : RunReader F) (file : List UInt8) (xs : List (Sample F)) : Prop :=
  ∃ ys, xs = r.buf.drop r.pos ++ ys ∧ HoldsRun file (r.nextOff, r.remaining) ys

/-- A refill loads the next window of the run and skips none of it. -/
theorem RunReader.Rest.refill (h : r.Rest file xs) {window : ℕ} (hw : 0 < window) :
    ∃ r', r.refill file window = .ok r' ∧ r'.Rest file xs ∧ r'.Seeded := by
  unfold RunReader.refill
  by_cases hseeded : r.pos < r.buf.length ∨ r.remaining = 0
  · rw [if_pos hseeded]
    exact ⟨r, rfl, h, hseeded⟩
  · rw [if_neg hseeded]
    obtain ⟨ys, rfl, hrun⟩ := h
    obtain ⟨before, after, hfile, hbefore⟩ := hrun.bytes
    have hcount : r.remaining = ys.length := hrun.count
    have hspent : r.buf.drop r.pos = [] := List.drop_eq_nil_of_le (by omega)
    -- the window splits the rest of the run
    obtain ⟨k, hk⟩ : ∃ k, k = min r.remaining window := ⟨_, rfl⟩
    have hpos : 0 < k := by omega
    have htake : (ys.take k).length = k := by rw [List.length_take]; omega
    have hsplit : ys.flatMap encode = (ys.take k).flatMap encode ++ (ys.drop k).flatMap encode := by
      rw [← List.flatMap_append, List.take_append_drop]
    have hbytes : ((ys.take k).flatMap encode).length = k * ENCODED := by
      rw [length_flatMap_encode, htake]
    have hread : readExact file r.nextOff (k * ENCODED) = .ok ((ys.take k).flatMap encode) := by
      have hoff : before.length = r.nextOff := hbefore
      rw [readExact, hfile, hsplit, if_pos (by simp only [List.length_append]; omega), ← hoff,
        List.drop_left, List.append_assoc, ← hbytes, List.take_left]
    simp only [← hk, hread, Except.map]
    refine ⟨_, rfl, ⟨ys.drop k, ?_, ?_, ?_⟩, ?_⟩
    · show _ = (decodeChunks _ _).drop 0 ++ _
      rw [hspent, hbytes, Nat.mul_div_cancel _ (by decide), List.drop_zero]
      have hdecode := decodeChunks_encode (ys.take k)
      rw [htake] at hdecode
      rw [hdecode, List.nil_append, List.take_append_drop]
    · show r.remaining - k = (ys.drop k).length
      rw [List.length_drop, hcount]
    · refine ⟨before ++ (ys.take k).flatMap encode, after, ?_, ?_⟩
      · rw [hfile, hsplit]
        simp only [List.append_assoc]
      · show _ = r.nextOff + k * ENCODED
        rw [List.length_append, hbytes]
        exact congrArg (· + _) hbefore
    · refine .inl ?_
      show 0 < (decodeChunks _ _ : List (Sample F)).length
      rw [length_decodeChunks, hbytes, Nat.mul_div_cancel _ (by decide)]
      exact hpos

theorem RunReader.Rest.peek (h : r.Rest file xs) (hs : r.Seeded) : r.peek = xs.head? := by
  obtain ⟨ys, rfl, hrun⟩ := h
  unfold RunReader.peek
  rcases hs with hpos | hspent
  · rw [List.drop_eq_getElem_cons hpos, List.getElem?_eq_getElem hpos]
    rfl
  · have hcount : r.remaining = ys.length := hrun.count
    have hys : ys = [] := List.length_eq_zero_iff.mp (by omega)
    rw [hys, List.append_nil, List.head?_drop]

/-- A sample is taken. -/
theorem RunReader.Rest.advance (h : r.Rest file (x :: xs)) (hs : r.Seeded) :
    ({ r with pos := r.pos + 1 } : RunReader F).Rest file xs := by
  obtain ⟨ys, hxs, hrun⟩ := h
  have hpos : r.pos < r.buf.length := by
    rcases hs with hpos | hspent
    · exact hpos
    · have hcount : r.remaining = ys.length := hrun.count
      have hys : ys = [] := List.length_eq_zero_iff.mp (by omega)
      rw [hys, List.append_nil] at hxs
      by_contra hge
      rw [List.drop_eq_nil_of_le (by omega)] at hxs
      cases hxs
  rw [List.drop_eq_getElem_cons hpos, List.cons_append] at hxs
  exact ⟨ys, (List.cons.inj hxs).2, hrun⟩

/-- A refill gives no sample. -/
theorem RunReader.left_refill {r' : RunReader F} {window : ℕ} (h : r.refill file window = .ok r') :
    r'.left = r.left := by
  unfold RunReader.refill at h
  split_ifs at h with hseeded
  · cases h
    rfl
  · cases hread : readExact file r.nextOff (min r.remaining window * ENCODED) with
    | error e => simp only [hread, Except.map] at h; cases h
    | ok slot =>
      simp only [hread, Except.map] at h
      cases h
      have hlen : slot.length = min r.remaining window * ENCODED := by
        unfold readExact at hread
        split_ifs at hread with hle
        cases hread
        rw [List.length_take, List.length_drop]
        omega
      unfold RunReader.left
      rw [length_decodeChunks, hlen, Nat.mul_div_cancel _ (by decide)]
      show _ - 0 + (r.remaining - _) = _
      omega

end Reading

/-! ## The merge -/

namespace Merger

/-- The samples all readers have still to give. -/
def left {n : ℕ} (m : Merger F n) : ℕ := ∑ i, (m.readers i).left

theorem sum_update {n : ℕ} (f : Fin n → RunReader F) (i : Fin n) (r : RunReader F) :
    (∑ j, (Function.update f i r j).left) + (f i).left = (∑ j, (f j).left) + r.left := by
  rw [← Finset.add_sum_erase _ _ (Finset.mem_univ i),
    ← Finset.add_sum_erase Finset.univ (fun j => (f j).left) (Finset.mem_univ i),
    Function.update_self]
  have hrest : ∑ j ∈ Finset.univ.erase i, (Function.update f i r j).left =
      ∑ j ∈ Finset.univ.erase i, (f j).left :=
    Finset.sum_congr rfl fun j hj => by rw [Function.update_of_ne (Finset.ne_of_mem_erase hj)]
  rw [hrest]
  omega

variable [LeBytes F] {n : ℕ} {m m' : Merger F n} {i : Fin n}

theorem left_seed (h : m.seed i = .ok m') : m'.left = m.left := by
  unfold seed at h
  cases hr : (m.readers i).refill m.file m.window with
  | error e => simp only [hr, Except.map] at h; cases h
  | ok r =>
    simp only [hr, Except.map] at h
    cases h
    have hsum := sum_update m.readers i r
    have hleft := RunReader.left_refill hr
    show (∑ j, (Function.update m.readers i r j).left) = ∑ j, (m.readers j).left
    omega

/-- A sample that is given is gone. -/
theorem left_nextSample {s : Sample F} (h : m.nextSample = .ok (some s, m')) :
    m'.left < m.left := by
  unfold nextSample at h
  split at h
  · cases h
  · next e _ =>
    obtain ⟨i, hi⟩ : ∃ i, i = (ofLex e).2 := ⟨_, rfl⟩
    simp only [← hi] at h
    obtain ⟨r, hr⟩ : ∃ r : RunReader F, r = { m.readers i with pos := (m.readers i).pos + 1 } :=
      ⟨_, rfl⟩
    simp only [← hr] at h
    cases hseed : Merger.seed { m with
        heap := m.heap.erase e, readers := Function.update m.readers i r } i with
    | error e => simp only [hseed, Except.map] at h; cases h
    | ok m₁ =>
      simp only [hseed, Except.map, Except.ok.injEq, Prod.mk.injEq] at h
      obtain ⟨hpeek, rfl⟩ := h
      have hpos : (m.readers i).pos < (m.readers i).buf.length := by
        by_contra hge
        rw [RunReader.peek, List.getElem?_eq_none (by omega)] at hpeek
        cases hpeek
      have hsum := sum_update m.readers i r
      have hleft : m₁.left = ∑ j, (Function.update m.readers i r j).left := left_seed hseed
      have hr' : r.left + 1 = (m.readers i).left := by
        rw [hr]
        show (m.readers i).buf.length - ((m.readers i).pos + 1) + (m.readers i).remaining + 1 =
          (m.readers i).buf.length - (m.readers i).pos + (m.readers i).remaining
        omega
      show m₁.left < ∑ j, (m.readers j).left
      omega

/-- `while let Some(s) = m.next_sample()?`. -/
def forEach {σ : Type} (f : σ → Sample F → Except IngestError σ) (m : Merger F n) (st : σ) :
    Except IngestError σ :=
  match _h : m.nextSample with
  | .error e => .error e
  | .ok (none, _) => .ok st
  | .ok (some s, m') =>
    match f st s with
    | .error e => .error e
    | .ok st => forEach f m' st
termination_by m.left
decreasing_by exact left_nextSample _h

/-- The merger's readers have the rests `rs` of their runs; those in `P` have a window,
    and the heap has their heads. -/
structure Seeding (m : Merger F n) (rs : Fin n → List (Sample F)) (P : Fin n → Prop) : Prop where
  window : 0 < m.window
  rest : ∀ i, (m.readers i).Rest m.file (rs i)
  seeded : ∀ i, P i → (m.readers i).Seeded
  heap : ∀ e, e ∈ m.heap ↔ P (ofLex e).2 ∧ ∃ s ∈ (rs (ofLex e).2).head?, s.ns = (ofLex e).1
  nodup : m.heap.Nodup

variable {rs : Fin n → List (Sample F)} {P : Fin n → Prop}

theorem Seeding.seed (h : m.Seeding rs P) (hi : ¬ P i) :
    ∃ m', m.seed i = .ok m' ∧ m'.Seeding rs fun j => P j ∨ j = i := by
  obtain ⟨r, hr, hrest, hseeded⟩ := (h.rest i).refill h.window
  have hpeek := hrest.peek hseeded
  unfold Merger.seed
  simp only [hr, Except.map]
  refine ⟨_, rfl, h.window, fun j => ?_, fun j hj => ?_, fun e => ?_, ?_⟩
  · show RunReader.Rest (Function.update m.readers i r j) m.file (rs j)
    by_cases hji : j = i
    · subst hji
      rw [Function.update_self]
      exact hrest
    · rw [Function.update_of_ne hji]
      exact h.rest j
  · show RunReader.Seeded (Function.update m.readers i r j)
    by_cases hji : j = i
    · subst hji
      rw [Function.update_self]
      exact hseeded
    · rw [Function.update_of_ne hji]
      exact h.seeded j (hj.resolve_right hji)
  · show e ∈ (match r.peek with | some s => toLex (s.ns, i) :: m.heap | none => m.heap) ↔ _
    rw [hpeek]
    by_cases hei : (ofLex e).2 = i
    · -- the entry of the seeded run
      have hold : e ∉ m.heap := fun hmem => hi (hei ▸ ((h.heap e).mp hmem).1)
      cases hhead : (rs i).head? with
      | none => simp [hold, hei, hhead]
      | some s =>
        simp only [List.mem_cons, hold, or_false, hei, or_true, true_and, hhead,
          Option.mem_def, Option.some.injEq, exists_eq_left']
        constructor
        · rintro rfl
          rfl
        · intro hs
          rw [hs, ← hei]
          rfl
    · have hnew : e ∈ (match (rs i).head? with
          | some s => toLex (s.ns, i) :: m.heap | none => m.heap) ↔ e ∈ m.heap := by
        cases (rs i).head? with
        | none => rfl
        | some s =>
          rw [List.mem_cons, or_iff_right]
          rintro rfl
          exact hei rfl
      rw [hnew, h.heap e, or_iff_left hei]
  · show (match r.peek with | some s => toLex (s.ns, i) :: m.heap | none => m.heap).Nodup
    cases r.peek with
    | none => exact h.nodup
    | some s => exact List.nodup_cons.mpr ⟨fun hmem => hi ((h.heap _).mp hmem).1, h.nodup⟩

/-- All windows are seeded. -/
def Merging (m : Merger F n) (rs : Fin n → List (Sample F)) : Prop := m.Seeding rs fun _ => True

/-- The merger yields the first of the least heads. -/
theorem Merging.nextSample (h : m.Merging rs) :
    ((∀ i, rs i = []) ∧ m.nextSample = .ok (none, m)) ∨
    ∃ i x t m', Leads Sample.ns rs (List.finRange n) i x t ∧ m.nextSample = .ok (some x, m') ∧
      m'.Merging (Function.update rs i t) := by
  unfold Merger.nextSample
  cases hmin : m.heap.min? with
  | none =>
    rw [List.min?_eq_none_iff] at hmin
    refine .inl ⟨fun i => ?_, rfl⟩
    cases hrs : rs i with
    | nil => rfl
    | cons s t =>
      have hmem : toLex (s.ns, i) ∈ m.heap := (h.heap _).mpr ⟨trivial, s, by
        show s ∈ (rs i).head?
        rw [hrs]
        rfl, rfl⟩
      rw [hmin] at hmem
      cases hmem
  | some e =>
    obtain ⟨hmem, hleast⟩ := List.min?_eq_some_iff.mp hmin
    obtain ⟨i, hi⟩ : ∃ i, i = (ofLex e).2 := ⟨_, rfl⟩
    obtain ⟨-, x, hx, hns⟩ := (h.heap e).mp hmem
    rw [← hi] at hx
    obtain ⟨t, ht⟩ : ∃ t, rs i = x :: t := by
      cases hrs : rs i with
      | nil => rw [hrs] at hx; cases hx
      | cons y t =>
        rw [hrs] at hx
        cases hx
        exact ⟨t, rfl⟩
    have hlead : Leads Sample.ns rs (List.finRange n) i x t := by
      have hle : ∀ j, ∀ y ∈ (rs j).head?, x.ns < y.ns ∨ x.ns = y.ns ∧ i ≤ j := by
        intro j y hy
        have hentry := hleast _ ((h.heap (toLex (y.ns, j))).mpr ⟨trivial, y, hy, rfl⟩)
        rw [Prod.Lex.le_iff] at hentry
        rw [hns, hi]
        exact hentry
      refine ⟨ht, fun j _ y hy => ?_, fun j _ hji y hy => ?_⟩
      · rcases hle j y hy with hlt | ⟨heq, -⟩
        · exact hlt.le
        · exact heq.le
      · rcases hle j y hy with hlt | ⟨-, hij⟩
        · exact hlt
        · exact absurd hji (not_lt.mpr hij)
    have hseeded := h.seeded i trivial
    have hpeek : (m.readers i).peek = some x := by
      rw [(h.rest i).peek hseeded, ht]
      rfl
    have hadvance := RunReader.Rest.advance (ht ▸ h.rest i) hseeded
    simp only [← hi]
    obtain ⟨r, hr⟩ : ∃ r : RunReader F, r = { m.readers i with pos := (m.readers i).pos + 1 } :=
      ⟨_, rfl⟩
    simp only [← hr] at hadvance ⊢
    obtain ⟨m₁, hm₁⟩ : ∃ m₁ : Merger F n, m₁ = { m with
        heap := m.heap.erase e, readers := Function.update m.readers i r } := ⟨_, rfl⟩
    have hpopped : m₁.Seeding (Function.update rs i t) (· ≠ i) := by
      rw [hm₁]
      refine ⟨h.window, fun j => ?_, fun j hj => ?_, fun e' => ?_, h.nodup.erase e⟩
      · show RunReader.Rest (Function.update m.readers i r j) m.file (Function.update rs i t j)
        by_cases hji : j = i
        · subst hji
          rw [Function.update_self, Function.update_self]
          exact hadvance
        · rw [Function.update_of_ne hji, Function.update_of_ne hji]
          exact h.rest j
      · show RunReader.Seeded (Function.update m.readers i r j)
        rw [Function.update_of_ne hj]
        exact h.seeded j trivial
      · show e' ∈ m.heap.erase e ↔ _
        rw [h.nodup.mem_erase_iff, h.heap e']
        by_cases hei : (ofLex e').2 = i
        · -- the only entry of the run was the one that is popped
          simp only [hei, ne_eq, not_true_eq_false, false_and, true_and, iff_false, not_and]
          rintro hne ⟨s, hs, hns'⟩
          rw [ht] at hs
          cases hs
          exact hne (ofLex.injective (Prod.ext (hns'.symm.trans hns) (hei.trans hi)))
        · have hne : e' ≠ e := fun heq => hei (by rw [heq, hi])
          rw [Function.update_of_ne hei]
          simp [hne, hei]
    obtain ⟨m', hseed, hmerging⟩ := hpopped.seed (i := i) (by simp)
    rw [← hm₁, hseed, hpeek]
    refine .inr ⟨i, x, t, m', hlead, rfl, ?_⟩
    exact ⟨hmerging.window, hmerging.rest, fun j _ => hmerging.seeded j (ne_or_eq j i),
      fun e' => (hmerging.heap e').trans (and_congr_left' (by simp [ne_or_eq])), hmerging.nodup⟩

/-- The whole stream of a merger is the stable sort of its runs. -/
theorem Merging.forEach (h : m.Merging rs)
    (hsorted : ∀ i, (rs i).Pairwise fun a b => a.ns ≤ b.ns) :
    ∃ zs, StableSortOf Sample.ns ((List.finRange n).flatMap rs) zs ∧
      ∀ {σ : Type} (f : σ → Sample F → Except IngestError σ) (st : σ),
        Merger.forEach f m st = zs.foldlM f st := by
  induction hk : m.left using Nat.strong_induction_on generalizing m rs with
  | _ k ih =>
    rcases h.nextSample with ⟨hempty, hnext⟩ | ⟨i, x, t, m', hlead, hnext, hmerging⟩
    · refine ⟨[], stableSortOf_of_empty fun i _ => hempty i, fun f st => ?_⟩
      rw [Merger.forEach]
      split
      · next heq => rw [hnext] at heq; cases heq
      · rfl
      · next heq => rw [hnext] at heq; cases heq
    · have hsorted' : ∀ j, (Function.update rs i t j).Pairwise fun a b => a.ns ≤ b.ns := by
        intro j
        by_cases hji : j = i
        · subst hji
          have hrun := hsorted j
          rw [hlead.head] at hrun
          rw [Function.update_self]
          exact hrun.of_cons
        · rw [Function.update_of_ne hji]
          exact hsorted j
      obtain ⟨zs, hstable, hfold⟩ := ih _ (hk ▸ left_nextSample hnext) hmerging hsorted' rfl
      refine ⟨x :: zs, hstable.merge (List.pairwise_lt_finRange n) (List.mem_finRange i)
        (fun j _ => hsorted j) hlead, fun f st => ?_⟩
      rw [Merger.forEach]
      split
      · next heq => rw [hnext] at heq; cases heq
      · next heq => rw [hnext] at heq; cases heq
      · next s m₂ heq =>
        rw [hnext] at heq
        cases heq
        rw [List.foldlM_cons]
        cases f st x with
        | error e => rfl
        | ok st' => exact hfold f st'

/-- What the loop body preserves, the loop preserves. -/
theorem forEach_inv {σ : Type} {f : σ → Sample F → Except IngestError σ} {I : σ → Prop}
    (hstep : ∀ st s st', I st → f st s = .ok st' → I st') {st st' : σ} (hst : I st)
    (h : Merger.forEach f m st = .ok st') : I st' := by
  induction hk : m.left using Nat.strong_induction_on generalizing m st with
  | _ k ih =>
    rw [Merger.forEach] at h
    split at h
    · cases h
    · cases h
      exact hst
    · next s m' hnext =>
      cases hf : f st s with
      | error e => simp only [hf] at h; cases h
      | ok st₁ =>
        simp only [hf] at h
        exact ih _ (hk ▸ left_nextSample hnext) (hstep _ _ _ hst hf) h rfl

/-- Some more runs are seeded. -/
theorem Seeding.foldlM (h : m.Seeding rs P) (l : List (Fin n)) (hl : ∀ i ∈ l, ¬ P i)
    (hnodup : l.Nodup) :
    ∃ m', l.foldlM (fun m i => m.seed i) m = .ok m' ∧ m'.Seeding rs fun j => P j ∨ j ∈ l := by
  induction l generalizing m P with
  | nil => exact ⟨m, rfl, by simpa using h⟩
  | cons i l ih =>
    obtain ⟨m₁, hm₁, hseeding⟩ := h.seed (hl i List.mem_cons_self)
    obtain ⟨hil, hnodup⟩ := List.nodup_cons.mp hnodup
    obtain ⟨m', hm', hall⟩ := ih hseeding
      (fun j hj => not_or.mpr ⟨hl j (List.mem_cons_of_mem _ hj), fun hji => hil (hji ▸ hj)⟩) hnodup
    refine ⟨m', ?_, ?_⟩
    · rw [List.foldlM_cons, hm₁]
      exact hm'
    · simpa only [List.mem_cons, or_assoc] using hall

end Merger

/-- `merge_runs` streams the stable sort of the runs at the spans. -/
theorem RunFile.mergeRuns_spec [LeBytes F] {f : RunFile} {spans : List (ℕ × ℕ)}
    {xss : List (List (Sample F))} {window : ℕ} (hw : 0 < window)
    (hstored : List.Forall₂ (HoldsRun f.flush.file) spans xss)
    (hsorted : ∀ xs ∈ xss, xs.Pairwise fun a b => a.ns ≤ b.ns) :
    ∃ (m : Merger F spans.length) (zs : List (Sample F)), f.mergeRuns spans window = .ok m ∧
      StableSortOf Sample.ns xss.flatten zs ∧
      ∀ {σ : Type} (g : σ → Sample F → Except IngestError σ) (st : σ),
        m.forEach g st = zs.foldlM g st := by
  have hlen : spans.length = xss.length := hstored.length_eq
  obtain ⟨rs, hrs⟩ : ∃ rs : Fin spans.length → List (Sample F),
      rs = fun i => xss.get (i.cast hlen) :=
    ⟨_, rfl⟩
  have hflatten : (List.finRange spans.length).flatMap rs = xss.flatten := by
    rw [List.flatMap_def]
    congr 1
    refine List.ext_getElem (by simpa using hlen) fun i hi hi' => ?_
    rw [List.getElem_map]
    simp [hrs]
  have hinit : Merger.Seeding ({
      file := f.flush.file
      readers := fun i =>
        { nextOff := (spans.get i).1, remaining := (spans.get i).2, buf := [], pos := 0 }
      window := window
      heap := [] } : Merger F spans.length) rs fun _ => False := by
    refine ⟨hw, fun i => ⟨rs i, rfl, ?_⟩, fun i hi => hi.elim, fun e => by simp, List.nodup_nil⟩
    rw [hrs]
    exact hstored.get i.isLt (hlen ▸ i.isLt)
  obtain ⟨m, hm, hseeding⟩ := hinit.foldlM (List.finRange spans.length) (fun _ _ hi => hi)
    (List.nodup_finRange _)
  simp only [false_or, List.mem_finRange] at hseeding
  have hmerging : m.Merging rs := hseeding
  obtain ⟨zs, hstable, hfold⟩ := hmerging.forEach fun i => by
    rw [hrs]
    exact hsorted _ (List.get_mem _ _)
  exact ⟨m, zs, hm, hflatten ▸ hstable, hfold⟩

end TfTree
