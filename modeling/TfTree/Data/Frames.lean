import Mathlib
import TfTree.Data.Bytes

/-!
# Length-prefixed records

Records that stand one behind the other in a byte string: a tag, the length of the body
in eight little-endian bytes, the body.

Results:
* `nextFrame_encode`, `encode_of_nextFrame`: the first record is read back.
* `splitFrames_framed`, `Framed.unique`: every byte string is records, then bytes that are
  no whole record, in one way.
* `framesOf_append`: what more bytes add to the records.
-/

namespace TfTree.Data

/-- A record. -/
structure Frame where
  tag : UInt8
  body : List UInt8
  deriving DecidableEq, Repr

/-- The bytes in front of a body. -/
def frameHeader : ℕ := 1 + 8

/-- The bytes of a record. -/
def Frame.encode (f : Frame) : List UInt8 := f.tag :: leBytes 8 f.body.length ++ f.body

/-- The bytes of records, one behind the other. -/
def encodeFrames (fs : List Frame) : List UInt8 := fs.flatMap Frame.encode

/-- The length that the record at the start of the bytes declares. -/
def frameLen (bytes : List UInt8) : ℕ := ofLe ((bytes.drop 1).take 8)

/-- The first record, if it is whole, and what follows it. -/
def nextFrame (bytes : List UInt8) : Option (Frame × List UInt8) :=
  if bytes.length < frameHeader + frameLen bytes then none
  else some (⟨bytes.headD 0, (bytes.drop frameHeader).take (frameLen bytes)⟩,
    bytes.drop (frameHeader + frameLen bytes))

/-- The whole records at the start of the bytes, at most `n` of them, and the rest. -/
def splitFrames : ℕ → List UInt8 → List Frame × List UInt8
  | 0, bytes => ([], bytes)
  | n + 1, bytes =>
    match nextFrame bytes with
    | none => ([], bytes)
    | some (f, rest) => (f :: (splitFrames n rest).1, (splitFrames n rest).2)

/-- All whole records at the start of the bytes. -/
def framesOf (bytes : List UInt8) : List Frame := (splitFrames bytes.length bytes).1

/-- The bytes behind the last whole record. -/
def tailOf (bytes : List UInt8) : List UInt8 := (splitFrames bytes.length bytes).2

/-- The length of the body fits the header. -/
def Frame.Fits (f : Frame) : Prop := f.body.length < 2 ^ 64

/-- The bytes are the records `fs`, then `tail`, which starts with no whole record. -/
structure Framed (bytes : List UInt8) (fs : List Frame) (tail : List UInt8) : Prop where
  bytes_eq : bytes = encodeFrames fs ++ tail
  fits : ∀ f ∈ fs, f.Fits
  rest : nextFrame tail = none

section Frames

variable {f : Frame} {fs : List Frame} {bytes rest tail : List UInt8} {n : ℕ}

@[simp] theorem Frame.length_encode (f : Frame) :
    f.encode.length = frameHeader + f.body.length := by
  simp [Frame.encode, frameHeader]
  omega

@[simp] theorem encodeFrames_nil : encodeFrames [] = [] := rfl

@[simp] theorem encodeFrames_cons (f : Frame) (fs : List Frame) :
    encodeFrames (f :: fs) = f.encode ++ encodeFrames fs := rfl

/-- The header of a record, whatever part of its body follows. -/
theorem frameLen_header (tag : UInt8) (hn : n < 2 ^ 64) (rest : List UInt8) :
    frameLen (tag :: leBytes 8 n ++ rest) = n := by
  have htake : (leBytes 8 n ++ rest).take 8 = leBytes 8 n := by
    rw [List.take_append_of_le_length (by simp), List.take_of_length_le (by simp)]
  change ofLe ((leBytes 8 n ++ rest).take 8) = n
  rw [htake]
  exact ofLe_leBytes (by simpa using hn)

theorem drop_header (tag : UInt8) (n : ℕ) (rest : List UInt8) :
    (tag :: leBytes 8 n ++ rest).drop frameHeader = rest := by
  change (leBytes 8 n ++ rest).drop 8 = rest
  rw [List.drop_append_of_le_length (by simp), List.drop_of_length_le (by simp), List.nil_append]

theorem encode_append (f : Frame) (rest : List UInt8) :
    f.encode ++ rest = f.tag :: leBytes 8 f.body.length ++ (f.body ++ rest) := by
  simp [Frame.encode]

theorem frameLen_encode (hf : f.Fits) (rest : List UInt8) :
    frameLen (f.encode ++ rest) = f.body.length := by
  rw [encode_append]
  exact frameLen_header _ hf _

theorem drop_encode (f : Frame) (rest : List UInt8) :
    (f.encode ++ rest).drop frameHeader = f.body ++ rest := by
  rw [encode_append, drop_header]

theorem length_take_encode (f : Frame) (rest : List UInt8) :
    ((f.encode ++ rest).take frameHeader).length = frameHeader := by
  rw [List.length_take, List.length_append, f.length_encode]
  omega

/-- A whole record is read back. -/
theorem nextFrame_encode (hf : f.Fits) (rest : List UInt8) :
    nextFrame (f.encode ++ rest) = some (f, rest) := by
  unfold nextFrame
  rw [frameLen_encode hf, if_neg (by rw [List.length_append, f.length_encode]; omega),
    ← List.drop_drop, drop_encode, List.take_left, List.drop_left, encode_append]
  rfl

theorem leBytes_ofLe (b : List UInt8) : leBytes b.length (ofLe b) = b := by
  induction b with
  | nil => rfl
  | cons x b ih =>
    have hx : x.toNat < 256 := x.toNat_lt
    have hcons : ofLe (x :: b) = x.toNat + 256 * ofLe b := rfl
    have hhead : UInt8.ofNat (ofLe (x :: b)) = x := by
      apply UInt8.toNat_inj.mp
      rw [hcons, UInt8.toNat_ofNat']
      omega
    have htail : ofLe (x :: b) / 256 = ofLe b := by
      rw [hcons]
      omega
    rw [List.length_cons, leBytes, hhead, htail, ih]

theorem ofLe_lt (b : List UInt8) : ofLe b < 256 ^ b.length := by
  have hlt := Nat.ofDigits_lt_base_pow_length (b := 256) (l := b.map UInt8.toNat) (by omega)
    (by
      intro x hx
      obtain ⟨y, -, rfl⟩ := List.mem_map.mp hx
      exact y.toNat_lt)
  rwa [List.length_map] at hlt

theorem frameLen_lt (bytes : List UInt8) : frameLen bytes < 2 ^ 64 := by
  have hlen : ((bytes.drop 1).take 8).length ≤ 8 := List.length_take_le ..
  calc frameLen bytes < 256 ^ ((bytes.drop 1).take 8).length := ofLe_lt _
    _ ≤ 256 ^ 8 := Nat.pow_le_pow_right (by decide) hlen
    _ = 2 ^ 64 := by norm_num

/-- The header of at least nine bytes is the tag and the declared length. -/
theorem header_eq (h : frameHeader ≤ bytes.length) :
    bytes = bytes.headD 0 :: leBytes 8 (frameLen bytes) ++ bytes.drop frameHeader := by
  unfold frameHeader at h
  obtain ⟨tag, bytes, rfl⟩ : ∃ tag rest, bytes = tag :: rest := by
    cases bytes with
    | nil => simp at h
    | cons tag rest => exact ⟨tag, rest, rfl⟩
  have hlen : (bytes.take 8).length = 8 := by
    rw [List.length_take]
    rw [List.length_cons] at h
    omega
  have hinv := leBytes_ofLe (bytes.take 8)
  rw [hlen] at hinv
  change tag :: bytes = tag :: (leBytes 8 (ofLe (bytes.take 8)) ++ bytes.drop 8)
  rw [hinv, List.take_append_drop]

/-- The first record, when it is whole, is a prefix of the bytes. -/
theorem encode_of_nextFrame (h : nextFrame bytes = some (f, rest)) :
    bytes = f.encode ++ rest ∧ f.Fits := by
  unfold nextFrame at h
  split_ifs at h with hlen
  cases h
  have hbody : ((bytes.drop frameHeader).take (frameLen bytes)).length = frameLen bytes := by
    rw [List.length_take, List.length_drop]
    omega
  refine ⟨?_, ?_⟩
  · rw [Frame.encode, hbody, ← List.drop_drop, List.append_assoc, List.take_append_drop]
    exact header_eq (by omega)
  · change ((bytes.drop frameHeader).take (frameLen bytes)).length < 2 ^ 64
    rw [hbody]
    exact frameLen_lt bytes

theorem length_of_nextFrame (h : nextFrame bytes = some (f, rest)) :
    rest.length < bytes.length := by
  rw [(encode_of_nextFrame h).1, List.length_append, f.length_encode, frameHeader]
  omega

theorem splitFrames_framed (hn : bytes.length ≤ n) :
    Framed bytes (splitFrames n bytes).1 (splitFrames n bytes).2 := by
  induction n generalizing bytes with
  | zero =>
    have hnil : bytes = [] := List.length_eq_zero_iff.mp (Nat.le_zero.mp hn)
    subst hnil
    exact ⟨rfl, (fun _ hf => nomatch hf), rfl⟩
  | succ n ih =>
    rw [splitFrames]
    rcases hnext : nextFrame bytes with - | ⟨f, rest⟩
    · exact ⟨rfl, (fun _ hf => nomatch hf), hnext⟩
    · obtain ⟨hbytes, hfits⟩ := encode_of_nextFrame hnext
      have hrest := @ih rest (by have := length_of_nextFrame hnext; omega)
      refine ⟨?_, ?_, hrest.rest⟩
      · rw [encodeFrames_cons, List.append_assoc, ← hrest.bytes_eq]
        exact hbytes
      · intro g hg
        rcases List.mem_cons.mp hg with rfl | hg
        · exact hfits
        · exact hrest.fits g hg

theorem framed_split (bytes : List UInt8) : Framed bytes (framesOf bytes) (tailOf bytes) :=
  splitFrames_framed le_rfl

theorem Framed.unique {fs' : List Frame} {tail' : List UInt8} (h : Framed bytes fs tail)
    (h' : Framed bytes fs' tail') : fs = fs' ∧ tail = tail' := by
  induction fs generalizing bytes fs' with
  | nil =>
    have hbytes : bytes = tail := h.bytes_eq
    cases fs' with
    | nil => exact ⟨rfl, hbytes.symm.trans h'.bytes_eq⟩
    | cons g gs =>
      have hnext := nextFrame_encode (h'.fits g List.mem_cons_self) (encodeFrames gs ++ tail')
      rw [← List.append_assoc, ← encodeFrames_cons, ← h'.bytes_eq, hbytes, h.rest] at hnext
      cases hnext
  | cons f fs ih =>
    have hf := nextFrame_encode (h.fits f List.mem_cons_self) (encodeFrames fs ++ tail)
    rw [← List.append_assoc, ← encodeFrames_cons, ← h.bytes_eq] at hf
    cases fs' with
    | nil =>
      rw [h'.bytes_eq, encodeFrames_nil, List.nil_append, h'.rest] at hf
      cases hf
    | cons g gs =>
      have hg := nextFrame_encode (h'.fits g List.mem_cons_self) (encodeFrames gs ++ tail')
      rw [← List.append_assoc, ← encodeFrames_cons, ← h'.bytes_eq, hf] at hg
      obtain ⟨hfg, hrest⟩ := Prod.mk.inj (Option.some.inj hg)
      have hfs : Framed (encodeFrames fs ++ tail) fs tail :=
        ⟨rfl, fun x hx => h.fits x (List.mem_cons_of_mem _ hx), h.rest⟩
      have hgs : Framed (encodeFrames fs ++ tail) gs tail' :=
        ⟨hrest, fun x hx => h'.fits x (List.mem_cons_of_mem _ hx), h'.rest⟩
      obtain ⟨htails, htail⟩ := ih hfs hgs
      exact ⟨congrArg₂ List.cons hfg htails, htail⟩

/-- The records of bytes with more behind them. -/
theorem framesOf_append (bytes more : List UInt8) :
    framesOf (bytes ++ more) = framesOf bytes ++ framesOf (tailOf bytes ++ more) ∧
      tailOf (bytes ++ more) = tailOf (tailOf bytes ++ more) := by
  have hhead := framed_split bytes
  have htail := framed_split (tailOf bytes ++ more)
  refine (framed_split (bytes ++ more)).unique ⟨?_, fun f hf => ?_, htail.rest⟩
  · rw [encodeFrames, List.flatMap_append, List.append_assoc]
    exact (congrArg (· ++ more) hhead.bytes_eq).trans
      ((List.append_assoc ..).trans (congrArg (encodeFrames (framesOf bytes) ++ ·) htail.bytes_eq))
  · rcases List.mem_append.mp hf with hf | hf
    · exact hhead.fits f hf
    · exact htail.fits f hf

end Frames

end TfTree.Data
