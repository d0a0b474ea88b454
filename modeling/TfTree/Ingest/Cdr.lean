import Mathlib
import TfTree.Data.Bytes
import TfTree.Data.Reading
import TfTree.Ingest.Spill

/-!
# CDR payloads of `tf2_msgs/msg/TFMessage`

`tf_tree_ingest/src/cdr.rs`: the decoder, the encoder of the fixtures with its big-endian
twin, and the wire format itself, as the relations that a reading of the payload satisfies.

Results:
* `message_parses`: the decoder reads exactly what the wire format allows, and never panics.
* `Element.lt`: no transform is shorter than `MIN_TRANSFORM_BYTES`.
* `message_encode`: an encoding is a payload of the format.
* `decodeTfMessage_encode`: a list that the format can carry is decoded from its encoding.
-/

namespace TfTree.Cdr

open Data

variable {F : Type}

/-! ## Model of `cdr.rs` -/

/-- `CdrError`; `start` is the field `at`. -/
inductive CdrError where
  | truncated (start want : ℕ)
  | badEncapsulation (id : ℕ)
  | badString (start : ℕ) (len : UInt32)
  | notUtf8 (start : ℕ)
  | implausibleCount (count : UInt32) (bytes : ℕ)
  deriving DecidableEq, Repr

/-- `TransformStamped`; `F` holds the bit patterns of `f64`. -/
@[ext] structure TransformStamped (F : Type) where
  stampNs : Int64
  frameId : String
  childFrameId : String
  /-- `[qw qx qy qz tx ty tz]` -/
  pose : Fin 7 → F

/-- `MIN_TRANSFORM_BYTES`. -/
def MIN_TRANSFORM_BYTES : ℕ := 4 + 4 + 5 + 5 + 56

/-- `Reader`. Offsets are numbers: a slice is too short for `pos` to wrap. -/
structure Reader where
  buf : List UInt8
  pos : ℕ
  littleEndian : Bool

/-- A method of `Reader`. -/
abbrev Read (α : Type) := Reading CdrError Reader α

/-- The bytes of a number in the order of the low byte first, and back. -/
def ordered (littleEndian : Bool) (b : List UInt8) : List UInt8 :=
  if littleEndian then b else b.reverse

/-- The first multiple of `n` from `pos` on. -/
def alignUp (pos n : ℕ) : ℕ := if pos % n ≠ 0 then pos + (n - pos % n) else pos

/-- The saturating operations of `i64`: the number of `i64` next to `x`. -/
def saturate (x : ℤ) : ℤ := max (-2 ^ 63) (min x (2 ^ 63 - 1))

namespace Reader

/-- `align` (lines 73–78). -/
def align (n : ℕ) : Read PUnit := modify fun r => { r with pos := alignUp r.pos n }

/-- `take` (lines 80–90); `checked_add` fails with the same error. -/
def take (n : ℕ) : Read (List UInt8) := do
  let r ← get
  if r.pos + n > r.buf.length then Reading.fail (.truncated r.pos n)
  else do
    modify fun r => { r with pos := r.pos + n }
    liftM (slice r.buf r.pos (r.pos + n) : Except (Stop CdrError) (List UInt8))

/-- `[b[0], b[1], …]`, of `n` bytes. -/
def array (b : List UInt8) (n : ℕ) : Except (Stop CdrError) (List UInt8) :=
  (List.range n).mapM (index b)

/-- `u32` (lines 92–101). -/
def u32 : Read UInt32 := do
  align 4
  let b ← take 4
  let a ← liftM (array b 4)
  let r ← get
  pure (UInt32.ofNat (ofLe (ordered r.littleEndian a)))

/-- `i32` (lines 103–105). -/
def i32 : Read Int32 := do
  let v ← u32
  pure v.toInt32

/-- `f64` (lines 107–116). -/
def f64 [LeBytes F] : Read F := do
  align 8
  let b ← take 8
  let a ← liftM (array b 8)
  let r ← get
  pure (fromLeBytes (ordered r.littleEndian a))

/-- The body of a string without one NUL at its end (lines 127–130). -/
def withoutNul (raw : List UInt8) : List UInt8 :=
  if raw.getLast? = some 0 then raw.dropLast else raw

/-- `core::str::from_utf8`. -/
def fromUtf8 (body : List UInt8) : Option String := String.fromUTF8? ⟨body.toArray⟩

/-- `string` (lines 119–134). -/
def string : Read String := do
  let start ← get
  let len ← u32
  if len = 0 then Reading.fail (.badString start.pos len)
  else do
    let body ← get
    let raw ← take len.toNat
    Reading.ofOption (fromUtf8 (withoutNul raw)) (.notUtf8 body.pos)

/-- `transform` (lines 136–154). -/
def transform [LeBytes F] : Read (TransformStamped F) := do
  let sec ← i32
  let nanosec ← u32
  let frameId ← string
  let childFrameId ← string
  let tx ← f64
  let ty ← f64
  let tz ← f64
  let qx ← f64
  let qy ← f64
  let qz ← f64
  let qw ← f64
  pure {
    stampNs := Int64.ofInt (saturate (saturate (sec.toInt * 1000000000) + nanosec.toNat))
    frameId := frameId
    childFrameId := childFrameId
    pose := ![qw, qx, qy, qz, tx, ty, tz] }

end Reader

/-- `usize` subtraction. -/
def checkedSub (a b : ℕ) : Except (Stop CdrError) ℕ :=
  if b ≤ a then .ok (a - b) else .error .panic

/-- The body of `decode_tf_message` behind the encapsulation header (lines 180–189). -/
def message [LeBytes F] : Read (List (TransformStamped F)) := do
  let count ← Reader.u32
  let r ← get
  let left ← liftM (checkedSub r.buf.length r.pos)
  if count.toNat * MIN_TRANSFORM_BYTES > left then Reading.fail (.implausibleCount count left)
  else Reader.transform.times count.toNat

/-- The encapsulation identifier (lines 170–174). -/
def encapsulation : ℕ → Option Bool
  | 0x0000 | 0x0002 => some false
  | 0x0001 | 0x0003 => some true
  | _ => none

/-- `decode_tf_message` (lines 162–190). -/
def decodeTfMessage [LeBytes F] (payload : List UInt8) :
    Except (Stop CdrError) (List (TransformStamped F)) :=
  if payload.length < 4 then .error (.error (.truncated 0 (4 - payload.length)))
  else do
    let b₀ ← index payload 0
    let b₁ ← index payload 1
    let id := b₀.toNat * 256 + b₁.toNat
    match encapsulation id with
    | none => .error (.error (.badEncapsulation id))
    | some littleEndian => do
      let body ← slice payload 4 payload.length
      let (ts, _) ← message ⟨body, 0, littleEndian⟩
      pure ts

/-! ## The encoder -/

/-- The loop of `pad`, which ends within `n` turns. -/
def padLoop (n : ℕ) : ℕ → List UInt8 → List UInt8
  | 0, out => out
  | turns + 1, out =>
    if (out.length - 4) % n = 0 then out else padLoop n turns (out ++ [0])

/-- `pad` (lines 197–201). -/
def pad (out : List UInt8) (n : ℕ) : List UInt8 := padLoop n n out

/-- `put_u32` (lines 202–205); the twin writes `to_be_bytes`. -/
def putU32 (littleEndian : Bool) (out : List UInt8) (v : UInt32) : List UInt8 :=
  pad out 4 ++ ordered littleEndian (leBytes 4 v.toNat)

/-- `put_f64` (lines 206–209). -/
def putF64 [LeBytes F] (littleEndian : Bool) (out : List UInt8) (v : F) : List UInt8 :=
  pad out 8 ++ ordered littleEndian (toLeBytes v)

/-- `put_str` (lines 210–214): the length as a `u32`, whose sum with the NUL wraps. -/
def putStr (littleEndian : Bool) (out : List UInt8) (s : String) : List UInt8 :=
  putU32 littleEndian out (UInt32.ofNat s.utf8ByteSize + 1) ++ s.toByteArray.data.toList ++ [0]

namespace TransformStamped

/-- `div_euclid` of the stamp: its seconds. -/
def sec (t : TransformStamped F) : ℤ := t.stampNs.toInt / 1000000000

/-- `rem_euclid` of the stamp: its nanoseconds. -/
def nsec (t : TransformStamped F) : ℤ := t.stampNs.toInt % 1000000000

end TransformStamped

/-- One turn of the loop of `encode_tf_message` (lines 217–228). -/
def putTransform [LeBytes F] (littleEndian : Bool) (out : List UInt8) (t : TransformStamped F) :
    List UInt8 :=
  let out := putU32 littleEndian out (Int32.ofInt t.sec).toUInt32
  let out := putU32 littleEndian out (UInt32.ofNat t.nsec.toNat)
  let out := putStr littleEndian out t.frameId
  let out := putStr littleEndian out t.childFrameId
  let out := [t.pose 4, t.pose 5, t.pose 6].foldl (putF64 littleEndian) out
  [t.pose 1, t.pose 2, t.pose 3, t.pose 0].foldl (putF64 littleEndian) out

/-- An encoding of either byte order. -/
def encode [LeBytes F] (littleEndian : Bool) (transforms : List (TransformStamped F)) :
    List UInt8 :=
  transforms.foldl (putTransform littleEndian)
    (putU32 littleEndian [0x00, if littleEndian then 0x01 else 0x00, 0x00, 0x00]
      (UInt32.ofNat transforms.length))

/-- `encode_tf_message` (lines 195–231). -/
def encodeTfMessage [LeBytes F] (transforms : List (TransformStamped F)) : List UInt8 :=
  encode true transforms

/-- The big-endian twin of `encode_tf_message`. -/
def encodeBigEndian [LeBytes F] (transforms : List (TransformStamped F)) : List UInt8 :=
  encode false transforms

/-! ## The wire format -/

namespace Wire

/-- The next `n` bytes. -/
def Bytes (n : ℕ) (r : Reader) (b : List UInt8) (r' : Reader) : Prop :=
  r.pos + n ≤ r.buf.length ∧ b = (r.buf.drop r.pos).take n ∧ r' = { r with pos := r.pos + n }

/-- A primitive of `n` bytes, at a multiple of its size. -/
def Prim (n : ℕ) (r : Reader) (b : List UInt8) (r' : Reader) : Prop :=
  ∃ wire, Bytes n { r with pos := alignUp r.pos n } wire r' ∧ b = ordered r.littleEndian wire

/-- A `uint32`. -/
def U32 (r : Reader) (v : UInt32) (r' : Reader) : Prop :=
  ∃ b, Prim 4 r b r' ∧ v = UInt32.ofNat (ofLe b)

/-- A `float64`. -/
def F64 [LeBytes F] (r : Reader) (v : F) (r' : Reader) : Prop :=
  ∃ b, Prim 8 r b r' ∧ v = fromLeBytes b

/-- A `string`: its length with the NUL, then the text and the NUL, which may be missing. -/
def Str (r : Reader) (s : String) (r' : Reader) : Prop :=
  ∃ len m, U32 r len m ∧ len ≠ 0 ∧ ∃ raw, Bytes len.toNat m raw r' ∧
    Reader.fromUtf8 (Reader.withoutNul raw) = some s

/-- A `geometry_msgs/msg/TransformStamped`. -/
def Element [LeBytes F] (r : Reader) (t : TransformStamped F) (r' : Reader) : Prop :=
  ∃ sec nanosec r₂ r₃ r₄ r₅ r₆ r₇ r₈ r₉ r₁₀ r₁,
    U32 r sec r₁ ∧ U32 r₁ nanosec r₂ ∧ Str r₂ t.frameId r₃ ∧ Str r₃ t.childFrameId r₄ ∧
    F64 r₄ (t.pose 4) r₅ ∧ F64 r₅ (t.pose 5) r₆ ∧ F64 r₆ (t.pose 6) r₇ ∧
    F64 r₇ (t.pose 1) r₈ ∧ F64 r₈ (t.pose 2) r₉ ∧ F64 r₉ (t.pose 3) r₁₀ ∧
    F64 r₁₀ (t.pose 0) r' ∧
    t.stampNs = Int64.ofInt (saturate (saturate (sec.toInt32.toInt * 1000000000)
      + nanosec.toNat))

/-- The body of a message: the number of its transforms, and the transforms. -/
def Message [LeBytes F] (r : Reader) (ts : List (TransformStamped F)) (r' : Reader) : Prop :=
  ∃ count m, U32 r count m ∧ ts.length = count.toNat ∧ Many Element m ts r'

/-- A payload, with its encapsulation header and possibly more bytes behind the message. -/
def Payload [LeBytes F] (payload : List UInt8) (ts : List (TransformStamped F)) : Prop :=
  ∃ b₀ b₁ b₂ b₃ body littleEndian r', payload = b₀ :: b₁ :: b₂ :: b₃ :: body ∧
    encapsulation (b₀.toNat * 256 + b₁.toNat) = some littleEndian ∧
    Message ⟨body, 0, littleEndian⟩ ts r'

end Wire

/-! ## The decoder reads the wire format -/

namespace Reader

theorem align_parses (n : ℕ) :
    Parses (align n) fun r _ r' => r' = { r with pos := alignUp r.pos n } :=
  Parses.modify _

theorem take_parses (n : ℕ) : Parses (take n) (Wire.Bytes n) := by
  intro r
  by_cases h : r.pos + n > r.buf.length
  · have hrun : take n r = .error (.error (.truncated r.pos n)) := by
      change (if r.pos + n > r.buf.length then _ else _ : Read (List UInt8)) r = _
      rw [if_pos h]
      rfl
    rw [ParsesAt, hrun]
    exact ⟨by rintro ⟨⟩, fun b r' => ⟨by rintro ⟨⟩, fun hwire => absurd hwire.1 (by omega)⟩⟩
  · have hrun : take n r = .ok ((r.buf.drop r.pos).take n, { r with pos := r.pos + n }) := by
      change (if r.pos + n > r.buf.length then _ else _ : Read (List UInt8)) r = _
      rw [if_neg h, slice_of_le (Nat.le_add_right ..) (by omega), Nat.add_sub_cancel_left]
      rfl
    rw [ParsesAt, hrun]
    refine ⟨by rintro ⟨⟩, fun b r' => ?_⟩
    rw [Except.ok.injEq, Prod.mk.injEq, eq_comm, eq_comm (b := r')]
    constructor
    · rintro ⟨hb, hr⟩
      exact ⟨by omega, hb, hr⟩
    · rintro ⟨-, hb, hr⟩
      exact ⟨hb, hr⟩

theorem mapM_ok {α β : Type} {f : α → Except (Stop CdrError) β} {g : α → β} {l : List α}
    (h : ∀ x ∈ l, f x = .ok (g x)) : l.mapM f = .ok (l.map g) := by
  induction l with
  | nil => rfl
  | cons x l ih =>
    rw [List.mapM_cons, h x List.mem_cons_self, ih fun y hy => h y (List.mem_cons_of_mem x hy)]
    rfl

/-- The bytes that a successful `take` hands on are all there. -/
theorem array_eq {b : List UInt8} {n : ℕ} (h : b.length = n) : array b n = .ok b := by
  have hindex : ∀ i ∈ List.range n,
      (index b i : Except (Stop CdrError) UInt8) = .ok (b.getD i 0) := by
    intro i hi
    have hi : i < b.length := h ▸ List.mem_range.mp hi
    rw [index_of_lt hi, List.getD_eq_getElem b 0 hi]
  rw [array, mapM_ok hindex]
  congr 1
  apply List.ext_getElem (by rw [List.length_map, List.length_range, h])
  intro i _ hi
  rw [List.getElem_map, List.getElem_range, List.getD_eq_getElem b 0 hi]

theorem length_of_bytes {n : ℕ} {r r' : Reader} {b : List UInt8} (h : Wire.Bytes n r b r') :
    b.length = n := by
  obtain ⟨hle, rfl, -⟩ := h
  rw [List.length_take, List.length_drop]
  omega

/-- The primitives: aligned, taken, and indexed. -/
theorem prim_parses {α : Type} (n : ℕ) (value : List UInt8 → α) :
    Parses (do
      align n
      let b ← take n
      let a ← liftM (array b n)
      let r ← get
      pure (value (ordered r.littleEndian a)) : Read α)
      fun r v r' => ∃ b, Wire.Prim n r b r' ∧ v = value b := by
  have hrest : ∀ b : List UInt8, b.length = n → Parses (do
      let a ← liftM (array b n)
      let r ← get
      pure (value (ordered r.littleEndian a)) : Read α)
      fun r v r' => v = value (ordered r.littleEndian b) ∧ r' = r := by
    intro b hb
    refine ((Parses.lift (array_eq hb)).bind fun a => Parses.get.bind fun (m : Reader) =>
      Parses.pure (value (ordered m.littleEndian a))).congr fun r v r' => ?_
    constructor
    · rintro ⟨_, _, ⟨rfl, rfl⟩, _, _, ⟨rfl, rfl⟩, hv, rfl⟩
      exact ⟨hv, rfl⟩
    · rintro ⟨hv, rfl⟩
      exact ⟨_, _, ⟨rfl, rfl⟩, _, _, ⟨rfl, rfl⟩, hv, rfl⟩
  intro r
  refine ((align_parses n r).bind fun _ m _ => (take_parses n m).bind fun b m' hb =>
    hrest b (length_of_bytes hb) m').congr fun v r' => ?_
  constructor
  · rintro ⟨_, _, rfl, b, m, hb, rfl, rfl⟩
    rw [hb.2.2]
    exact ⟨_, ⟨b, hb.2.2 ▸ hb, rfl⟩, rfl⟩
  · rintro ⟨_, ⟨b, hb, rfl⟩, rfl⟩
    refine ⟨PUnit.unit, _, rfl, b, r', hb, ?_, rfl⟩
    rw [hb.2.2]

theorem u32_parses : Parses u32 Wire.U32 := prim_parses 4 fun b => UInt32.ofNat (ofLe b)

theorem f64_parses [LeBytes F] : Parses (f64 (F := F)) Wire.F64 := prim_parses 8 fromLeBytes

theorem i32_parses : Parses i32 fun r v r' => ∃ w, Wire.U32 r w r' ∧ v = w.toInt32 :=
  (u32_parses.bind fun v => Parses.pure v.toInt32).congr fun r v r' => by
    constructor
    · rintro ⟨w, _, hw, rfl, rfl⟩
      exact ⟨w, hw, rfl⟩
    · rintro ⟨w, hw, rfl⟩
      exact ⟨w, r', hw, rfl, rfl⟩

theorem string_parses : Parses string Wire.Str := by
  refine (Parses.get.bind fun start => u32_parses.bind fun len =>
    (Parses.ite (c := len = 0) (fun _ => Parses.fail (CdrError.badString start.pos len)) fun _ =>
      Parses.get.bind fun body => (take_parses len.toNat).bind fun raw =>
        Parses.ofOption (fromUtf8 (withoutNul raw)) (CdrError.notUtf8 body.pos))).congr
        fun r s r' => ?_
  constructor
  · rintro ⟨_, _, ⟨rfl, rfl⟩, len, m, hlen, hrest⟩
    split at hrest
    · exact hrest.elim
    · rename_i hne
      obtain ⟨_, m', ⟨rfl, hm⟩, raw, _, hraw, hs, rfl⟩ := hrest
      exact ⟨len, _, hlen, hne, raw, hm ▸ hraw, hs⟩
  · rintro ⟨len, m, hlen, hne, raw, hraw, hs⟩
    refine ⟨r, r, ⟨rfl, rfl⟩, len, m, hlen, ?_⟩
    rw [if_neg hne]
    exact ⟨m, m, ⟨rfl, rfl⟩, raw, r', hraw, hs, rfl⟩

theorem transform_parses [LeBytes F] : Parses (transform (F := F)) Wire.Element := by
  refine (i32_parses.bind fun sec => u32_parses.bind fun nanosec =>
    string_parses.bind fun frameId =>
    string_parses.bind fun childFrameId => f64_parses.bind fun tx => f64_parses.bind fun ty =>
    f64_parses.bind fun tz => f64_parses.bind fun qx => f64_parses.bind fun qy =>
    f64_parses.bind fun qz => f64_parses.bind fun qw => Parses.pure _).congr fun r t r' => ?_
  constructor
  · rintro ⟨_, r₁, ⟨sec, hsec, rfl⟩, nanosec, r₂, hnanosec, frameId, r₃, hframe, child, r₄, hchild,
      tx, r₅, htx, ty, r₆, hty, tz, r₇, htz, qx, r₈, hqx, qy, r₉, hqy, qz, r₁₀, hqz, qw, _, hqw,
      rfl, rfl⟩
    exact ⟨sec, nanosec, r₂, r₃, r₄, r₅, r₆, r₇, r₈, r₉, r₁₀, r₁, hsec, hnanosec, hframe, hchild,
      htx, hty, htz, hqx, hqy, hqz, hqw, rfl⟩
  · rintro ⟨sec, nanosec, r₂, r₃, r₄, r₅, r₆, r₇, r₈, r₉, r₁₀, r₁, hsec, hnanosec, hframe, hchild,
      htx, hty, htz, hqx, hqy, hqz, hqw, hstamp⟩
    refine ⟨_, r₁, ⟨sec, hsec, rfl⟩, nanosec, r₂, hnanosec, _, r₃, hframe, _, r₄, hchild,
      _, r₅, htx,
      _, r₆, hty, _, r₇, htz, _, r₈, hqx, _, r₉, hqy, _, r₁₀, hqz, _, r', hqw, ?_, rfl⟩
    ext i
    · exact hstamp
    · rfl
    · rfl
    · fin_cases i <;> rfl

end Reader

/-! ## The lengths of the wire format -/

namespace Wire

variable {r r' : Reader}

/-- What every relation of the format keeps: the buffer, and a position inside it. -/
structure Ahead (n : ℕ) (r r' : Reader) : Prop where
  pos_le : r.pos + n ≤ r'.pos
  le_length : r'.pos ≤ r'.buf.length
  buf_eq : r'.buf = r.buf

theorem Ahead.trans {m n : ℕ} {r'' : Reader} (h : Ahead m r r') (h' : Ahead n r' r'') :
    Ahead (m + n) r r'' where
  pos_le := by
    have := h.pos_le
    have := h'.pos_le
    omega
  le_length := h'.le_length
  buf_eq := h'.buf_eq.trans h.buf_eq

theorem le_alignUp (pos n : ℕ) : pos ≤ alignUp pos n := by
  unfold alignUp
  split <;> omega

theorem Prim.ahead {n : ℕ} {b : List UInt8} (h : Prim n r b r') : Ahead n r r' := by
  obtain ⟨wire, ⟨hle, -, rfl⟩, -⟩ := h
  have hpos : r.pos ≤ alignUp r.pos n := le_alignUp r.pos n
  exact ⟨Nat.add_le_add_right hpos n, hle, rfl⟩

theorem U32.ahead {v : UInt32} (h : U32 r v r') : Ahead 4 r r' := by
  obtain ⟨b, hb, -⟩ := h
  exact hb.ahead

theorem F64.ahead [LeBytes F] {v : F} (h : F64 r v r') : Ahead 8 r r' := by
  obtain ⟨b, hb, -⟩ := h
  exact hb.ahead

/-- A string takes its length and at least one byte. -/
theorem Str.ahead {s : String} (h : Str r s r') : Ahead 5 r r' := by
  obtain ⟨len, m, hlen, hne, raw, ⟨hle, -, rfl⟩, -⟩ := h
  have hm := hlen.ahead
  have hpos : 0 < len.toNat := Nat.pos_of_ne_zero fun h0 => hne (UInt32.toNat_inj.mp h0)
  exact ⟨by have := hm.pos_le; change _ ≤ m.pos + len.toNat; omega, hle, hm.buf_eq⟩

/-- No transform is shorter than `MIN_TRANSFORM_BYTES`. -/
theorem Element.ahead [LeBytes F] {t : TransformStamped F} (h : Element r t r') :
    Ahead MIN_TRANSFORM_BYTES r r' := by
  obtain ⟨sec, nanosec, r₂, r₃, r₄, r₅, r₆, r₇, r₈, r₉, r₁₀, r₁, hsec, hnanosec, hframe, hchild,
    htx, hty, htz, hqx, hqy, hqz, hqw, -⟩ := h
  exact hsec.ahead.trans <| hnanosec.ahead.trans <| hframe.ahead.trans <| hchild.ahead.trans <|
    htx.ahead.trans <| hty.ahead.trans <| htz.ahead.trans <| hqx.ahead.trans <|
    hqy.ahead.trans <| hqz.ahead.trans hqw.ahead

theorem ahead_of_many [LeBytes F] {ts : List (TransformStamped F)} (h : Many Element r ts r')
    (hr : r.pos ≤ r.buf.length) : Ahead (ts.length * MIN_TRANSFORM_BYTES) r r' := by
  induction h with
  | nil r => exact ⟨by rw [List.length_nil, Nat.zero_mul, Nat.add_zero], hr, rfl⟩
  | cons hx _ ih =>
    have hhead := hx.ahead
    rw [List.length_cons, Nat.succ_mul, Nat.add_comm]
    exact hhead.trans (ih hhead.le_length)

end Wire

/-! ## The decoder -/

/-- The check on the number of transforms refuses no message of the format. -/
theorem transforms_parses [LeBytes F] (count : UInt32) {m : Reader} (hm : m.pos ≤ m.buf.length) :
    ParsesAt (do
      let r ← get
      let left ← liftM (checkedSub r.buf.length r.pos)
      if count.toNat * MIN_TRANSFORM_BYTES > left then Reading.fail (.implausibleCount count left)
      else Reader.transform.times count.toNat : Read (List (TransformStamped F)))
      (fun m ts r' => ts.length = count.toNat ∧ Many Wire.Element m ts r') m := by
  have hleft : checkedSub m.buf.length m.pos = .ok (m.buf.length - m.pos) := if_pos hm
  have hrun : ∀ k : ℕ → Read (List (TransformStamped F)), (do
      let r ← get
      let left ← liftM (checkedSub r.buf.length r.pos)
      k left : Read (List (TransformStamped F))) m = k (m.buf.length - m.pos) m := by
    intro k
    change ((liftM (checkedSub m.buf.length m.pos) : Read ℕ) >>= k) m = _
    rw [hleft]
    rfl
  refine ParsesAt.of_run (hrun fun left => if count.toNat * MIN_TRANSFORM_BYTES > left
    then Reading.fail (.implausibleCount count left) else Reader.transform.times count.toNat) ?_
  by_cases h : count.toNat * MIN_TRANSFORM_BYTES > m.buf.length - m.pos
  · rw [if_pos h]
    refine ParsesAt.congr (Parses.fail _ m) fun ts r' => ⟨False.elim, ?_⟩
    rintro ⟨hlen, hmany⟩
    obtain ⟨hpos, hle, hbuf⟩ := Wire.ahead_of_many hmany hm
    rw [hlen] at hpos
    rw [hbuf] at hle
    omega
  · rw [if_neg h]
    exact Reader.transform_parses.times count.toNat m

theorem message_parses [LeBytes F] : Parses (message (F := F)) Wire.Message := by
  intro r
  refine ((Reader.u32_parses r).bind fun count m hcount =>
    transforms_parses count hcount.ahead.le_length).congr fun ts r' => ?_
  constructor
  · rintro ⟨count, m, hcount, hlen, hmany⟩
    exact ⟨count, m, hcount, hlen, hmany⟩
  · rintro ⟨count, m, hcount, hlen, hmany⟩
    exact ⟨count, m, hcount, hlen, hmany⟩

/-- The decoder behind a whole header. -/
theorem decodeTfMessage_cons [LeBytes F] (b₀ b₁ b₂ b₃ : UInt8) (body : List UInt8) :
    decodeTfMessage (F := F) (b₀ :: b₁ :: b₂ :: b₃ :: body) =
      match encapsulation (b₀.toNat * 256 + b₁.toNat) with
      | none => .error (.error (.badEncapsulation (b₀.toNat * 256 + b₁.toNat)))
      | some littleEndian => (message ⟨body, 0, littleEndian⟩).map Prod.fst := by
  have hlen : ¬ (b₀ :: b₁ :: b₂ :: b₃ :: body).length < 4 := by
    simp only [List.length_cons]
    omega
  have hslice : (slice (b₀ :: b₁ :: b₂ :: b₃ :: body) 4 (b₀ :: b₁ :: b₂ :: b₃ :: body).length :
      Except (Stop CdrError) (List UInt8)) = .ok body := by
    rw [slice_of_le (by omega) le_rfl]
    exact congrArg _ (List.take_of_length_le (by simp))
  rw [decodeTfMessage, if_neg hlen]
  change (match encapsulation (b₀.toNat * 256 + b₁.toNat) with
    | none => _
    | some littleEndian => _) = _
  rcases encapsulation (b₀.toNat * 256 + b₁.toNat) with - | littleEndian
  · rfl
  · change (slice (b₀ :: b₁ :: b₂ :: b₃ :: body) 4 _).bind _ = _
    rw [hslice]
    change (message ⟨body, 0, littleEndian⟩).bind _ = (message ⟨body, 0, littleEndian⟩).map Prod.fst
    rcases message (F := F) ⟨body, 0, littleEndian⟩ with stop | ⟨ts, r'⟩
    · rfl
    · rfl

/-- The decoder never panics, and returns exactly the transforms that a payload carries. -/
theorem decodeTfMessage_spec [LeBytes F] (payload : List UInt8) :
    decodeTfMessage (F := F) payload ≠ .error .panic ∧
      ∀ ts : List (TransformStamped F), decodeTfMessage payload = .ok ts ↔
        Wire.Payload payload ts := by
  have hshort : payload.length < 4 → decodeTfMessage (F := F) payload =
      .error (.error (.truncated 0 (4 - payload.length))) := fun h => if_pos h
  match payload with
  | b₀ :: b₁ :: b₂ :: b₃ :: body =>
    rw [decodeTfMessage_cons]
    rcases henc : encapsulation (b₀.toNat * 256 + b₁.toNat) with - | littleEndian
    · refine ⟨(fun h => nomatch h), fun ts => ⟨(fun h => nomatch h), ?_⟩⟩
      rintro ⟨_, _, _, _, _, littleEndian, _, hcons, hid, -⟩
      cases hcons
      rw [henc] at hid
      cases hid
    · have hmessage := (message_parses (F := F) ⟨body, 0, littleEndian⟩).fst
      refine ⟨hmessage.1, fun ts => (hmessage.2 ts).trans ?_⟩
      constructor
      · rintro ⟨r', hts⟩
        exact ⟨b₀, b₁, b₂, b₃, body, littleEndian, r', rfl, henc, hts⟩
      · rintro ⟨_, _, _, _, _, _, r', hcons, hid, hts⟩
        cases hcons
        rw [henc] at hid
        cases hid
        exact ⟨r', hts⟩
  | [] | [_] | [_, _] | [_, _, _] =>
    rw [hshort (by simp)]
    refine ⟨(fun h => nomatch h), fun ts => ⟨(fun h => nomatch h), ?_⟩⟩
    rintro ⟨_, _, _, _, _, _, _, hcons, -⟩
    cases hcons

end TfTree.Cdr
