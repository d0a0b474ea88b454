import Mathlib
import TfTree.Ingest.Cdr

/-!
# Round trip of `tf2_msgs/msg/TFMessage` payloads

* `transform_encode`: a written transform is an element of the wire format.
* `payload_encode`: an encoding, of either byte order, is a payload of the wire format.
* `decodeTfMessage_encode`: a list that the format can carry is decoded from its encodings,
  and the decoder neither panics on other bytes nor refuses a payload of the format.
-/

namespace TfTree.Cdr

open Data

variable {F : Type} {littleEndian : Bool} {whole out : List UInt8}

/-! ## What the encoder appends -/

theorem alignUp_succ {pos n : ℕ} (hn : 0 < n) (h : pos % n ≠ 0) :
    alignUp (pos + 1) n = alignUp pos n := by
  have hlt : pos % n < n := Nat.mod_lt pos hn
  have hdiv : n * (pos / n) + pos % n = pos := Nat.div_add_mod pos n
  unfold alignUp
  rw [if_pos h]
  rcases Nat.lt_or_ge (pos % n + 1) n with hlt' | hge
  · have hmod : (pos + 1) % n = pos % n + 1 := by
      rw [← Nat.mod_add_mod, Nat.mod_eq_of_lt hlt']
    rw [if_pos (by omega), hmod]
    omega
  · have hmod : (pos + 1) % n = 0 := by
      rw [← Nat.mod_add_mod, show pos % n + 1 = n by omega, Nat.mod_self]
    rw [if_neg (not_not.mpr hmod)]
    omega

theorem alignUp_le {pos n : ℕ} (hn : 0 < n) : alignUp pos n ≤ pos + n := by
  unfold alignUp
  split <;> omega

theorem padLoop_eq {n turns : ℕ} (hn : 0 < n) (hout : 4 ≤ out.length)
    (hturns : alignUp (out.length - 4) n ≤ out.length - 4 + turns) :
    padLoop n turns out =
      out ++ List.replicate (alignUp (out.length - 4) n - (out.length - 4)) 0 := by
  induction turns generalizing out with
  | zero =>
    rw [show alignUp (out.length - 4) n - (out.length - 4) = 0 by omega, List.replicate_zero,
      List.append_nil]
    rfl
  | succ turns ih =>
    rw [padLoop]
    by_cases h : (out.length - 4) % n = 0
    · rw [if_pos h, alignUp, if_neg (not_not.mpr h), Nat.sub_self, List.replicate_zero,
        List.append_nil]
    · have hlen : (out ++ [0]).length - 4 = out.length - 4 + 1 := by
        rw [List.length_append, List.length_singleton]
        omega
      have hup : alignUp (out.length - 4) n = out.length - 4 + (n - (out.length - 4) % n) :=
        if_pos h
      have hlt : (out.length - 4) % n < n := Nat.mod_lt _ hn
      have hstep := @ih (out ++ [0]) (by rw [List.length_append]; omega)
        (by rw [hlen, alignUp_succ hn h]; omega)
      rw [if_neg h, hstep, hlen, alignUp_succ hn h, List.append_assoc, List.singleton_append,
        ← List.replicate_succ]
      congr 2
      omega

theorem pad_eq {n : ℕ} (hn : 0 < n) (hout : 4 ≤ out.length) :
    pad out n = out ++ List.replicate (alignUp (out.length - 4) n - (out.length - 4)) 0 :=
  padLoop_eq hn hout (alignUp_le hn)

theorem length_pad {n : ℕ} (hn : 0 < n) (hout : 4 ≤ out.length) :
    (pad out n).length - 4 = alignUp (out.length - 4) n := by
  have hup := Wire.le_alignUp (out.length - 4) n
  rw [pad_eq hn hout, List.length_append, List.length_replicate]
  omega

theorem prefix_pad {n : ℕ} (hn : 0 < n) (hout : 4 ≤ out.length) : out <+: pad out n := by
  rw [pad_eq hn hout]
  exact List.prefix_append ..

/-! ## What is read back -/

/-- The reader of a whole payload that stands behind the part `out` of it. -/
def cursor (littleEndian : Bool) (whole out : List UInt8) : Reader where
  buf := whole.drop 4
  pos := out.length - 4
  littleEndian := littleEndian

@[simp] theorem ordered_ordered (b : List UInt8) :
    ordered littleEndian (ordered littleEndian b) = b := by
  unfold ordered
  split
  · rfl
  · exact List.reverse_reverse b

@[simp] theorem length_ordered (b : List UInt8) : (ordered littleEndian b).length = b.length := by
  unfold ordered
  split
  · rfl
  · exact List.length_reverse

theorem bytes_cursor {b : List UInt8} (hout : 4 ≤ out.length) (hpre : out ++ b <+: whole) :
    Wire.Bytes b.length (cursor littleEndian whole out) b
      (cursor littleEndian whole (out ++ b)) := by
  obtain ⟨rest, rfl⟩ := hpre
  refine ⟨?_, ?_, ?_⟩
  · simp only [cursor, List.length_drop, List.length_append]
    omega
  · have hdrop : 4 + (out.length - 4) = out.length := by omega
    simp only [cursor]
    rw [List.drop_drop, hdrop, List.append_assoc, List.drop_left, List.take_left]
  · simp only [cursor, List.length_append]
    congr 1
    omega

theorem prim_cursor {n : ℕ} {b : List UInt8} (hn : 0 < n) (hout : 4 ≤ out.length)
    (hb : b.length = n) (hpre : pad out n ++ ordered littleEndian b <+: whole) :
    Wire.Prim n (cursor littleEndian whole out) b
      (cursor littleEndian whole (pad out n ++ ordered littleEndian b)) := by
  have hpad : 4 ≤ (pad out n).length := hout.trans (prefix_pad hn hout).length_le
  have hbytes : Wire.Bytes _ (cursor littleEndian whole _) _ _ := bytes_cursor hpad hpre
  rw [length_ordered, hb] at hbytes
  refine ⟨ordered littleEndian b, ?_, (ordered_ordered b).symm⟩
  have hcursor : cursor littleEndian whole (pad out n) =
      { cursor littleEndian whole out with
        pos := alignUp (cursor littleEndian whole out).pos n } := by
    simp only [cursor]
    rw [length_pad hn hout]
  exact hcursor ▸ hbytes

/-- What `put` appends is read back as `G` says, in every payload that goes on with it. -/
def Writes (littleEndian : Bool) (put : List UInt8 → List UInt8)
    (G : Reader → Reader → Prop) : Prop :=
  ∀ out : List UInt8, 4 ≤ out.length → out <+: put out ∧ ∀ whole, put out <+: whole →
    G (cursor littleEndian whole out) (cursor littleEndian whole (put out))

theorem Writes.comp {put put' : List UInt8 → List UInt8} {G H : Reader → Reader → Prop}
    (h : Writes littleEndian put G) (h' : Writes littleEndian put' H) :
    Writes littleEndian (fun out => put' (put out)) fun r r'' => ∃ r', G r r' ∧ H r' r'' := by
  intro out hout
  obtain ⟨hpre, hread⟩ := h out hout
  obtain ⟨hpre', hread'⟩ := h' (put out) (hout.trans hpre.length_le)
  exact ⟨hpre.trans hpre', fun whole hwhole =>
    ⟨cursor littleEndian whole (put out), hread whole (hpre'.trans hwhole), hread' whole hwhole⟩⟩

theorem Writes.foldl {α : Type} {put : List UInt8 → α → List UInt8}
    {G : Reader → α → Reader → Prop} {xs : List α}
    (h : ∀ x ∈ xs, Writes littleEndian (put · x) fun r r' => G r x r') :
    Writes littleEndian (fun out => xs.foldl put out) fun r r' => Many G r xs r' := by
  induction xs with
  | nil => exact fun out _ => ⟨List.prefix_rfl, fun whole _ => .nil _⟩
  | cons x xs ih =>
    have hhead := h x List.mem_cons_self
    have htail := ih fun y hy => h y (List.mem_cons_of_mem x hy)
    intro out hout
    obtain ⟨hpre, hread⟩ := (hhead.comp htail) out hout
    refine ⟨hpre, fun whole hwhole => ?_⟩
    obtain ⟨r', hx, hxs⟩ := hread whole hwhole
    exact .cons hx hxs

theorem putU32_writes (v : UInt32) :
    Writes littleEndian (putU32 littleEndian · v) fun r r' => Wire.U32 r v r' := by
  intro out hout
  refine ⟨(prefix_pad (by decide) hout).trans (List.prefix_append ..), fun whole hpre => ?_⟩
  refine ⟨leBytes 4 v.toNat, prim_cursor (by decide) hout (length_leBytes ..) hpre, ?_⟩
  have hv : v.toNat < 256 ^ 4 := v.toNat_lt
  rw [ofLe_leBytes hv, UInt32.ofNat_toNat]

theorem putF64_writes [LeBytes F] (v : F) :
    Writes littleEndian (putF64 littleEndian · v) fun r r' => Wire.F64 r v r' := by
  intro out hout
  refine ⟨(prefix_pad (by decide) hout).trans (List.prefix_append ..), fun whole hpre => ?_⟩
  exact ⟨toLeBytes v, prim_cursor (by decide) hout (length_toLeBytes v) hpre,
    (fromLeBytes_toLeBytes v).symm⟩

/-- A frame name that the format can carry: its length and the NUL fit a `uint32`. -/
def Short (s : String) : Prop := s.utf8ByteSize + 1 < 2 ^ 32

theorem fromUtf8_name (s : String) :
    Reader.fromUtf8 (Reader.withoutNul (s.toByteArray.data.toList ++ [0])) = some s := by
  have hbody : Reader.withoutNul (s.toByteArray.data.toList ++ [0]) =
      s.toByteArray.data.toList := by
    rw [Reader.withoutNul, if_pos List.getLast?_concat, List.dropLast_concat]
  rw [hbody]
  exact dif_pos s.isValidUTF8

theorem putStr_writes {s : String} (hs : Short s) :
    Writes littleEndian (putStr littleEndian · s) fun r r' => Wire.Str r s r' := by
  have hsize : (s.toByteArray.data.toList ++ [0]).length = s.utf8ByteSize + 1 := by
    rw [List.length_append, List.length_singleton]
    rfl
  have hlen : (UInt32.ofNat s.utf8ByteSize + 1).toNat = s.utf8ByteSize + 1 := by
    unfold Short at hs
    rw [UInt32.toNat_add, UInt32.toNat_ofNat']
    change (_ + 1) % _ = _
    omega
  intro out hout
  have hput : putStr littleEndian out s =
      putU32 littleEndian out (UInt32.ofNat s.utf8ByteSize + 1) ++
        (s.toByteArray.data.toList ++ [0]) := List.append_assoc ..
  have hwrites : Writes littleEndian _ _ := putU32_writes (UInt32.ofNat s.utf8ByteSize + 1)
  obtain ⟨hu32, hread⟩ := hwrites out hout
  beta_reduce
  rw [hput]
  refine ⟨hu32.trans (List.prefix_append ..), fun whole hpre => ?_⟩
  have hbytes : Wire.Bytes _ (cursor littleEndian whole _) _ _ :=
    bytes_cursor (hout.trans hu32.length_le) hpre
  rw [hsize] at hbytes
  refine ⟨_, _, hread whole ((List.prefix_append ..).trans hpre), ?_, _, hlen ▸ hbytes,
    fromUtf8_name s⟩
  intro h0
  rw [h0] at hlen
  exact absurd hlen (by simp)

/-! ## Transforms -/

namespace TransformStamped

/-- The seconds of the stamp fit in 32 signed bits. -/
def FitsSec (t : TransformStamped F) : Prop := -2 ^ 31 ≤ t.sec ∧ t.sec < 2 ^ 31

/-- The frame names are not too long for the format. -/
def ShortNames (t : TransformStamped F) : Prop := Short t.frameId ∧ Short t.childFrameId

theorem nsec_range (t : TransformStamped F) : 0 ≤ t.nsec ∧ t.nsec < 1000000000 :=
  ⟨Int.emod_nonneg _ (by decide), Int.emod_lt_of_pos _ (by decide)⟩

/-- The stamp is put together again from its parts on the wire. -/
theorem stamp_eq {t : TransformStamped F} (h : t.FitsSec) :
    t.stampNs = Int64.ofInt (saturate
      (saturate ((Int32.ofInt t.sec).toUInt32.toInt32.toInt * 1000000000) +
        (UInt32.ofNat t.nsec.toNat).toNat)) := by
  obtain ⟨hlow, hhigh⟩ := h
  obtain ⟨hnonneg, hlt⟩ := t.nsec_range
  have hsec : (Int32.ofInt t.sec).toUInt32.toInt32.toInt = t.sec := by
    rw [Int32.toInt32_toUInt32]
    exact Int32.toInt_ofInt_of_le hlow hhigh
  have hnsec : ((UInt32.ofNat t.nsec.toNat).toNat : ℤ) = t.nsec := by
    rw [UInt32.toNat_ofNat', Nat.mod_eq_of_lt (by omega)]
    exact Int.toNat_of_nonneg hnonneg
  have hsum : t.sec * 1000000000 + t.nsec = t.stampNs.toInt := by
    have := Int.mul_ediv_add_emod t.stampNs.toInt 1000000000
    rw [sec, nsec]
    omega
  have hsaturate : ∀ x : ℤ, -2 ^ 63 ≤ x → x < 2 ^ 63 → saturate x = x := by
    intro x hx hx'
    unfold saturate
    omega
  rw [hsec, hnsec, hsaturate (t.sec * 1000000000) (by omega) (by omega), hsaturate _ (by omega)
    (by omega), hsum, Int64.ofInt_toInt]

end TransformStamped

theorem putTransform_writes [LeBytes F] {t : TransformStamped F} (hsec : t.FitsSec)
    (hnames : t.ShortNames) :
    Writes littleEndian (putTransform littleEndian · t) fun r r' => Wire.Element r t r' := by
  have hstamp : Writes littleEndian _ _ := putU32_writes (Int32.ofInt t.sec).toUInt32
  have hwrites := hstamp.comp <|
    (putU32_writes (UInt32.ofNat t.nsec.toNat)).comp <|
    (putStr_writes hnames.1).comp <| (putStr_writes hnames.2).comp <|
    (putF64_writes (t.pose 4)).comp <| (putF64_writes (t.pose 5)).comp <|
    (putF64_writes (t.pose 6)).comp <| (putF64_writes (t.pose 1)).comp <|
    (putF64_writes (t.pose 2)).comp <| (putF64_writes (t.pose 3)).comp <|
    putF64_writes (t.pose 0)
  intro out hout
  obtain ⟨hpre, hread⟩ := hwrites out hout
  refine ⟨hpre, fun whole hwhole => ?_⟩
  obtain ⟨r₁, hs, r₂, hn, r₃, hframe, r₄, hchild, r₅, htx, r₆, hty, r₇, htz, r₈, hqx, r₉, hqy, r₁₀,
    hqz, hqw⟩ := hread whole hwhole
  exact ⟨_, _, r₂, r₃, r₄, r₅, r₆, r₇, r₈, r₉, r₁₀, r₁, hs, hn, hframe, hchild, htx, hty, htz,
    hqx, hqy, hqz, hqw, t.stamp_eq hsec⟩

/-! ## Payloads -/

/-- A list that the format can carry: the number of transforms fits a `uint32`, and so does
the length of every name with its NUL. -/
def Fits (ts : List (TransformStamped F)) : Prop :=
  ts.length < 2 ^ 32 ∧ ∀ t ∈ ts, t.ShortNames

theorem payload_encode [LeBytes F] {ts : List (TransformStamped F)}
    (hsec : ∀ t ∈ ts, t.FitsSec) (hfits : Fits ts) :
    Wire.Payload (encode littleEndian ts) ts := by
  have hlength : Writes littleEndian _ _ := putU32_writes (UInt32.ofNat ts.length)
  have hwrites := hlength.comp <| Writes.foldl fun t ht =>
    putTransform_writes (hsec t ht) (hfits.2 t ht)
  obtain ⟨⟨body, hbody⟩, hread⟩ :=
    hwrites [0x00, if littleEndian then 0x01 else 0x00, 0x00, 0x00] le_rfl
  obtain ⟨m, hcount, hmany⟩ := hread (encode littleEndian ts) List.prefix_rfl
  have hencode : [0x00, if littleEndian then 0x01 else 0x00, 0x00, 0x00] ++ body =
      encode littleEndian ts := hbody
  have hcursor : cursor littleEndian (encode littleEndian ts)
      [0x00, if littleEndian then 0x01 else 0x00, 0x00, 0x00] = ⟨body, 0, littleEndian⟩ := by
    rw [← hencode]
    rfl
  have hlen : ts.length = (UInt32.ofNat ts.length).toNat := by
    rw [UInt32.toNat_ofNat', Nat.mod_eq_of_lt hfits.1]
  rw [hcursor] at hcount
  refine ⟨0x00, if littleEndian then 0x01 else 0x00, 0x00, 0x00, body, littleEndian, _,
    hencode.symm, ?_, _, m, hcount, hlen, hmany⟩
  cases littleEndian with
  | false => decide
  | true => decide

/-- The wire format carries every list whose counts and lengths fit, in both byte orders; the
decoder reads it back, never panics, and refuses no payload of the format. -/
theorem decodeTfMessage_encode [LeBytes F] :
    (∀ ts : List (TransformStamped F), (∀ t ∈ ts, t.FitsSec) → Fits ts →
      decodeTfMessage (encodeTfMessage ts) = .ok ts ∧
        decodeTfMessage (encodeBigEndian ts) = .ok ts) ∧
    ∀ payload, decodeTfMessage (F := F) payload ≠ .error .panic ∧
      ∀ ts : List (TransformStamped F), Wire.Payload payload ts →
        decodeTfMessage payload = .ok ts := by
  refine ⟨fun ts hsec hfits => ⟨?_, ?_⟩, fun payload => ⟨?_, fun ts hts => ?_⟩⟩
  · exact ((decodeTfMessage_spec _).2 ts).mpr (payload_encode hsec hfits)
  · exact ((decodeTfMessage_spec _).2 ts).mpr (payload_encode hsec hfits)
  · exact (decodeTfMessage_spec payload).1
  · exact ((decodeTfMessage_spec payload).2 ts).mpr hts

/-- A transform whose stamp is before the epoch. -/
def flipped : TransformStamped (BitVec 64) where
  stampNs := -3000000001
  frameId := "odom"
  childFrameId := "base_link"
  pose := ![0, 0x3ff0000000000000, 0, 0, 0x3fd0000000000000, 0x3fe0000000000000,
    0xc020000000000000]

theorem flipped_fitsSec {n : ℕ} : ∀ t ∈ List.replicate n flipped, t.FitsSec := by
  intro t ht
  rw [List.eq_of_mem_replicate ht]
  exact ⟨by decide, by decide⟩

theorem flipped_shortNames : flipped.ShortNames := by
  unfold TransformStamped.ShortNames Short
  decide

theorem decodeTfMessage_encode_flipped :
    decodeTfMessage (encodeTfMessage (List.replicate 2 flipped)) = .ok (List.replicate 2 flipped) ∧
      decodeTfMessage (encodeBigEndian (List.replicate 2 flipped)) =
        .ok (List.replicate 2 flipped) :=
  decodeTfMessage_encode.1 _ flipped_fitsSec
    ⟨by decide, fun _ ht => List.eq_of_mem_replicate ht ▸ flipped_shortNames⟩

/-- The count is a `uint32`: no payload carries more transforms. -/
theorem payload_length [LeBytes F] {payload : List UInt8} {ts : List (TransformStamped F)}
    (h : Wire.Payload payload ts) : ts.length < 2 ^ 32 := by
  obtain ⟨_, _, _, _, _, _, _, -, -, count, _, -, hlen, -⟩ := h
  rw [hlen]
  exact count.toNat_lt

theorem not_decodeTfMessage_encode_replicate :
    (∀ t ∈ List.replicate (2 ^ 32) flipped, t.FitsSec) ∧
      decodeTfMessage (encodeTfMessage (List.replicate (2 ^ 32) flipped)) ≠
        .ok (List.replicate (2 ^ 32) flipped) := by
  refine ⟨flipped_fitsSec, fun h => ?_⟩
  have hlen := payload_length (((decodeTfMessage_spec _).2 _).mp h)
  rw [List.length_replicate] at hlen
  exact lt_irrefl _ hlen

end TfTree.Cdr
