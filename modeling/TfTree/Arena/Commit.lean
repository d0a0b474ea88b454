import TfTree.Arena.Frozen
import TfTree.Arena.View
import Mathlib.Data.List.GetD

/-!
# What a crash leaves of a frozen arena file

The operations that `write_frozen` performs, and the file that a prefix of them leaves.

Results:
* `emits_writeFrozen`: the operations of a run, whatever the kernel answers.
* `Written.of_prefix`: the file that a prefix of them leaves.
* `prefix_opens_new`: a file left behind opens to the new arena and manifest, or not at all.
-/

namespace TfTree

open Data

/-! ## The operations of a run -/

section Operations

variable {buf arena manifest : List UInt8} {off : ℕ} {header : FrozenHeader}

theorem stores_nil (off : ℕ) : stores [] off = [] := rfl

theorem stores_cons (byte : UInt8) (buf : List UInt8) (off : ℕ) :
    stores (byte :: buf) off = .store off byte :: stores buf (off + 1) := rfl

theorem stores_append (buf buf' : List UInt8) (off : ℕ) :
    stores (buf ++ buf') off = stores buf off ++ stores buf' (off + buf.length) := by
  induction buf generalizing off with
  | nil => rfl
  | cons byte buf ih =>
    have hoff : off + 1 + buf.length = off + (byte :: buf).length := by
      rw [List.length_cons]
      omega
    rw [List.cons_append, stores_cons, ih, hoff]
    rfl

@[simp] theorem length_stores (buf : List UInt8) (off : ℕ) :
    (stores buf off).length = buf.length := by
  induction buf generalizing off with
  | nil => rfl
  | cons byte buf ih => rw [stores_cons, List.length_cons, ih, List.length_cons]

/-- A prefix of the stores of a buffer stores a prefix of it. -/
theorem stores_of_prefix {ops : List FileOp} (h : ops <+: stores buf off) :
    ∃ k, ops = stores (buf.take k) off := by
  refine ⟨ops.length, ?_⟩
  have hsplit := stores_append (buf.take ops.length) (buf.drop ops.length) off
  rw [List.take_append_drop] at hsplit
  have hle := h.length_le
  rw [length_stores] at hle
  rw [List.prefix_iff_eq_take.mp h, hsplit]
  rw [List.take_append_of_le_length, List.take_of_length_le]
  · simp [hle]
  · simp [hle]
  · simp [hle]

theorem emits_sysCall (op : FileOp) : Emits (sysCall op) [op] () := by
  intro answers
  match answers with
  | [] => exact ⟨List.nil_prefix, fun _ _ h => by cases h⟩
  | .error e :: answers => exact ⟨List.nil_prefix, fun _ _ h => by cases h⟩
  | .ok n :: answers => exact ⟨List.prefix_refl _, fun _ _ _ => ⟨rfl, rfl⟩⟩

/-- Short writes and interruptions do not change what is stored. -/
theorem emits_pwriteAll (buf : List UInt8) (off : ℕ) :
    Emits (pwriteAll buf off) (stores buf off) () := by
  intro answers
  induction answers generalizing buf off with
  | nil =>
    cases buf with
    | nil => exact ⟨List.prefix_refl _, fun _ _ _ => ⟨rfl, rfl⟩⟩
    | cons byte buf => exact ⟨List.nil_prefix, fun _ _ h => by cases h⟩
  | cons answer answers ih =>
    cases buf with
    | nil => exact ⟨List.prefix_refl _, fun _ _ _ => ⟨rfl, rfl⟩⟩
    | cons byte buf =>
      match answer with
      | .ok 0 => exact ⟨List.nil_prefix, fun _ _ h => by cases h⟩
      | .ok (n + 1) =>
        obtain ⟨hbegin, hdone⟩ := ih ((byte :: buf).drop (n + 1)) (off + (n + 1))
        have hsplit : stores (byte :: buf) off = stores ((byte :: buf).take (n + 1)) off ++
            stores ((byte :: buf).drop (n + 1)) (off + (n + 1)) := by
          conv_lhs => rw [← List.take_append_drop (n + 1) (byte :: buf)]
          rw [stores_append]
          rcases Nat.lt_or_ge (byte :: buf).length (n + 1) with hlt | hge
          · rw [List.drop_eq_nil_of_le (by omega)]
            rfl
          · rw [List.length_take, Nat.min_eq_left hge]
        rw [hsplit]
        refine ⟨(List.prefix_append_right_inj _).mpr hbegin, fun b rest h => ?_⟩
        obtain ⟨hops, -⟩ := hdone b rest h
        exact ⟨congrArg (stores ((byte :: buf).take (n + 1)) off ++ ·) hops, rfl⟩
      | .error e =>
        have hstep : pwriteAll (byte :: buf) off (.error e :: answers) =
            if e = eintr then pwriteAll (byte :: buf) off answers
            else ⟨[], some (.error (.io e))⟩ := rfl
        rw [hstep]
        by_cases he : e = eintr
        · rw [if_pos he]
          exact ih (byte :: buf) off
        · rw [if_neg he]
          exact ⟨List.nil_prefix, fun _ _ h => by cases h⟩

/-- The chunks of the copy loop store the rest of the arena. -/
theorem emits_copyArena (arena : List UInt8) (arenaOff done : ℕ) :
    Emits (copyArena arena arenaOff done) (stores (arena.drop done) (arenaOff + done)) () := by
  induction done using copyArena.induct arena with
  | case1 done hlt n ih =>
    rw [copyArena, if_pos hlt]
    have hn : done + n ≤ arena.length := by omega
    have hsplit : stores (arena.drop done) (arenaOff + done) =
        stores ((arena.drop done).take n) (arenaOff + done) ++
          stores (arena.drop (done + n)) (arenaOff + (done + n)) := by
      conv_lhs => rw [← List.take_append_drop n (arena.drop done)]
      rw [stores_append, List.drop_drop, List.length_take, List.length_drop,
        Nat.min_eq_left (by omega), Nat.add_assoc]
    rw [hsplit]
    exact (emits_pwriteAll _ _).bind ih
  | case2 done hge =>
    rw [copyArena, if_neg hge, List.drop_eq_nil_of_le (not_lt.mp hge)]
    exact Emits.pure ()

/-- The operations of `write_body`. -/
def bodyOps (arena manifest : List UInt8) (header : FrozenHeader) : List FileOp :=
  [.truncate 0] ++ ([.truncate header.fileSize.toNat] ++
    (stores manifest header.manifestOff.toNat ++ stores arena header.arenaOff.toNat))

/-- The operations of `write_frozen`. -/
def frozenOps (arena manifest : List UInt8) (header : FrozenHeader) : List FileOp :=
  bodyOps arena manifest header ++ ([.datasync] ++ stores header.bytesOf 0)

theorem emits_writeBody (arena manifest : List UInt8) (header : FrozenHeader) :
    Emits (writeBody arena manifest header) (bodyOps arena manifest header) () :=
  (emits_sysCall _).bind ((emits_sysCall _).bind ((emits_pwriteAll _ _).bind
    (emits_copyArena arena header.arenaOff.toNat 0)))

theorem emits_commitHeader (header : FrozenHeader) :
    Emits (commitHeader header) ([.datasync] ++ stores header.bytesOf 0) () :=
  (emits_sysCall _).bind (emits_pwriteAll _ _)

/-- **Run lemma.** The operations of `write_frozen`, whatever the kernel answers. -/
theorem emits_writeFrozen {sourceDigest toolVersion : Vector UInt8 32} {createdUnixNs : Int64}
    (hplan : planHeader arena.length manifest.length sourceDigest createdUnixNs toolVersion =
      .ok header) :
    Emits (writeFrozen arena manifest sourceDigest createdUnixNs toolVersion)
      (frozenOps arena manifest header) header := by
  have hheader : Emits (ω := FileOp) (ρ := Answer) (Emit.ofExcept
      (planHeader arena.length manifest.length sourceDigest createdUnixNs toolVersion)) []
        header := by
    apply Emits.ofExcept
    intro b hb
    exact (Except.ok.inj (hplan.symm.trans hb)).symm
  have hcommit := (emits_commitHeader header).bind (f := fun _ => pure header) (Emits.pure header)
  rw [List.append_nil] at hcommit
  have hrest : Emits (do writeBody arena manifest header; commitHeader header; pure header)
      (frozenOps arena manifest header) header := (emits_writeBody _ _ _).bind hcommit
  have hall := Emits.bind (f := fun header => do
    writeBody arena manifest header
    commitHeader header
    pure header) hheader hrest
  exact hall

/-! ## A kernel that answers -/

theorem completes_sysCall (op : FileOp) : Completes (sysCall op) () :=
  fun rest => ⟨.ok 0 :: rest, rfl⟩

theorem completes_pwriteAll (buf : List UInt8) (off : ℕ) : Completes (pwriteAll buf off) () := by
  intro rest
  cases buf with
  | nil => exact ⟨rest, by cases rest <;> rfl⟩
  | cons byte buf =>
    refine ⟨.ok (buf.length + 1) :: rest, ?_⟩
    have hdrop : (byte :: buf).drop (buf.length + 1) = [] := List.drop_eq_nil_of_le (le_refl _)
    show (pwriteAll ((byte :: buf).drop (buf.length + 1)) (off + (buf.length + 1)) rest).result = _
    rw [hdrop]
    cases rest <;> rfl

theorem completes_copyArena (arena : List UInt8) (arenaOff done : ℕ) :
    Completes (copyArena arena arenaOff done) () := by
  induction done using copyArena.induct arena with
  | case1 done hlt n ih =>
    rw [copyArena, if_pos hlt]
    exact (completes_pwriteAll _ _).bind ih
  | case2 done hge =>
    rw [copyArena, if_neg hge]
    exact Completes.pure ()

/-- A planned file is written when the kernel answers every call. -/
theorem completes_writeFrozen {sourceDigest toolVersion : Vector UInt8 32} {createdUnixNs : Int64}
    (hplan : planHeader arena.length manifest.length sourceDigest createdUnixNs toolVersion =
      .ok header) :
    Completes (writeFrozen arena manifest sourceDigest createdUnixNs toolVersion) header := by
  have hbody : Completes (writeBody arena manifest header) () :=
    (completes_sysCall _).bind ((completes_sysCall _).bind ((completes_pwriteAll _ _).bind
      (completes_copyArena arena header.arenaOff.toNat 0)))
  have hcommit : Completes (commitHeader header) () :=
    (completes_sysCall _).bind (completes_pwriteAll _ _)
  exact Completes.bind (f := fun header => do
    writeBody arena manifest header
    commitHeader header
    pure header) (Completes.ofExcept hplan)
    (hbody.bind (hcommit.bind (f := fun _ => pure header) (Completes.pure header)))

end Operations

/-! ## The file that a prefix leaves -/

section Files

variable {f : File} {buf arena manifest : List UInt8} {off k : ℕ} {header : FrozenHeader}

theorem File.run_append (f : File) (ops ops' : List FileOp) :
    f.run (ops ++ ops') = (f.run ops).run ops' := List.foldl_append

/-- Stores inside a file do not change its size. -/
theorem size_run_stores (h : off + buf.length ≤ f.size) :
    (f.run (stores buf off)).size = f.size := by
  induction buf generalizing f off with
  | nil => rfl
  | cons byte buf ih =>
    rw [List.length_cons] at h
    have hsize : (f.apply (.store off byte)).size = f.size := Nat.max_eq_left (by omega)
    show ((f.apply (.store off byte)).run (stores buf (off + 1))).size = f.size
    rw [ih (by omega), hsize]

/-- The bytes of a file after the stores of a buffer. -/
theorem byte_run_stores (h : off + buf.length ≤ f.size) {i : ℕ} (hi : i < f.size) :
    (f.run (stores buf off)).byte i =
      if off ≤ i ∧ i < off + buf.length then buf.getD (i - off) 0 else f.byte i := by
  induction buf generalizing f off with
  | nil =>
    rw [if_neg (by simp only [List.length_nil]; omega)]
    rfl
  | cons byte buf ih =>
    rw [List.length_cons] at h
    have hsize : (f.apply (.store off byte)).size = f.size := Nat.max_eq_left (by omega)
    have hbyte : (f.apply (.store off byte)).byte i = if i = off then byte else f.byte i := by
      show Function.update f.content off byte i = _
      rw [Function.update_apply, File.content, if_pos hi]
    show ((f.apply (.store off byte)).run (stores buf (off + 1))).byte i = _
    rw [ih (by omega) (by omega), hbyte, List.length_cons]
    rcases Nat.lt_trichotomy i off with hlt | rfl | hgt
    · rw [if_neg (by omega), if_neg (by omega), if_neg (by omega)]
    · rw [if_neg (by omega), if_pos rfl, if_pos (by omega), Nat.sub_self]
      rfl
    · have hsucc : i - off = i - (off + 1) + 1 := by omega
      rw [if_neg (by omega : ¬ i = off), hsucc, List.getD_cons_succ]
      exact if_congr (by omega) rfl rfl

/-- A file that `write_frozen` has emptied and sized, and the first `k` bytes of whose header
    it has written; before the first of them the body may be incomplete. -/
structure Written (f : File) (header : FrozenHeader) (arena manifest : List UInt8) (k : ℕ) :
    Prop where
  size : f.size = header.fileSize.toNat
  head : ∀ i < frozenHeaderSize, f.byte i = if i < k then header.memory i else 0
  manifest : 0 < k → bytesAt f.byte frozenHeaderSize manifest.length = manifest
  arena : 0 < k → bytesAt f.byte header.arenaOff.toNat arena.length = arena

/-- A prefix of a list of two parts. -/
theorem prefix_append_cases {ops first second : List FileOp} (h : ops <+: first ++ second) :
    ops <+: first ∨ ∃ ops', ops' <+: second ∧ ops = first ++ ops' := by
  rcases List.prefix_or_prefix_of_prefix h (List.prefix_append first second) with hle | ⟨ops', rfl⟩
  · exact .inl hle
  · exact .inr ⟨ops', (List.prefix_append_right_inj first).mp h, rfl⟩

/-- A prefix of the stores of two buffers. -/
theorem stores_of_prefix_append {off' : ℕ} {buf' : List UInt8} {ops : List FileOp}
    (h : ops <+: stores buf off ++ stores buf' off') :
    ∃ m n, ops = stores (buf.take m) off ++ stores (buf'.take n) off' := by
  rcases prefix_append_cases h with hfirst | ⟨ops', hsecond, rfl⟩
  · obtain ⟨m, rfl⟩ := stores_of_prefix hfirst
    exact ⟨m, 0, by rw [List.take_zero, stores_nil, List.append_nil]⟩
  · obtain ⟨n, rfl⟩ := stores_of_prefix hsecond
    exact ⟨buf.length, n, by rw [List.take_length]⟩

/-- The file between its extension and its first byte. -/
def blank (n : ℕ) : File := ⟨n, fun _ => 0⟩

theorem run_truncate (f : File) (n : ℕ) (ops : List FileOp) :
    f.run (.truncate 0 :: .truncate n :: ops) = (blank n).run ops := by
  have hblank : (f.apply (.truncate 0)).apply (.truncate n) = blank n := by
    show File.mk n (fun i => if i < 0 then f.content i else 0) = _
    simp [blank]
  show ((f.apply (.truncate 0)).apply (.truncate n)).run ops = _
  rw [hblank]

variable (hplan : Planned header arena.length manifest.length)
include hplan

/-- The body leaves the place of the header zero. -/
theorem Written.body (m n : ℕ) : Written ((blank header.fileSize.toNat).run
    (stores (manifest.take m) frozenHeaderSize ++ stores (arena.take n) header.arenaOff.toNat))
      header arena manifest 0 := by
  have hend := hplan.manifestEnd
  have hfile := hplan.fileSize
  have hm : (manifest.take m).length ≤ manifest.length := List.length_take_le' ..
  have hn : (arena.take n).length ≤ arena.length := List.length_take_le' ..
  have hfirst : frozenHeaderSize + (manifest.take m).length ≤
      (blank header.fileSize.toNat).size := by
    show _ ≤ header.fileSize.toNat
    omega
  have hsize := size_run_stores hfirst
  have hsecond : header.arenaOff.toNat + (arena.take n).length ≤
      ((blank header.fileSize.toNat).run (stores (manifest.take m) frozenHeaderSize)).size := by
    rw [hsize]
    show _ ≤ header.fileSize.toNat
    omega
  rw [File.run_append]
  refine ⟨(size_run_stores hsecond).trans hsize, fun i hi => ?_, fun h => absurd h (by decide),
    fun h => absurd h (by decide)⟩
  rw [byte_run_stores hsecond (by omega), if_neg (by omega), byte_run_stores hfirst (by omega),
    if_neg (by omega), if_neg (Nat.not_lt_zero i)]
  rfl

/-- The stores of the header, over a whole body. -/
theorem Written.commit (k : ℕ) : Written ((blank header.fileSize.toNat).run
    ((stores manifest frozenHeaderSize ++ stores arena header.arenaOff.toNat) ++
      .datasync :: stores (header.bytesOf.take k) 0)) header arena manifest k := by
  have hend := hplan.manifestEnd
  have hfile := hplan.fileSize
  have hbody := Written.body hplan manifest.length arena.length
  rw [List.take_length, List.take_length] at hbody
  have hfirst : frozenHeaderSize + manifest.length ≤ (blank header.fileSize.toNat).size := by
    show _ ≤ header.fileSize.toNat
    omega
  have hsize := size_run_stores hfirst
  have hsecond : header.arenaOff.toNat + arena.length ≤
      ((blank header.fileSize.toNat).run (stores manifest frozenHeaderSize)).size := by
    rw [hsize]
    show _ ≤ header.fileSize.toNat
    omega
  have hbyte : ∀ i < header.fileSize.toNat, ((blank header.fileSize.toNat).run
      (stores manifest frozenHeaderSize ++ stores arena header.arenaOff.toNat)).byte i =
        if header.arenaOff.toNat ≤ i ∧ i < header.arenaOff.toNat + arena.length then
          arena.getD (i - header.arenaOff.toNat) 0
        else if frozenHeaderSize ≤ i ∧ i < frozenHeaderSize + manifest.length then
          manifest.getD (i - frozenHeaderSize) 0
        else 0 := by
    intro i hi
    rw [File.run_append, byte_run_stores hsecond (by rwa [hsize]), byte_run_stores hfirst hi]
    rfl
  rw [File.run_append]
  generalize (blank header.fileSize.toNat).run
    (stores manifest frozenHeaderSize ++ stores arena header.arenaOff.toNat) = body at hbody hbyte
  have hlen : (header.bytesOf.take k).length = min k frozenHeaderSize := by
    rw [List.length_take, FrozenHeader.bytesOf, length_bytesAt]
  have hhead : 0 + (header.bytesOf.take k).length ≤ body.size := by
    rw [hlen, hbody.size]
    omega
  have hstored : ∀ i < header.fileSize.toNat,
      ((body.run (stores (header.bytesOf.take k) 0))).byte i =
        if i < min k frozenHeaderSize then header.memory i else body.byte i := by
    intro i hi
    rw [byte_run_stores hhead (by rwa [hbody.size]), hlen]
    by_cases hk : i < min k frozenHeaderSize
    · rw [if_pos (by omega), if_pos hk, Nat.sub_zero, List.getD_eq_getElem _ _ (by rwa [hlen]),
        List.getElem_take]
      simp [FrozenHeader.bytesOf, bytesAt]
    · rw [if_neg (by omega), if_neg hk]
  show Written (body.run (stores (header.bytesOf.take k) 0)) header arena manifest k
  refine ⟨(size_run_stores hhead).trans hbody.size, fun i hi => ?_, fun _ => ?_, fun _ => ?_⟩
  · rw [hstored i (by omega), hbody.head i hi, if_neg (Nat.not_lt_zero i)]
    exact if_congr (by omega) rfl rfl
  · apply bytesAt_eq rfl
    intro i hi
    rw [hstored _ (by omega), if_neg (by omega), hbyte _ (by omega), if_neg (by omega),
      if_pos (by omega), Nat.add_sub_cancel_left, List.getD_eq_getElem _ _ hi]
  · apply bytesAt_eq rfl
    intro i hi
    rw [hstored _ (by omega), if_neg (by omega), hbyte _ (by omega), if_pos (by omega),
      Nat.add_sub_cancel_left, List.getD_eq_getElem _ _ hi]

theorem frozenOps_eq : frozenOps arena manifest header =
    .truncate 0 :: .truncate header.fileSize.toNat ::
      ((stores manifest frozenHeaderSize ++ stores arena header.arenaOff.toNat) ++
        .datasync :: stores header.bytesOf 0) := by
  simp [frozenOps, bodyOps, hplan.manifestOff]

/-- **Run lemma.** The file that a prefix of the operations leaves, from the first one on. -/
theorem Written.of_prefix {pre : List FileOp} (hpre : pre <+: frozenOps arena manifest header)
    (hne : pre ≠ []) :
    (f.run pre).size = 0 ∨ ∃ k, Written (f.run pre) header arena manifest k := by
  rw [frozenOps_eq hplan] at hpre
  obtain rfl | ⟨rest, rfl, hrest⟩ := List.prefix_cons_iff.mp hpre
  · exact absurd rfl hne
  obtain rfl | ⟨stored, rfl, hstored⟩ := List.prefix_cons_iff.mp hrest
  · exact .inl rfl
  right
  rw [run_truncate]
  rcases prefix_append_cases hstored with hbody | ⟨commit, hcommit, rfl⟩
  · obtain ⟨m, n, rfl⟩ := stores_of_prefix_append hbody
    exact ⟨0, Written.body hplan m n⟩
  · obtain rfl | ⟨head, rfl, hstores⟩ := List.prefix_cons_iff.mp hcommit
    · have hbody := Written.body hplan manifest.length arena.length
      rw [List.take_length, List.take_length] at hbody
      exact ⟨0, by rwa [List.append_nil]⟩
    · obtain ⟨k, rfl⟩ := stores_of_prefix hstores
      exact ⟨k, Written.commit hplan k⟩

/-- The file that a complete run leaves. -/
theorem Written.complete : Written (f.run (frozenOps arena manifest header)) header arena manifest
    frozenHeaderSize := by
  have hcommit := Written.commit hplan frozenHeaderSize
  have hall : header.bytesOf.take frozenHeaderSize = header.bytesOf :=
    List.take_of_length_le (by rw [FrozenHeader.bytesOf, length_bytesAt])
  rw [hall] at hcommit
  rwa [frozenOps_eq hplan, run_truncate]

end Files

/-! ## Opening it -/

section Opening

variable {f : File} {manifest : List UInt8} {arena : ArenaImage} {header : FrozenHeader} {k : ℕ}

/-- The arena's own header, read from a mapping of its bytes. -/
theorem ofMemory_mapped {off : ℕ} (h : bytesAt f.byte off arena.bytes.length = arena.bytes) :
    ArenaHeader.ofMemory (fun i => f.byte (off + i)) =
      ArenaHeader.ofMemory (arena.bytes.getD · 0) := by
  have hlen := (ArenaHeader.Valid.of_validate arena.valid).headerSize_le
  apply ArenaHeader.ofMemory_congr
  intro i hi
  rw [List.getD_eq_getElem _ _ (by omega)]
  have hget := congrArg (fun bytes => bytes[i]?) h
  simp only [bytesAt] at hget
  rw [List.getElem?_map, List.getElem?_range (by omega)] at hget
  rw [List.getElem?_eq_getElem (by omega)] at hget
  exact Option.some_inj.mp hget

/-- What a file shows of its header. -/
theorem Written.header_eq (hw : Written f header arena.bytes manifest k) :
    FrozenHeader.ofMemory f.byte = header.torn k := by
  have hnumber : ∀ {off n : ℕ}, off + n ≤ frozenHeaderSize → numberAt f.byte off n =
      numberAt (fun i => if i < k then header.memory i else 0) off n :=
    fun hle => numberAt_congr fun i _ hi => hw.head i (by omega)
  have harray : ∀ {off n : ℕ}, off + n ≤ frozenHeaderSize → arrayAt f.byte off n =
      arrayAt (fun i => if i < k then header.memory i else 0) off n :=
    fun hle => arrayAt_congr fun i _ hi => hw.head i (by omega)
  unfold FrozenHeader.torn FrozenHeader.ofMemory
  simp (disch := decide) only [hnumber, harray]

theorem arenaOff_ofMemory (memory : ℕ → UInt8) :
    (FrozenHeader.ofMemory memory).arenaOff = UInt64.ofNat (numberAt memory 32 8) := rfl

theorem arenaSize_ofMemory (memory : ℕ → UInt8) :
    (FrozenHeader.ofMemory memory).arenaSize = UInt64.ofNat (numberAt memory 40 8) := rfl

theorem torn_arenaOff (hk : 40 ≤ k) : (header.torn k).arenaOff = header.arenaOff := by
  have hoff : numberAt (fun i => if i < k then header.memory i else 0) 32 8 =
      numberAt header.memory 32 8 := numberAt_congr fun i _ _ => if_pos (by omega)
  rw [FrozenHeader.torn, arenaOff_ofMemory, hoff, ← arenaOff_ofMemory, header.ofMemory_memory]

theorem torn_arenaSize (hk : 48 ≤ k) : (header.torn k).arenaSize = header.arenaSize := by
  have hsize : numberAt (fun i => if i < k then header.memory i else 0) 40 8 =
      numberAt header.memory 40 8 := numberAt_congr fun i _ _ => if_pos (by omega)
  rw [FrozenHeader.torn, arenaSize_ofMemory, hsize, ← arenaSize_ofMemory, header.ofMemory_memory]

/-- Before the last field that is checked is begun, it reads as zero. -/
theorem torn_arenaSize_zero (hk : k ≤ 40) : (header.torn k).arenaSize = 0 := by
  have hzero : numberAt (fun i => if i < k then header.memory i else 0) 40 8 = 0 :=
    numberAt_zero fun i hi _ => if_neg (by omega)
  rw [FrozenHeader.torn, arenaSize_ofMemory, hzero]
  rfl

theorem torn_sameFile (hk : 40 ≤ k) (hsize : (header.torn k).arenaSize = header.arenaSize) :
    (header.torn k).SameFile header := by
  have hsame : FrozenHeader.SameFile
      (FrozenHeader.ofMemory fun i => if i < k then header.memory i else 0)
      (FrozenHeader.ofMemory header.memory) := by
    apply FrozenHeader.SameFile.of_agree fun i hi => if_pos (by omega)
    rw [header.ofMemory_memory]
    exact hsize
  rwa [header.ofMemory_memory] at hsame

/-- **Step lemma.** A file that opens has the checked part of its header, and its body. -/
theorem Written.of_open (hplan : Planned header arena.bytes.length manifest.length)
    (hw : Written f header arena.bytes manifest k) {a : FrozenArena}
    (hopen : FrozenArena.openFile f = .ok a) :
    0 < k ∧ a.header = header.torn k ∧ a.header.SameFile header := by
  obtain ⟨rfl, ho⟩ := openFile_ok_iff.mp hopen
  have hextents := ho.extents
  have harena := ho.arena
  rw [FrozenArena.arenaHeader] at harena
  dsimp only at hextents harena ⊢
  rw [hw.header_eq] at hextents harena ⊢
  have hk : 40 < k := by
    by_contra hle
    rw [checkExtents, torn_arenaSize_zero (not_lt.mp hle)] at hextents
    split_ifs at hextents with h1 h2 h3 h4 h5
    exact h5 (by decide)
  -- the arena says itself how large it is
  rw [torn_arenaOff (by omega), ofMemory_mapped (hw.arena (by omega))] at harena
  have hsize := (ArenaHeader.Valid.of_validate harena).totalSize.symm.trans
    (ArenaHeader.Valid.of_validate arena.valid).totalSize
  rw [← hplan.arenaSize] at hsize
  exact ⟨by omega, rfl, torn_sameFile (by omega) (UInt64.toNat_inj.mp hsize)⟩

/-- A file with the checked part of its header opens. -/
theorem Written.opens (hplan : Planned header arena.bytes.length manifest.length)
    (hw : Written f header arena.bytes manifest k) (hk : 48 ≤ k) :
    FrozenArena.openFile f = .ok ⟨f, header.torn k⟩ := by
  have hlen := (ArenaHeader.Valid.of_validate arena.valid).headerSize_le
  have hsame : (header.torn k).SameFile header := torn_sameFile (by omega) (torn_arenaSize hk)
  apply openFile_ok_iff.mpr
  refine ⟨by rw [hw.header_eq], ?_⟩
  have hend := hplan.manifestEnd
  have hfile := hplan.fileSize
  exact {
    size := by
      show _ ≤ f.size
      rw [hw.size]
      omega
    magic := hsame.magic.trans hplan.magic
    formatVersion := by
      show (header.torn k).formatVersion.toNat = _
      rw [hsame.formatVersion, hplan.formatVersion]
    layoutHash := by
      show (header.torn k).layoutHash.toNat = _
      rw [hsame.layoutHash, hplan.layoutHash]
    fileSize := by
      show (header.torn k).fileSize.toNat = f.size
      rw [hsame.fileSize, hw.size]
    extents := hsame.checkExtents.trans (hplan.checkExtents hlen)
    arena := by
      show validateArenaHeader (ArenaHeader.ofMemory fun i =>
        f.byte ((header.torn k).arenaOff.toNat + i)) (header.torn k).arenaSize.toNat = _
      rw [hsame.arenaOff, ofMemory_mapped (hw.arena (by omega)), hsame.arenaSize, hplan.arenaSize]
      exact arena.valid }

/-- What a reader gets from a file with the checked part of its header. -/
theorem Written.content (hplan : Planned header arena.bytes.length manifest.length)
    (hw : Written f header arena.bytes manifest k) (hk : 0 < k) {h : FrozenHeader}
    (hsame : h.SameFile header) :
    (FrozenArena.mk f h).bytes = arena.bytes ∧
      (FrozenArena.mk f h).readManifest = .ok manifest := by
  have hend := hplan.manifestEnd
  have hfile := hplan.fileSize
  have hsize := hw.size
  constructor
  · show bytesAt f.byte h.arenaOff.toNat h.arenaSize.toNat = arena.bytes
    rw [hsame.arenaOff, hsame.arenaSize, hplan.arenaSize]
    exact hw.arena hk
  · unfold FrozenArena.readManifest
    dsimp only
    rw [hsame.manifestLen, hsame.manifestOff, hplan.manifestLen, hplan.manifestOff,
      if_neg (by omega), hw.manifest hk]

/-- The whole header is read back. -/
theorem torn_whole (header : FrozenHeader) : header.torn frozenHeaderSize = header := by
  have hnumber : ∀ {off n : ℕ}, off + n ≤ frozenHeaderSize →
      numberAt (fun i => if i < frozenHeaderSize then header.memory i else 0) off n =
        numberAt header.memory off n :=
    fun hle => numberAt_congr fun i _ hi => if_pos (by omega)
  have harray : ∀ {off n : ℕ}, off + n ≤ frozenHeaderSize →
      arrayAt (fun i => if i < frozenHeaderSize then header.memory i else 0) off n =
        arrayAt header.memory off n :=
    fun hle => arrayAt_congr fun i _ hi => if_pos (by omega)
  conv_rhs => rw [← header.ofMemory_memory]
  unfold FrozenHeader.torn FrozenHeader.ofMemory
  simp (disch := decide) only [hnumber, harray]

/-- A refused plan does nothing to the file. -/
theorem writeFrozen_refused {arena manifest : List UInt8}
    {sourceDigest toolVersion : Vector UInt8 32}
    {createdUnixNs : Int64} {e : FrozenError}
    (h : planHeader arena.length manifest.length sourceDigest createdUnixNs toolVersion = .error e)
    (answers : List Answer) :
    writeFrozen arena manifest sourceDigest createdUnixNs toolVersion answers =
      ⟨[], some (.error e)⟩ := by
  have hbind : writeFrozen arena manifest sourceDigest createdUnixNs toolVersion answers =
      Emit.bind (Emit.ofExcept
        (planHeader arena.length manifest.length sourceDigest createdUnixNs toolVersion))
        (fun header => do
          writeBody arena manifest header
          commitHeader header
          pure header) answers := rfl
  rw [hbind, h]
  rfl

/-- **Main theorem.** A file left behind by `write_frozen`, after any of its operations, opens
    only with the new arena, the new manifest and a header whose checked fields are the new
    ones; the complete file opens with the new header. -/
theorem prefix_opens_new (prior : File) (arena : ArenaImage) (manifest : List UInt8)
    (sourceDigest : Vector UInt8 32) (createdUnixNs : Int64) (toolVersion : Vector UInt8 32)
    (answers : List Answer) :
    (∀ pre a, pre <+: (writeFrozen arena.bytes manifest sourceDigest createdUnixNs toolVersion
          answers).ops → pre ≠ [] → FrozenArena.openFile (prior.run pre) = .ok a →
        ∃ header k, planHeader arena.bytes.length manifest.length sourceDigest createdUnixNs
            toolVersion = .ok header ∧
          a.header = header.torn k ∧ a.header.SameFile header ∧
          a.bytes = arena.bytes ∧ a.readManifest = .ok manifest) ∧
      ∀ header rest, (writeFrozen arena.bytes manifest sourceDigest createdUnixNs toolVersion
          answers).result = some (.ok (header, rest)) →
        ∃ a, FrozenArena.openFile (prior.run (writeFrozen arena.bytes manifest sourceDigest
            createdUnixNs toolVersion answers).ops) = .ok a ∧
          planHeader arena.bytes.length manifest.length sourceDigest createdUnixNs toolVersion =
            .ok header ∧
          a.header = header ∧ a.bytes = arena.bytes ∧ a.readManifest = .ok manifest := by
  cases hplan : planHeader arena.bytes.length manifest.length sourceDigest createdUnixNs
      toolVersion with
  | error e =>
    rw [writeFrozen_refused hplan]
    exact ⟨fun pre a hpre hne => absurd (List.prefix_nil.mp hpre) hne, fun _ _ h => by cases h⟩
  | ok header =>
    obtain ⟨hplanned, -⟩ := planHeader_ok hplan
    obtain ⟨hbegin, hdone⟩ := emits_writeFrozen hplan answers
    refine ⟨fun pre a hpre hne hopen => ?_, fun header' rest hresult => ?_⟩
    · rcases Written.of_prefix hplanned (f := prior) (hpre.trans hbegin) hne with hzero | ⟨k, hw⟩
      · have hsize := (openFile_ok_iff.mp hopen).2.size
        rw [(openFile_ok_iff.mp hopen).1] at hsize
        rw [hzero] at hsize
        exact absurd hsize (by decide)
      · obtain ⟨hk, hhead, hsame⟩ := hw.of_open hplanned hopen
        obtain ⟨hbytes, hmanifest⟩ := hw.content hplanned hk hsame
        have ha := (openFile_ok_iff.mp hopen).1
        rw [ha] at hbytes hmanifest hhead hsame ⊢
        exact ⟨header, k, rfl, hhead, hsame, hbytes, hmanifest⟩
    · obtain ⟨hops, rfl⟩ := hdone header' rest hresult
      rw [hops]
      have hw := Written.complete hplanned (f := prior)
      have hopen := hw.opens hplanned (by decide)
      rw [torn_whole] at hopen
      obtain ⟨hbytes, hmanifest⟩ := hw.content hplanned (by decide)
        (torn_whole header' ▸ torn_sameFile (by decide) (torn_arenaSize (by decide)))
      exact ⟨_, hopen, rfl, rfl, hbytes, hmanifest⟩

/-! ### A small arena -/

/-- The fields of an arena header: offset, width and value. -/
def ArenaHeader.fields (h : ArenaHeader) : List (ℕ × ℕ × ℕ) :=
  [(0, 8, h.magic), (8, 4, h.formatVersion), (12, 4, h.layoutHash), (16, 8, h.arenaSize),
    (24, 4, h.maxFrames), (28, 4, h.maxEdges), (32, 4, h.stampSlots), (36, 4, h.poseSlots),
    (40, 4, h.frameTableOff), (44, 4, h.frameHashOff), (48, 4, h.topoBlockOff),
    (52, 4, h.topoBlockStride), (56, 4, h.claimTableOff), (60, 4, h.participantTableOff),
    (64, 4, h.maxParticipants), (68, 4, h.edgeTableOff), (72, 4, h.stampArenaOff),
    (76, 4, h.poseArenaOff), (152, 4, h.edgeCountersOff), (156, 4, h.participantCountersOff)]

/-- The memory of an arena header. -/
def ArenaHeader.memory (h : ArenaHeader) : ℕ → UInt8 :=
  image (h.fields.map fun (off, width, value) => (off, leBytes width value))

/-- An arena header is read back when its fields fit. -/
theorem ArenaHeader.ofMemory_memory {h : ArenaHeader}
    (hfit : ∀ f ∈ h.fields, f.2.2 < 256 ^ f.2.1) : ArenaHeader.ofMemory h.memory = h := by
  have hin : InOrder (h.fields.map fun (off, width, value) => (off, leBytes width value)) := by
    simp [InOrder, fields]
  have hread : ∀ {off n x : ℕ}, (off, n, x) ∈ h.fields → numberAt h.memory off n = x := by
    intro off n x hmem
    exact numberAt_image hin (List.mem_map_of_mem hmem) (hfit _ hmem)
  unfold ArenaHeader.ofMemory
  rw [hread (x := h.magic) (by simp [fields]), hread (x := h.formatVersion) (by simp [fields]),
    hread (x := h.layoutHash) (by simp [fields]), hread (x := h.arenaSize) (by simp [fields]),
    hread (x := h.maxFrames) (by simp [fields]), hread (x := h.maxEdges) (by simp [fields]),
    hread (x := h.stampSlots) (by simp [fields]), hread (x := h.poseSlots) (by simp [fields]),
    hread (x := h.frameTableOff) (by simp [fields]),
    hread (x := h.frameHashOff) (by simp [fields]),
    hread (x := h.topoBlockOff) (by simp [fields]),
    hread (x := h.topoBlockStride) (by simp [fields]),
    hread (x := h.claimTableOff) (by simp [fields]),
    hread (x := h.participantTableOff) (by simp [fields]),
    hread (x := h.maxParticipants) (by simp [fields]),
    hread (x := h.edgeTableOff) (by simp [fields]),
    hread (x := h.stampArenaOff) (by simp [fields]),
    hread (x := h.poseArenaOff) (by simp [fields]),
    hread (x := h.edgeCountersOff) (by simp [fields]),
    hread (x := h.participantCountersOff) (by simp [fields])]

/-- The bytes of an arena whose header fits: the header, then zeros. -/
def ArenaImage.ofHeader (h : ArenaHeader) (hfit : ∀ f ∈ h.fields, f.2.2 < 256 ^ f.2.1)
    (hok : validateArenaHeader h h.arenaSize = .ok ()) : ArenaImage where
  bytes := bytesAt h.memory 0 h.arenaSize
  valid := by
    have hlen := (ArenaHeader.Valid.of_validate hok).headerSize_le
    have hread : ArenaHeader.ofMemory ((bytesAt h.memory 0 h.arenaSize).getD · 0) = h := by
      rw [← ArenaHeader.ofMemory_memory hfit]
      apply ArenaHeader.ofMemory_congr
      intro i hi
      rw [ArenaHeader.ofMemory_memory hfit]
      have hi : i < h.arenaSize := by omega
      simp [bytesAt, hi]
    rw [hread, length_bytesAt]
    exact hok

theorem smallHeader_fits : ∀ f ∈ smallHeader.fields, f.2.2 < 256 ^ f.2.1 := by
  have hsize := (ArenaHeader.Valid.of_validate validate_smallHeader).fits
  have hword : ∀ x, asU32 x < 256 ^ 4 := fun x => Nat.mod_lt x (by decide)
  have hhash : layoutHash < 256 ^ 4 := BitVec.isLt _
  have harena : smallHeader.arenaSize < 256 ^ 8 := lt_trans hsize (by decide)
  simp only [ArenaHeader.fields, List.forall_mem_cons]
  exact ⟨by decide, by decide, hhash, harena, by decide, by decide, hword _, hword _, hword _,
    hword _, hword _, hword _, hword _, hword _, by decide, hword _, hword _, hword _, hword _,
    hword _, List.forall_mem_nil _⟩

theorem ArenaImage.length_lt (arena : ArenaImage) : arena.bytes.length < 2 ^ 32 :=
  (ArenaHeader.Valid.of_validate arena.valid).fits

/-- An arena of two frames and one edge. -/
def smallImage : ArenaImage := .ofHeader smallHeader smallHeader_fits validate_smallHeader

/-- What the small arena is frozen with. -/
def smallDigest : Vector UInt8 32 := .replicate 32 1

/-- The plan of a small file. -/
theorem planHeader_small : ∃ header,
    planHeader smallImage.bytes.length ([] : List UInt8).length smallDigest 0 (.replicate 32 0) =
      .ok header := by
  have hlen := smallImage.length_lt
  exact planHeader_of_lt hlen (by decide) _ _ _

/-- Both parts apply to a run that completes. -/
theorem prefix_opens_new_small : ∃ answers header a k,
    (writeFrozen smallImage.bytes [] smallDigest 0 (.replicate 32 0) answers).result =
      some (.ok (header, [])) ∧
    FrozenArena.openFile ((blank 0).run (writeFrozen smallImage.bytes [] smallDigest 0
      (.replicate 32 0) answers).ops) = .ok a ∧
    a.header = header ∧ a.header = header.torn k ∧ a.bytes = smallImage.bytes ∧
    a.readManifest = .ok [] := by
  obtain ⟨header, hplan⟩ := planHeader_small
  obtain ⟨answers, hresult⟩ := completes_writeFrozen hplan []
  obtain ⟨hparts, hwhole⟩ := prefix_opens_new (blank 0) smallImage [] smallDigest 0
    (.replicate 32 0) answers
  obtain ⟨a, hopen, -, hhead, -⟩ := hwhole header [] hresult
  obtain ⟨hops, -⟩ := (emits_writeFrozen hplan answers).2 header [] hresult
  have hne :
      (writeFrozen smallImage.bytes [] smallDigest 0 (.replicate 32 0) answers).ops ≠ [] := by
    rw [hops]
    exact List.cons_ne_nil _ _
  obtain ⟨header', k, hplan', htorn, -, hbytes, hmanifest⟩ :=
    hparts _ a (List.prefix_refl _) hne hopen
  cases hplan.symm.trans hplan'
  exact ⟨answers, header, a, k, hresult, hopen, hhead, htorn, hbytes, hmanifest⟩

/-- A run that stops inside the header, behind the fields that are checked, leaves a file
    that opens without its digest. -/
theorem torn_header_opens : ∃ answers pre a header,
    pre <+: (writeFrozen smallImage.bytes [] smallDigest 0 (.replicate 32 0) answers).ops ∧
    FrozenArena.openFile ((blank 0).run pre) = .ok a ∧
    planHeader smallImage.bytes.length 0 smallDigest 0 (.replicate 32 0) = .ok header ∧
    a.header ≠ header := by
  obtain ⟨header, hplan⟩ := planHeader_small
  obtain ⟨hplanned, hdigest, -⟩ := planHeader_ok hplan
  obtain ⟨answers, hresult⟩ := completes_writeFrozen hplan []
  obtain ⟨hops, -⟩ := (emits_writeFrozen hplan answers).2 header [] hresult
  have hcommit := Written.commit hplanned 48
  rw [← run_truncate (blank 0)] at hcommit
  have hopen := hcommit.opens hplanned (le_refl 48)
  refine ⟨answers, _, _, header, ?_, hopen, hplan, fun h => ?_⟩
  · rw [hops, frozenOps_eq hplanned]
    have hhead : stores (header.bytesOf.take 48) 0 <+: stores header.bytesOf 0 := by
      have hsplit := stores_append (header.bytesOf.take 48) (header.bytesOf.drop 48) 0
      rw [List.take_append_drop] at hsplit
      exact ⟨_, hsplit.symm⟩
    exact (List.prefix_append_right_inj _).mpr ((List.prefix_cons_inj _).mpr hhead) |>
      (List.prefix_cons_inj _).mpr |> (List.prefix_cons_inj _).mpr
  · have hzero : (header.torn 48).sourceDigest = arrayAt (fun _ => 0) 48 32 :=
      arrayAt_congr fun i hi _ => if_neg (by omega)
    dsimp only at h
    rw [h, hdigest] at hzero
    exact absurd hzero (by decide)

end Opening

end TfTree
