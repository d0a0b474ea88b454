import Mathlib
import TfTree.Arena.Layout
import TfTree.Bridge.Config
import TfTree.Ring.Window

/-!
# The capacity of a ring

`Capacity::slots` and `Capacity::history` (`tf_tree/src/tree.rs`), the `RingSize` of a bridge
that resolves to them, in exact arithmetic, and what a ring of such a capacity still answers
after any number of pushes in order.

Results:
* `keepsNewest_iff`, `answersHistory_iff`: a ring keeps as many samples as it retains, and
  answers over one period less than that.
* `ring_size_iff`: which sizes keep what their documentation says.
-/

namespace TfTree

open Conc

/-! ## Model of `tree.rs` -/

/-- `next_pow2_u32` (lines 107–118). -/
def nextPow2U32 (n : ℕ) : ℕ := if nextPow2 n > 2 ^ 32 - 1 then 2 ^ 31 else nextPow2 n

/-- `Capacity`. -/
structure Capacity where
  get : ℕ
  deriving DecidableEq

/-- `Capacity::slots` (lines 138–140). -/
def Capacity.slots (n : ℕ) : Capacity := ⟨nextPow2U32 n⟩

/-- `Capacity::history` (lines 146–158); a rational is finite. -/
def Capacity.history (rateHz secs : ℚ) : Capacity :=
  let needed := ⌈rateHz * secs⌉
  let clamped :=
    if needed ≥ 1 then
      if needed > 2 ^ 32 - 1 then 2 ^ 32 - 1 else needed.toNat
    else 1
  ⟨nextPow2U32 clamped⟩

/-- `RingSize::capacity` (`config.rs`, lines 72–77). -/
def Bridge.RingSize.capacity : RingSize ℚ → Capacity
  | .slots n => .slots n
  | .history rateHz secs => .history rateHz secs

/-! ## Powers of two -/

/-- In the range of the capacities nothing is clamped. -/
theorem nextPow2U32_spec {n : ℕ} (hn : n ≤ 2 ^ 31) :
    ∃ j, nextPow2U32 n = 2 ^ j ∧ n ≤ 2 ^ j ∧ ∀ i < j, 2 ^ i < n := by
  obtain ⟨j, hj, hle, hmin⟩ := nextPow2_spec n
  have hj31 : j ≤ 31 := by
    by_contra hlt
    have := hmin 31 (by omega)
    omega
  have hpow : 2 ^ j ≤ 2 ^ 31 := Nat.pow_le_pow_right (by decide) hj31
  refine ⟨j, ?_, hle, hmin⟩
  rw [nextPow2U32, if_neg (by omega), hj]

/-- A power of two is the exponent it is. -/
theorem eq_of_minimal {n j k : ℕ} (hle : n ≤ 2 ^ j) (hmin : ∀ i < j, 2 ^ i < n) (hk : n = 2 ^ k) :
    j = k := by
  subst hk
  refine le_antisymm ?_ ((Nat.pow_le_pow_iff_right (by decide)).mp hle)
  by_contra hlt
  exact absurd (hmin k (by omega)) (lt_irrefl _)

/-! ## What a ring keeps -/

section Ring

variable {F : Type} {r : SampleRing F} {m : RingArena F} {zs : List (ℤ × Iso3 F)}

/-- A ring of one slot has one sample in its window; the others keep all but the slot of
    `head`. -/
theorem SampleRing.Newest.carries (h : r.Newest m zs) (hp : r.PowerOfTwo) : r.Carries m zs where
  ok := h.ok
  published := h.published
  holds := by
    intro i s hs hi
    have hhead : (m r.edge).head = zs.length := by rw [h.ok.head, h.published]
    obtain ⟨hlt, hle⟩ := SampleRing.window_iff.mp hi
    rcases Nat.lt_or_ge r.capacity 2 with hc | hc
    · have hpos := hp.pos
      have hret : r.retained ≤ 1 := SampleRing.retained_le.trans (by omega)
      obtain rfl : i = zs.length - 1 := by omega
      refine h.newest s ?_
      rw [List.getLast?_eq_getElem?]
      exact hs
    · have hret := SampleRing.retained_of_two_le hc
      refine h.ok.stored i s (by rw [h.published]; exact hs) ?_
      omega

/-- Pushes in order, on a fresh ring. -/
theorem carries_of_fresh (hp : r.PowerOfTwo) (hhead : (m r.edge).head = 0)
    (hpub : (m r.edge).published = []) (hs : zs.Pairwise fun a b => a.1 ≤ b.1) :
    ∃ m', (r.pushUntilRefused zs).run RingOp.exec m = some (.ok (), m') ∧ r.Carries m' zs := by
  obtain ⟨m', hrun, hnew⟩ :=
    (SampleRing.Newest.of_empty hhead hpub).pushUntilRefused hp (by rw [List.nil_append]; exact hs)
  exact ⟨m', hrun, hnew.carries hp⟩

/-- The stamps of the two ends of the window. -/
theorem SampleRing.Carries.ends (h : r.Carries m zs) (hp : r.PowerOfTwo) {old new : ℤ × Iso3 F}
    (hold : zs[r.first zs]? = some old) (hnew : zs[zs.length - 1]? = some new) :
    r.oldest m = old.1 ∧ r.newest m = new.1 := by
  obtain ⟨hlt, -⟩ := List.getElem?_eq_some_iff.mp hnew
  have hret := SampleRing.retained_pos hp
  have hfirst : r.Window zs.length (r.first zs) :=
    ⟨le_rfl, (List.getElem?_eq_some_iff.mp hold).1⟩
  have hlast : r.Window zs.length (zs.length - 1) := SampleRing.window_iff.mpr ⟨hlt, by omega⟩
  unfold SampleRing.oldest SampleRing.newest SampleRing.lowest
  rw [h.head]
  exact ⟨(h.holds _ _ hold hfirst).stamp, (h.holds _ _ hnew hlast).stamp⟩

/-- The pose of a sample of the window. -/
theorem SampleRing.Carries.poseOf (h : r.Carries m zs) {i : ℕ} {s : ℤ × Iso3 F}
    (hs : zs[i]? = some s) (hi : r.Window zs.length i) : r.poseOf m i = s.2 := by
  unfold SampleRing.poseOf
  rw [(h.holds i s hs hi).data, Iso3.fromBits_toBits]

/-! ## One sample per period -/

/-- The samples of `n` periods. -/
def periodic (start : ℤ) (period : ℕ) (poses : ℕ → Iso3 F) (n : ℕ) : List (ℤ × Iso3 F) :=
  (List.range n).map fun k : ℕ => (start + (k : ℤ) * (period : ℤ), poses k)

section Periodic

variable {start : ℤ} {period n : ℕ} {poses : ℕ → Iso3 F}

@[simp] theorem length_periodic : (periodic start period poses n).length = n := by
  simp [periodic]

theorem getElem?_periodic {k : ℕ} (hk : k < n) :
    (periodic start period poses n)[k]? = some (start + (k : ℤ) * (period : ℤ), poses k) := by
  simp [periodic, List.getElem?_range hk]

theorem pairwise_periodic : (periodic start period poses n).Pairwise fun a b => a.1 ≤ b.1 := by
  refine List.pairwise_map.mpr (List.pairwise_lt_range.imp fun hab => ?_)
  have hmul : (_ : ℤ) * (period : ℤ) ≤ _ * (period : ℤ) :=
    mul_le_mul_of_nonneg_right (Int.ofNat_le.mpr hab.le) (Int.natCast_nonneg _)
  simpa using hmul

/-- The window of a ring that has taken `n` periods. -/
theorem SampleRing.Carries.ends_periodic
    (h : r.Carries m (periodic start period poses n)) (hp : r.PowerOfTwo) (hn : 0 < n) :
    r.oldest m = start + ((n - min n r.retained : ℕ) : ℤ) * (period : ℤ) ∧
      r.newest m = start + ((n - 1 : ℕ) : ℤ) * (period : ℤ) := by
  have hret := SampleRing.retained_pos hp
  have hfirst : r.first (periodic start period poses n) = n - min n r.retained := by
    unfold SampleRing.first
    rw [length_periodic]
  have hold : (periodic start period poses n)[n - min n r.retained]? = _ :=
    getElem?_periodic (by omega)
  have hnew : (periodic start period poses n)[n - 1]? = _ := getElem?_periodic (by omega)
  exact h.ends hp (by rw [hfirst]; exact hold) (by rw [length_periodic]; exact hnew)

end Periodic

/-- How many samples, and how many periods, a rounded size leaves room for. -/
theorem retained_rounded {n : ℕ} (h1 : 1 ≤ n) (hn : n ≤ 2 ^ 31) (hr : r.capacity = nextPow2U32 n) :
    r.PowerOfTwo ∧ (n ≤ r.retained ↔ n = 1 ∨ ∀ k, n ≠ 2 ^ k) ∧
      (n ≤ r.retained - 1 ↔ ∀ k, n ≠ 2 ^ k ∧ n + 1 ≠ 2 ^ k) := by
  obtain ⟨j, hj, hle, hmin⟩ := nextPow2U32_spec hn
  rw [hj] at hr
  have hexp : ∀ k, n = 2 ^ k → j = k := fun k hk => eq_of_minimal hle hmin hk
  refine ⟨⟨j, hr⟩, ?_⟩
  unfold SampleRing.retained
  rw [hr]
  rcases Nat.eq_zero_or_pos j with rfl | hpos
  · -- one slot
    obtain rfl : n = 1 := by
      rw [pow_zero] at hle
      omega
    refine ⟨by simp, ?_⟩
    refine iff_of_false (by simp) fun h => (h 0).1 rfl
  · have htwo : 2 ≤ 2 ^ j := by
      calc 2 = 2 ^ 1 := rfl
        _ ≤ 2 ^ j := Nat.pow_le_pow_right (by decide) hpos
    have hhalf : 2 ^ (j - 1) < n := hmin (j - 1) (by omega)
    have hdouble : 2 ^ j = 2 * 2 ^ (j - 1) := by
      rw [← pow_succ']
      congr 1
      omega
    rw [if_pos (by omega)]
    have hone : n ≠ 1 := by
      have := Nat.one_le_two_pow (n := j - 1)
      omega
    refine ⟨?_, ?_⟩
    · constructor
      · intro h
        refine .inr fun k hk => ?_
        obtain rfl := hexp k hk
        omega
      · rintro (h | h)
        · exact absurd h hone
        · have hne := h j
          omega
    · constructor
      · intro h k
        refine ⟨fun hk => ?_, fun hk => ?_⟩
        · obtain rfl := hexp k hk
          omega
        · -- the next power of two is the capacity
          have hkj : k ≤ j := by
            by_contra hlt
            have := Nat.pow_le_pow_right (show 0 < 2 by decide) (show j + 1 ≤ k by omega)
            rw [pow_succ] at this
            omega
          have := Nat.pow_le_pow_right (show 0 < 2 by decide) hkj
          rcases Nat.lt_or_ge k j with hlt | hge
          · have := Nat.pow_le_pow_right (show 0 < 2 by decide) (show k ≤ j - 1 by omega)
            omega
          · obtain rfl : k = j := by omega
            omega
      · intro h
        have hj := h j
        omega

variable [Kernels F]

/-! ## How much a ring keeps -/

/-- After pushes in order, of any number, the stamps of the last `n` are answered. -/
def SampleRing.KeepsNewest (r : SampleRing F) (n : ℕ) : Prop :=
  ∀ (m : RingArena F) (zs : List (ℤ × Iso3 F)), (m r.edge).head = 0 → (m r.edge).published = [] →
    (zs.Pairwise fun a b => a.1 ≤ b.1) → zs.length < 2 ^ 63 →
    ∃ m', (r.pushUntilRefused zs).run RingOp.exec m = some (.ok (), m') ∧
      ∀ i s, zs[i]? = some s → zs.length ≤ i + n → ∀ interp, ∃ j s', i ≤ j ∧
        zs[j]? = some s' ∧ s'.1 = s.1 ∧
        (r.sample interp s.1 .error).run RingOp.exec m' = some (.ok s'.2, m')

/-- After one push per period, once they span `window`, every stamp from the newest back to
    `window` before it is answered. -/
def SampleRing.AnswersHistory (r : SampleRing F) (period window : ℕ) : Prop :=
  ∀ (m : RingArena F) (start : ℤ) (poses : ℕ → Iso3 F) (n : ℕ), (m r.edge).head = 0 →
    (m r.edge).published = [] → n + 1 < 2 ^ 63 → window ≤ n * period →
    ∃ m', (r.pushUntilRefused (periodic start period poses (n + 1))).run RingOp.exec m =
        some (.ok (), m') ∧
      ∀ t : ℤ, start + n * period - window ≤ t → t ≤ start + n * period → ∀ interp, ∃ p,
        (r.sample interp t .error).run RingOp.exec m' = some (.ok p, m')

/-- A ring keeps the samples it retains. -/
theorem keepsNewest_iff (hp : r.PowerOfTwo) {n : ℕ} (hn : n < 2 ^ 63) :
    r.KeepsNewest n ↔ n ≤ r.retained := by
  constructor
  · intro h
    by_contra hlong
    have hpos := SampleRing.retained_pos hp
    -- as many samples as the ring should keep, on a fresh one
    have hs : (periodic 0 1 (fun _ => Iso3.fromBits fun _ => (0 : F)) n).Pairwise
        fun a b => a.1 ≤ b.1 := pairwise_periodic
    obtain ⟨m', hrun, hall⟩ := h emptyArena _ rfl rfl hs (by rwa [length_periodic])
    obtain ⟨m'', hrun', hcarries⟩ := carries_of_fresh (m := emptyArena) hp rfl rfl hs
    obtain rfl : m' = m'' := congrArg Prod.snd (Option.some_inj.mp (hrun.symm.trans hrun'))
    have hset := hcarries.settled hp (List.ne_nil_of_length_pos (by rw [length_periodic]; omega)) hs
      (by rwa [length_periodic])
    obtain ⟨hold, -⟩ := hcarries.ends_periodic hp (by omega)
    -- the first of them is before the window
    obtain ⟨j, s', -, -, -, hsample⟩ := hall 0 _ (getElem?_periodic (by omega))
      (by rw [length_periodic, Nat.zero_add]) fun a _ _ => a
    rw [hset.sample_outside _ (.inl ?_)] at hsample
    · cases hsample
    · rw [hold]
      push_cast
      omega
  · intro hle m zs hhead hpub hs hlen
    obtain ⟨m', hrun, hcarries⟩ := carries_of_fresh hp hhead hpub hs
    refine ⟨m', hrun, fun i s hi hin interp => ?_⟩
    have hlt : i < zs.length := (List.getElem?_eq_some_iff.mp hi).1
    have hset := hcarries.settled hp (by rintro rfl; cases hi) hs hlen
    have hwin : r.Window zs.length i := SampleRing.window_iff.mpr ⟨hlt, by omega⟩
    obtain ⟨j, hij, hj, hsame, hsample⟩ :=
      hset.sample_stored interp .error (by rw [hcarries.head]; exact hwin)
    rw [hcarries.head] at hj
    have hget : zs[j]? = some zs[j] := List.getElem?_eq_getElem hj
    have hwin' : r.Window zs.length j := SampleRing.window_iff.mpr ⟨hj, by omega⟩
    rw [(hcarries.holds i s hi hwin).stamp, (hcarries.holds j _ hget hwin').stamp] at hsame
    rw [(hcarries.holds i s hi hwin).stamp, hcarries.poseOf hget hwin'] at hsample
    exact ⟨j, zs[j], hij, hget, hsame, hsample⟩

/-- The window of a ring starts late by what it does not retain. -/
theorem window_start {n ret : ℕ} (hret : 0 < ret) (period : ℕ) :
    ((n + 1 - min (n + 1) ret : ℕ) : ℤ) * (period : ℤ) =
      max 0 ((n : ℤ) * period - ((ret - 1) * period : ℕ)) := by
  rcases Nat.lt_or_ge n ret with hlt | hge
  · have h0 : n + 1 - min (n + 1) ret = 0 := by omega
    have hle : n * period ≤ (ret - 1) * period := Nat.mul_le_mul_right _ (by omega)
    rw [h0, max_eq_left]
    · simp
    · push_cast at hle ⊢
      have : ((n * period : ℕ) : ℤ) ≤ (((ret - 1) * period : ℕ) : ℤ) := Int.ofNat_le.mpr hle
      push_cast at this
      omega
  · have hsub : n + 1 - min (n + 1) ret = n - (ret - 1) := by omega
    have hle : (ret - 1) * period ≤ n * period := Nat.mul_le_mul_right _ (by omega)
    have hcast : ((n - (ret - 1) : ℕ) : ℤ) * (period : ℤ) =
        (n : ℤ) * period - ((ret - 1) * period : ℕ) := by
      rw [Nat.cast_sub (by omega), sub_mul]
      push_cast
      rfl
    rw [hsub, hcast, max_eq_right]
    have : (((ret - 1) * period : ℕ) : ℤ) ≤ ((n * period : ℕ) : ℤ) := Int.ofNat_le.mpr hle
    push_cast at this ⊢
    omega

/-- A ring answers over one period less than it retains samples. -/
theorem answersHistory_iff (hp : r.PowerOfTwo) {period window : ℕ}
    (hwindow : window ≤ 2 ^ 33 * period) :
    r.AnswersHistory period window ↔ window ≤ (r.retained - 1) * period := by
  have hpos := SampleRing.retained_pos hp
  constructor
  · intro h
    by_contra hlong
    -- many more samples than the ring retains, on a fresh one
    obtain ⟨m', hrun, hall⟩ := h emptyArena 0 (fun _ => Iso3.fromBits fun _ => 0) (2 ^ 33) rfl rfl
      (by decide) hwindow
    have hs : (periodic 0 period (fun _ => Iso3.fromBits fun _ => (0 : F)) (2 ^ 33 + 1)).Pairwise
        fun a b => a.1 ≤ b.1 := pairwise_periodic
    obtain ⟨m'', hrun', hcarries⟩ := carries_of_fresh (m := emptyArena) hp rfl rfl hs
    obtain rfl : m' = m'' := congrArg Prod.snd (Option.some_inj.mp (hrun.symm.trans hrun'))
    have hset := hcarries.settled hp (List.ne_nil_of_length_pos (by rw [length_periodic]; omega)) hs
      (by rw [length_periodic]; decide)
    obtain ⟨hold, -⟩ := hcarries.ends_periodic hp (by omega)
    rw [window_start hpos] at hold
    obtain ⟨p, hsample⟩ := hall (0 + (2 ^ 33 : ℕ) * period - window) le_rfl (by omega)
      fun a _ _ => a
    rw [hset.sample_outside _ (.inl ?_)] at hsample
    · cases hsample
    · rw [hold]
      refine lt_of_lt_of_le ?_ (add_le_add_right (le_max_right _ _) _)
      omega
  · intro hle m start poses n hhead hpub hn hspan
    have hs : (periodic start period poses (n + 1)).Pairwise fun a b => a.1 ≤ b.1 :=
      pairwise_periodic
    obtain ⟨m', hrun, hcarries⟩ := carries_of_fresh hp hhead hpub hs
    refine ⟨m', hrun, fun t hlo hhi interp => ?_⟩
    have hset := hcarries.settled hp (List.ne_nil_of_length_pos (by rw [length_periodic]; omega)) hs
      (by rwa [length_periodic])
    obtain ⟨hold, hnew⟩ := hcarries.ends_periodic hp (by omega)
    rw [window_start hpos] at hold
    refine hset.sample_inside interp .error ?_ (by rw [hnew]; exact hhi)
    rw [hold]
    have h1 : (window : ℤ) ≤ ((n * period : ℕ) : ℤ) := Int.ofNat_le.mpr hspan
    have h2 : (window : ℤ) ≤ (((r.retained - 1) * period : ℕ) : ℤ) := Int.ofNat_le.mpr hle
    push_cast at h1
    rcases max_choice (0 : ℤ) ((n : ℤ) * period - ((r.retained - 1) * period : ℕ)) with hmax | hmax
    · rw [hmax]
      omega
    · rw [hmax]
      omega

/-! ## The sizes -/

/-- `Capacity::slots` in its range. -/
theorem slots_keeps_iff {n : ℕ} (h1 : 1 ≤ n) (hn : n ≤ 2 ^ 31)
    (hr : r.capacity = (Capacity.slots n).get) :
    r.KeepsNewest n ↔ n = 1 ∨ ∀ k, n ≠ 2 ^ k := by
  obtain ⟨hp, hkeeps, -⟩ := retained_rounded h1 hn hr
  rw [keepsNewest_iff hp (by omega), hkeeps]

/-- `Capacity::history` in its range. -/
theorem history_answers_iff {rateHz secs : ℚ} (h1 : 1 ≤ rateHz * secs)
    (hn : rateHz * secs ≤ 2 ^ 31) (hr : r.capacity = (Capacity.history rateHz secs).get)
    {second period window : ℕ} (hperiod : rateHz * period = second)
    (hwindow : secs * second = window)
    (hsecond : 0 < second) :
    r.AnswersHistory period window ↔
      ∀ k : ℕ, ⌈rateHz * secs⌉ ≠ 2 ^ k ∧ ⌈rateHz * secs⌉ + 1 ≠ 2 ^ k := by
  -- the number of slots asked for
  obtain ⟨n, hceil⟩ := Int.eq_ofNat_of_zero_le (Int.ceil_nonneg (zero_le_one.trans h1))
  have hn1 : 1 ≤ n := by
    have hpos : 0 < ⌈rateHz * secs⌉ := Int.ceil_pos.mpr (zero_lt_one.trans_le h1)
    omega
  have hn31 : n ≤ 2 ^ 31 := by
    have hle : ⌈rateHz * secs⌉ ≤ 2 ^ 31 := Int.ceil_le.mpr (by exact_mod_cast hn)
    omega
  have hget : (Capacity.history rateHz secs).get = nextPow2U32 n := by
    unfold Capacity.history
    rw [hceil]
    dsimp only
    rw [if_pos (by omega), if_neg (by omega), Int.toNat_natCast]
  rw [hget] at hr
  obtain ⟨hp, -, hspan⟩ := retained_rounded hn1 hn31 hr
  -- the window in periods
  have hperiod0 : (0 : ℚ) < period := by
    have hne : period ≠ 0 := by
      rintro rfl
      rw [Nat.cast_zero, mul_zero] at hperiod
      exact hsecond.ne' (by exact_mod_cast hperiod.symm)
    exact_mod_cast Nat.pos_of_ne_zero hne
  have hratio : (window : ℚ) = rateHz * secs * period := by
    rw [← hwindow, ← hperiod]
    ring
  have hfits : ∀ k : ℕ, window ≤ k * period ↔ rateHz * secs ≤ k := by
    intro k
    rw [← Nat.cast_le (α := ℚ), hratio, Nat.cast_mul, mul_le_mul_iff_of_pos_right hperiod0]
  have hmany : window ≤ 2 ^ 33 * period := (hfits (2 ^ 33)).mpr (hn.trans (by norm_num))
  rw [answersHistory_iff hp hmany, hfits, ← Int.cast_natCast (R := ℚ), ← Int.ceil_le, hceil]
  rw [show ((n : ℤ) ≤ ((r.retained - 1 : ℕ) : ℤ)) ↔ n ≤ r.retained - 1 from Int.ofNat_le, hspan]
  refine forall_congr' fun k => ?_
  norm_cast

/-- **Main theorem.** A ring of `slots(n)` keeps the last `n` samples exactly when `n` is one
    or no power of two; a ring of `history(rate, secs)` that takes one sample per period
    answers back to `secs` before the newest exactly when the number of samples in `secs`,
    rounded up, is neither a power of two nor one less. Stamps count in a unit of which a
    period and the history are whole numbers. -/
theorem ring_size_iff (e : EdgeId) :
    (∀ n, 1 ≤ n → n ≤ 2 ^ 31 →
      ((⟨e, (Bridge.RingSize.slots n).capacity.get⟩ : SampleRing F).KeepsNewest n ↔
        n = 1 ∨ ∀ k, n ≠ 2 ^ k)) ∧
    ∀ rateHz secs : ℚ, 1 ≤ rateHz * secs → rateHz * secs ≤ 2 ^ 31 →
      ∀ second period window : ℕ, 0 < second → rateHz * period = second →
        secs * second = window →
      ((⟨e, (Bridge.RingSize.history rateHz secs).capacity.get⟩ : SampleRing F).AnswersHistory
          period window ↔
        ∀ k : ℕ, ⌈rateHz * secs⌉ ≠ 2 ^ k ∧ ⌈rateHz * secs⌉ + 1 ≠ 2 ^ k) :=
  ⟨fun _ h1 hn => slots_keeps_iff h1 hn rfl, fun _ _ h1 hn _ _ _ hsecond hperiod hwindow =>
    history_answers_iff h1 hn rfl hperiod hwindow hsecond⟩

end Ring

/-- A ring for five samples, and one for half a second at 10 Hz. -/
theorem ring_size_iff_five :
    (⟨0, (Bridge.RingSize.slots 5).capacity.get⟩ : SampleRing ℚ).KeepsNewest 5 ∧
    (⟨0, (Bridge.RingSize.history 10 (1 / 2)).capacity.get⟩ : SampleRing ℚ).AnswersHistory
      100 500 := by
  have hpow : ∀ k, 5 ≠ 2 ^ k ∧ 5 + 1 ≠ 2 ^ k := by
    intro k
    rcases Nat.lt_or_ge k 3 with hlt | hge
    · interval_cases k <;> decide
    · have hle : 2 ^ 3 ≤ 2 ^ k := Nat.pow_le_pow_right (by decide) hge
      omega
  refine ⟨((ring_size_iff 0).1 5 (by decide) (by decide)).mpr (.inr fun k => (hpow k).1), ?_⟩
  refine ((ring_size_iff 0).2 10 (1 / 2) (by norm_num) (by norm_num) 1000 100 500 (by decide)
    (by norm_num) (by norm_num)).mpr fun k => ?_
  have hceil : ⌈(10 : ℚ) * (1 / 2)⌉ = 5 := by norm_num
  rw [hceil]
  exact_mod_cast hpow k

/-- A ring for two samples keeps one; a ring for three seconds at 1 Hz answers over two. -/
theorem ring_size_short :
    ¬ (⟨0, (Bridge.RingSize.slots 2).capacity.get⟩ : SampleRing ℚ).KeepsNewest 2 ∧
    ¬ (⟨0, (Bridge.RingSize.history 1 3).capacity.get⟩ : SampleRing ℚ).AnswersHistory 1 3 := by
  refine ⟨fun h => ?_, fun h => ?_⟩
  · rcases (slots_keeps_iff (by decide) (by decide) rfl).mp h with h | h
    · exact absurd h (by decide)
    · exact h 1 rfl
  · have hperiod : (1 : ℚ) * (1 : ℕ) = (1 : ℕ) := by norm_num
    have hwindow : (3 : ℚ) * (1 : ℕ) = (3 : ℕ) := by norm_num
    have hall := (history_answers_iff (by norm_num) (by norm_num) rfl hperiod hwindow
      (by decide)).mp h
    exact (hall 2).2 (by norm_num)

end TfTree
