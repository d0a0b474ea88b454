import Mathlib.Tactic.Common
import TfTree.Data.Numerals

/-!
# Fallible maps that keep their prefix

`okPrefix f xs` is what a loop over `xs` has computed when it stops at its first
error: the values before it, and the error.

Results:
* `okPrefix_spec`: the values and the error in terms of positions of the list.
* `okPrefix_append`: a list taken in two parts.
* `foldlM_keeps`: a loop whose steps all go through.
* `okPrefix_bind`: two passes, the second over the values the first one kept, are
  one pass of the composed map.
-/

namespace TfTree.Data

variable {ι ε α β γ : Type}

theorem except_bind_eq_ok {x : Except ε α} {k : α → Except ε β} {y : β} :
    (x >>= k) = .ok y ↔ ∃ v, x = .ok v ∧ k v = .ok y := by
  cases x with
  | error e => simp [bind, Except.bind]
  | ok v => simp [bind, Except.bind]

theorem toOption_eq_some {x : Except ε α} {a : α} : x.toOption = some a ↔ x = .ok a := by
  cases x with
  | error e => exact ⟨nofun, nofun⟩
  | ok v => exact ⟨fun h => congrArg Except.ok (Option.some_inj.mp h),
      fun h => congrArg some (Except.ok.inj h)⟩

theorem mapM_ok {f : ι → Except ε α} {g : ι → α} {xs : List ι} (h : ∀ x ∈ xs, f x = .ok (g x)) :
    xs.mapM f = .ok (xs.map g) := by
  induction xs with
  | nil => rfl
  | cons x xs ih =>
    rw [List.forall_mem_cons] at h
    rw [List.mapM_cons, h.1, ih h.2]
    rfl

theorem mem_of_mapM_ok {f : ι → Except ε α} {xs : List ι} {ys : List α} (h : xs.mapM f = .ok ys) :
    ∀ y ∈ ys, ∃ x ∈ xs, f x = .ok y := by
  induction xs generalizing ys with
  | nil =>
    cases h
    exact fun y hy => absurd hy List.not_mem_nil
  | cons x xs ih =>
    rw [List.mapM_cons] at h
    obtain ⟨y, hy, h⟩ := except_bind_eq_ok.mp h
    obtain ⟨rest, hrest, h⟩ := except_bind_eq_ok.mp h
    cases h
    rw [List.forall_mem_cons]
    refine ⟨⟨x, List.mem_cons_self, hy⟩, fun z hz => ?_⟩
    obtain ⟨w, hw, hfw⟩ := ih hrest z hz
    exact ⟨w, List.mem_cons_of_mem _ hw, hfw⟩

/-- A loop goes through, and keeps what each of its steps keeps of what came before. -/
theorem foldlM_keeps {m : Type → Type} [Monad m] [LawfulMonad m] {σ : Type} {step : σ → ι → m σ}
    {P : List ι → σ → Prop} {xs : List ι}
    (hstep : ∀ done x rest, xs = done ++ x :: rest → ∀ st, P done st →
      ∃ st', step st x = pure st' ∧ P (done ++ [x]) st')
    (st : σ) (h : P [] st) : ∃ st', xs.foldlM step st = pure st' ∧ P xs st' := by
  suffices hloop : ∀ rest done, xs = done ++ rest → ∀ st, P done st →
      ∃ st', rest.foldlM step st = pure st' ∧ P xs st' from hloop xs [] rfl st h
  intro rest
  induction rest with
  | nil =>
    intro done hxs st hdone
    rw [List.append_nil] at hxs
    exact ⟨st, rfl, hxs ▸ hdone⟩
  | cons x rest ih =>
    intro done hxs st hdone
    obtain ⟨st₁, hst₁, hdone₁⟩ := hstep done x rest hxs st hdone
    obtain ⟨st', hst', hall⟩ :=
      ih (done ++ [x]) (hxs.trans (List.append_cons done x rest)) st₁ hdone₁
    refine ⟨st', ?_, hall⟩
    rw [List.foldlM_cons, hst₁, pure_bind]
    exact hst'

/-- The values of `f` before its first error on the list, and that error. -/
def okPrefix (f : ι → Except ε α) : List ι → List α × Option ε
  | [] => ([], none)
  | x :: xs =>
    match f x with
    | .ok a => (a :: (okPrefix f xs).1, (okPrefix f xs).2)
    | .error e => ([], some e)

variable {f : ι → Except ε α} {g : ι → Except ε β} {x : ι} {xs ys : List ι} {a : α} {e : ε}

@[simp] theorem okPrefix_nil : okPrefix f [] = ([], none) := rfl

theorem okPrefix_cons (f : ι → Except ε α) (x : ι) (xs : List ι) : okPrefix f (x :: xs) =
    match f x with
    | .ok a => (a :: (okPrefix f xs).1, (okPrefix f xs).2)
    | .error e => ([], some e) := rfl

theorem okPrefix_cons_ok (h : f x = .ok a) :
    okPrefix f (x :: xs) = (a :: (okPrefix f xs).1, (okPrefix f xs).2) := by
  rw [okPrefix_cons, h]

theorem okPrefix_cons_error (h : f x = .error e) : okPrefix f (x :: xs) = ([], some e) := by
  rw [okPrefix_cons, h]

/-- A map without errors keeps the whole list. -/
theorem okPrefix_pure (f : ι → α) (xs : List ι) :
    okPrefix (fun x => (.ok (f x) : Except ε α)) xs = (xs.map f, none) := by
  induction xs with
  | nil => rfl
  | cons x xs ih =>
    rw [okPrefix_cons_ok (f := fun x => (.ok (f x) : Except ε α)) rfl, ih, List.map_cons]

theorem okPrefix_map (h : α → β) (xs : List ι) :
    okPrefix (fun x => (f x).map h) xs = ((okPrefix f xs).1.map h, (okPrefix f xs).2) := by
  induction xs with
  | nil => rfl
  | cons x xs ih =>
    cases hf : f x with
    | error e =>
      rw [okPrefix_cons_error hf, okPrefix_cons_error (f := fun x => (f x).map h) (by rw [hf]; rfl)]
      rfl
    | ok a =>
      rw [okPrefix_cons_ok hf, okPrefix_cons_ok (f := fun x => (f x).map h) (by rw [hf]; rfl), ih]
      rfl

/-- The values are those of the first positions, and the error is that of the first
    position without one. -/
theorem okPrefix_spec (f : ι → Except ε α) (xs : List ι) :
    (okPrefix f xs).1.length ≤ xs.length ∧
    (∀ j (hj : j < (okPrefix f xs).1.length),
      ∃ x, xs[j]? = some x ∧ f x = .ok (okPrefix f xs).1[j]) ∧
    ((okPrefix f xs).2 = none → (okPrefix f xs).1.length = xs.length) ∧
    (∀ e, (okPrefix f xs).2 = some e →
      ∃ x, xs[(okPrefix f xs).1.length]? = some x ∧ f x = .error e) := by
  induction xs with
  | nil =>
    exact ⟨Nat.le_refl _, fun j hj => absurd hj (Nat.not_lt_zero j), fun _ => rfl,
      fun _ h => by cases h⟩
  | cons x xs ih =>
    cases hx : f x with
    | error e =>
      rw [okPrefix_cons_error hx]
      refine ⟨Nat.zero_le _, fun j hj => absurd hj (Nat.not_lt_zero j), ?_, ?_⟩
      · intro h
        cases h
      · rintro e' h
        cases h
        exact ⟨x, rfl, hx⟩
    | ok a =>
      obtain ⟨hle, hval, hnone, hsome⟩ := ih
      rw [okPrefix_cons_ok hx]
      refine ⟨Nat.succ_le_succ hle, fun j hj => ?_, fun h => congrArg Nat.succ (hnone h), ?_⟩
      · cases j with
        | zero => exact ⟨x, rfl, hx⟩
        | succ j => exact hval j (Nat.lt_of_succ_lt_succ hj)
      · intro e h
        exact hsome e h

/-- A list taken in two parts: the second part matters only when the first has no
    error. -/
theorem okPrefix_append (f : ι → Except ε α) (xs ys : List ι) : okPrefix f (xs ++ ys) =
    match okPrefix f xs with
    | (as, some e) => (as, some e)
    | (as, none) => (as ++ (okPrefix f ys).1, (okPrefix f ys).2) := by
  induction xs with
  | nil => rfl
  | cons x xs ih =>
    rw [List.cons_append]
    cases hx : f x with
    | error e => rw [okPrefix_cons_error hx, okPrefix_cons_error hx]
    | ok a =>
      rw [okPrefix_cons_ok hx, okPrefix_cons_ok hx, ih]
      obtain ⟨as, err⟩ := okPrefix f xs
      cases err <;> rfl

/-- A second pass over what the first one kept: its error, if there is one, is at an
    earlier position than the first pass's. -/
theorem okPrefix_bind (comb : α → β → γ) (xs : List ι) :
    okPrefix (fun x => f x >>= fun a => (g x).map (comb a)) xs =
      (List.zipWith comb (okPrefix f xs).1 (okPrefix g (xs.take (okPrefix f xs).1.length)).1,
        (okPrefix g (xs.take (okPrefix f xs).1.length)).2 <|> (okPrefix f xs).2) := by
  generalize hk : (fun x => f x >>= fun a => (g x).map (comb a)) = k
  have hk : ∀ x, k x = f x >>= fun a => (g x).map (comb a) := fun x => by rw [← hk]
  induction xs with
  | nil => rfl
  | cons x xs ih =>
    cases hf : f x with
    | error e =>
      have hbind : k x = .error e := by rw [hk, hf]; rfl
      rw [okPrefix_cons_error hbind, okPrefix_cons_error hf]
      rfl
    | ok a =>
      rw [okPrefix_cons_ok hf, List.length_cons, List.take_succ_cons]
      cases hg : g x with
      | error e =>
        have hbind : k x = .error e := by rw [hk, hf, hg]; rfl
        rw [okPrefix_cons_error hbind, okPrefix_cons_error hg]
        rfl
      | ok b =>
        have hbind : k x = .ok (comb a b) := by rw [hk, hf, hg]; rfl
        rw [okPrefix_cons_ok hbind, okPrefix_cons_ok hg, ih]
        rfl

/-- A map that continues the first one stops where it stopped, if it kept nothing. -/
theorem okPrefix_bind_of_nil (k : ι → α → Except ε β)
    (hxs : xs ≠ []) (hnil : (okPrefix f xs).1 = []) :
    okPrefix (fun x => f x >>= k x) xs = ([], (okPrefix f xs).2) := by
  obtain ⟨x, xs, rfl⟩ := List.exists_cons_of_ne_nil hxs
  cases hf : f x with
  | ok a =>
    rw [okPrefix_cons_ok hf] at hnil
    cases hnil
  | error e =>
    have hbind : (f x >>= k x) = .error e := by rw [hf]; rfl
    rw [okPrefix_cons_error (f := fun x => f x >>= k x) hbind, okPrefix_cons_error hf]

end TfTree.Data
