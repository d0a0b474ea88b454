import Mathlib
import TfTree.Data.Numerals

/-!
# Readings

Programs that read values from a state, and the relation of start, value and end that such
a program computes.

* `Parses f G`: `f` never panics, and it returns exactly what the relation `G` allows.
* `Parses.bind`, `Parses.times`: the relation of a sequence and of a counted loop.
-/

namespace TfTree.Data

/-- How a reading stops without a value: with the error it returns, or with a panic. -/
inductive Stop (ε : Type) where
  | error (e : ε)
  | panic
  deriving DecidableEq, Repr

/-- A program that reads from a state. -/
abbrev Reading (ε σ α : Type) := StateT σ (Except (Stop ε)) α

variable {ε σ α β : Type}

namespace Reading

/-- `return Err(e)`. -/
def fail (e : ε) : Reading ε σ α := fun _ => .error (.error e)

/-- A value, or the error that it is missing. -/
def ofOption (o : Option α) (e : ε) : Reading ε σ α :=
  match o with
  | some x => pure x
  | none => fail e

/-- The loop `for _ in 0..n`, which keeps what each turn reads. -/
def times (f : Reading ε σ α) : ℕ → Reading ε σ (List α)
  | 0 => pure []
  | n + 1 => do
    let x ← f
    let xs ← times f n
    pure (x :: xs)

end Reading

/-- `b[i]`. -/
def index (b : List α) (i : ℕ) : Except (Stop ε) α :=
  match b[i]? with
  | some x => .ok x
  | none => .error .panic

/-- `&b[i..j]`. -/
def slice (b : List α) (i j : ℕ) : Except (Stop ε) (List α) :=
  if i ≤ j ∧ j ≤ b.length then .ok ((b.drop i).take (j - i)) else .error .panic

/-- The values that a relation reads one behind the other. -/
inductive Many (G : σ → α → σ → Prop) : σ → List α → σ → Prop where
  | nil (s : σ) : Many G s [] s
  | cons {s s' s'' : σ} {x : α} {xs : List α} :
      G s x s' → Many G s' xs s'' → Many G s (x :: xs) s''

/-- From `s` the program does not panic, and returns exactly what the relation allows. -/
def ParsesAt (f : Reading ε σ α) (G : σ → α → σ → Prop) (s : σ) : Prop :=
  f s ≠ .error .panic ∧ ∀ x s', f s = .ok (x, s') ↔ G s x s'

/-- The program never panics, and returns exactly what the relation allows. -/
def Parses (f : Reading ε σ α) (G : σ → α → σ → Prop) : Prop := ∀ s, ParsesAt f G s

theorem index_of_lt {b : List α} {i : ℕ} (h : i < b.length) :
    (index b i : Except (Stop ε) α) = .ok b[i] := by
  rw [index, List.getElem?_eq_getElem h]

theorem slice_of_le {b : List α} {i j : ℕ} (hij : i ≤ j) (hj : j ≤ b.length) :
    (slice b i j : Except (Stop ε) (List α)) = .ok ((b.drop i).take (j - i)) :=
  if_pos ⟨hij, hj⟩

/-- One reading behind another, which may count on what the first has read. -/
theorem ParsesAt.bind {f : Reading ε σ α} {G : σ → α → σ → Prop} {k : α → Reading ε σ β}
    {H : α → σ → β → σ → Prop} {s : σ} (hf : ParsesAt f G s)
    (hk : ∀ x s', G s x s' → ParsesAt (k x) (H x) s') :
    ParsesAt (f >>= k) (fun s y s'' => ∃ x s', G s x s' ∧ H x s' y s'') s := by
  unfold ParsesAt
  have hrun : (f >>= k) s = (f s).bind fun p => k p.1 p.2 := rfl
  rw [hrun]
  rcases hs : f s with stop | ⟨x, s'⟩
  · constructor
    · intro h
      apply hf.1
      rw [hs]
      cases stop with
      | error e => cases h
      | panic => rfl
    · intro y s''
      constructor
      · intro h
        cases h
      · rintro ⟨x, s', hx, -⟩
        rw [(hf.2 x s').mpr hx] at hs
        cases hs
  · have hx : G s x s' := (hf.2 x s').mp hs
    refine ⟨(hk x s' hx).1, fun y s'' => ?_⟩
    change k x s' = _ ↔ _
    rw [(hk x s' hx).2]
    constructor
    · intro hy
      exact ⟨x, s', hx, hy⟩
    · rintro ⟨x', t, hx', hy⟩
      rw [(hf.2 x' t).mpr hx'] at hs
      cases hs
      exact hy

theorem ParsesAt.congr {f : Reading ε σ α} {G G' : σ → α → σ → Prop} {s : σ}
    (h : ParsesAt f G s) (hiff : ∀ x s', G s x s' ↔ G' s x s') : ParsesAt f G' s :=
  ⟨h.1, fun x s' => (h.2 x s').trans (hiff x s')⟩

theorem ParsesAt.of_run {f g : Reading ε σ α} {G : σ → α → σ → Prop} {s : σ} (hrun : f s = g s)
    (h : ParsesAt g G s) : ParsesAt f G s := by
  rw [ParsesAt, hrun]
  exact h

/-- A run whose end is dropped. -/
theorem ParsesAt.fst {f : Reading ε σ α} {G : σ → α → σ → Prop} {s : σ} (h : ParsesAt f G s) :
    (f s).map Prod.fst ≠ .error .panic ∧
      ∀ x, (f s).map Prod.fst = .ok x ↔ ∃ s', G s x s' := by
  rcases hs : f s with stop | ⟨x, s'⟩
  · constructor
    · rintro ⟨⟩
      exact h.1 hs
    · intro x
      constructor
      · intro hok
        cases hok
      · rintro ⟨s', hx⟩
        rw [(h.2 x s').mpr hx] at hs
        cases hs
  · refine ⟨(fun hstop => nomatch hstop), fun y => ?_⟩
    constructor
    · rintro ⟨⟩
      exact ⟨s', (h.2 x s').mp hs⟩
    · rintro ⟨t, hy⟩
      rw [(h.2 y t).mpr hy] at hs
      cases hs
      rfl

namespace Parses

variable {f : Reading ε σ α} {G : σ → α → σ → Prop}

theorem congr {G' : σ → α → σ → Prop} (h : Parses f G) (hiff : ∀ s x s', G s x s' ↔ G' s x s') :
    Parses f G' :=
  fun s => (h s).congr (hiff s)

/-- A program that always returns. -/
theorem total {a : σ → α} {t : σ → σ} (h : ∀ s, f s = .ok (a s, t s)) :
    Parses f fun s x s' => x = a s ∧ s' = t s := by
  intro s
  unfold ParsesAt
  rw [h s]
  refine ⟨(fun hok => nomatch hok), fun x s' => ?_⟩
  rw [Except.ok.injEq, Prod.mk.injEq, eq_comm, eq_comm (a := t s)]

theorem pure (x : α) : Parses (Pure.pure x : Reading ε σ α) fun s y s' => y = x ∧ s' = s :=
  total fun _ => rfl

theorem fail (e : ε) : Parses (Reading.fail e : Reading ε σ α) fun _ _ _ => False := by
  intro s
  refine ⟨fun h => ?_, fun x s' => ⟨fun h => ?_, False.elim⟩⟩
  · cases h
  · cases h

theorem get : Parses (MonadState.get : Reading ε σ σ) fun s x s' => x = s ∧ s' = s :=
  total fun _ => rfl

theorem modify (g : σ → σ) :
    Parses (modify g : Reading ε σ PUnit) fun s _ s' => s' = g s :=
  (total (a := fun _ => PUnit.unit) (t := g) fun _ => rfl).congr fun _ _ _ => and_iff_right rfl

/-- A step that does not read, and does not fail. -/
theorem lift {c : Except (Stop ε) α} {x : α} (h : c = .ok x) :
    Parses (liftM c : Reading ε σ α) fun s y s' => y = x ∧ s' = s := by
  subst h
  exact Parses.pure x

/-- One reading behind another. -/
theorem bind {k : α → Reading ε σ β} {H : α → σ → β → σ → Prop} (hf : Parses f G)
    (hk : ∀ x, Parses (k x) (H x)) :
    Parses (f >>= k) fun s y s'' => ∃ x s', G s x s' ∧ H x s' y s'' :=
  fun s => (hf s).bind fun x s' _ => hk x s'

/-- A branch on a condition that does not read. -/
theorem ite {c : Prop} [Decidable c] {g : Reading ε σ α} {H : σ → α → σ → Prop}
    (hf : c → Parses f G) (hg : ¬ c → Parses g H) :
    Parses (if c then f else g) fun s x s' => if c then G s x s' else H s x s' := by
  by_cases h : c
  · simpa only [if_pos h] using hf h
  · simpa only [if_neg h] using hg h

theorem ofOption (o : Option α) (e : ε) :
    Parses (Reading.ofOption o e : Reading ε σ α) fun s y s' => o = some y ∧ s' = s := by
  cases o with
  | some x => exact (Parses.pure x).congr fun s y s' => by rw [Option.some.injEq, eq_comm]
  | none => exact (Parses.fail e).congr fun s y s' => ⟨False.elim, fun h => nomatch h.1⟩

theorem times (hf : Parses f G) (n : ℕ) :
    Parses (f.times n) fun s xs s' => xs.length = n ∧ Many G s xs s' := by
  induction n with
  | zero =>
    refine (Parses.pure []).congr fun s xs s' => ?_
    constructor
    · rintro ⟨rfl, rfl⟩
      exact ⟨rfl, .nil _⟩
    · rintro ⟨hlen, hmany⟩
      cases hmany with
      | nil => exact ⟨rfl, rfl⟩
      | cons _ _ => cases hlen
  | succ n ih =>
    refine (hf.bind fun x => ih.bind fun xs => Parses.pure (x :: xs)).congr fun s ys s' => ?_
    constructor
    · rintro ⟨x, t, hx, xs, u, ⟨hlen, hxs⟩, rfl, rfl⟩
      exact ⟨congrArg (· + 1) hlen, .cons hx hxs⟩
    · rintro ⟨hlen, hmany⟩
      cases hmany with
      | nil => cases hlen
      | cons hx hxs => exact ⟨_, _, hx, _, _, ⟨Nat.succ.inj hlen, hxs⟩, rfl, rfl⟩

end Parses

end TfTree.Data
