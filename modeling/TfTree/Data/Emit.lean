import Mathlib.Data.List.Infix
import Mathlib.Tactic.Common
import TfTree.Data.Numerals

/-!
# Programs that emit operations

A program takes the answers of its environment one after the other and emits
operations. It ends with a value, with an error, or without a result when the answers
run out: then it was stopped.

Results:
* `Emits.pure`, `Emits.bind`: what a composed program emits.
* `Completes.pure`, `Completes.bind`: when it can end with its value.
-/

namespace TfTree.Data

/-- What a run emitted and how it ended; `none` when it was stopped. -/
structure Outcome (ω ρ ε α : Type) where
  ops : List ω
  result : Option (Except ε (α × List ρ))

/-- A program with operations `ω`, answers `ρ` and errors `ε`. -/
def Emit (ω ρ ε α : Type) := List ρ → Outcome ω ρ ε α

variable {ω ρ ε α β : Type}

namespace Emit

protected def pure (a : α) : Emit ω ρ ε α := fun answers => ⟨[], some (.ok (a, answers))⟩

protected def bind (m : Emit ω ρ ε α) (f : α → Emit ω ρ ε β) : Emit ω ρ ε β := fun answers =>
  match (m answers).result with
  | none => ⟨(m answers).ops, none⟩
  | some (.error e) => ⟨(m answers).ops, some (.error e)⟩
  | some (.ok (a, rest)) => ⟨(m answers).ops ++ (f a rest).ops, (f a rest).result⟩

instance : Monad (Emit ω ρ ε) where
  pure := Emit.pure
  bind := Emit.bind

/-- A value computed without an operation. -/
def ofExcept (r : Except ε α) : Emit ω ρ ε α := fun answers => ⟨[], some (r.map (·, answers))⟩

end Emit

/-- A run emits a prefix of `ops`; one that ends with a value emits all of them, and the
    value is `a`. -/
def Emits (m : Emit ω ρ ε α) (ops : List ω) (a : α) : Prop :=
  ∀ answers, (m answers).ops <+: ops ∧
    ∀ b rest, (m answers).result = some (.ok (b, rest)) → (m answers).ops = ops ∧ b = a

theorem Emits.pure (a : α) : Emits (pure a : Emit ω ρ ε α) [] a := by
  intro answers
  refine ⟨List.nil_prefix, fun b rest h => ⟨rfl, ?_⟩⟩
  cases h
  rfl

theorem Emits.bind {m : Emit ω ρ ε α} {f : α → Emit ω ρ ε β} {ops ops' : List ω} {a : α} {b : β}
    (hm : Emits m ops a) (hf : Emits (f a) ops' b) : Emits (m >>= f) (ops ++ ops') b := by
  intro answers
  obtain ⟨hbegin, hdone⟩ := hm answers
  have hshort : (m answers).ops <+: ops ++ ops' := hbegin.trans (List.prefix_append _ _)
  show (Emit.bind m f answers).ops <+: _ ∧ ∀ c rest,
    (Emit.bind m f answers).result = some (.ok (c, rest)) →
      (Emit.bind m f answers).ops = ops ++ ops' ∧ c = b
  unfold Emit.bind
  cases hr : (m answers).result with
  | none => exact ⟨hshort, fun c rest h => by cases h⟩
  | some r =>
    cases r with
    | error e => exact ⟨hshort, fun c rest h => by cases h⟩
    | ok done =>
      obtain ⟨hops, hval⟩ := hdone done.1 done.2 hr
      dsimp only
      rw [hops, hval]
      obtain ⟨hbegin', hdone'⟩ := hf done.2
      refine ⟨(List.prefix_append_right_inj _).mpr hbegin', fun c rest h => ?_⟩
      obtain ⟨hops', hval'⟩ := hdone' c rest h
      exact ⟨by rw [hops'], hval'⟩

theorem Emits.ofExcept {r : Except ε α} {a : α} (h : ∀ b, r = .ok b → b = a) :
    Emits (Emit.ofExcept r : Emit ω ρ ε α) [] a := by
  intro answers
  refine ⟨List.nil_prefix, fun b rest hr => ⟨rfl, h b ?_⟩⟩
  cases r with
  | error e => cases hr
  | ok c =>
    cases hr
    rfl

/-- Some answers let the program end with the value, and with the answers that follow. -/
def Completes (m : Emit ω ρ ε α) (a : α) : Prop :=
  ∀ rest, ∃ answers, (m answers).result = some (.ok (a, rest))

theorem Completes.pure (a : α) : Completes (pure a : Emit ω ρ ε α) a := fun rest => ⟨rest, rfl⟩

theorem Completes.bind {m : Emit ω ρ ε α} {f : α → Emit ω ρ ε β} {a : α} {b : β}
    (hm : Completes m a) (hf : Completes (f a) b) : Completes (m >>= f) b := by
  intro rest
  obtain ⟨answers', hf⟩ := hf rest
  obtain ⟨answers, hm⟩ := hm answers'
  refine ⟨answers, ?_⟩
  show (Emit.bind m f answers).result = _
  unfold Emit.bind
  rw [hm]
  exact hf

theorem Completes.ofExcept {r : Except ε α} {a : α} (h : r = .ok a) :
    Completes (Emit.ofExcept r : Emit ω ρ ε α) a := by
  intro rest
  rw [h]
  exact ⟨rest, rfl⟩

end TfTree.Data
