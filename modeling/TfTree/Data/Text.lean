import Mathlib.Data.List.DropRight
import Mathlib.Tactic.Common
import Mathlib.Algebra.Group.Nat.Defs
import Mathlib.Algebra.Group.Int.Defs
import TfTree.Data.Numerals

/-!
# Text

The functions of the standard `str` that the parsers of the repository use, over
lists of characters.

Results:
* `lines_append`: the first line of a text.
* `splitOnce_append`: a text is split at the first occurrence of a character.
* `trim_solid`, `trimStart_solid`: text without white space at its ends is kept.
* `parseDigits_digits`: the decimal digits of a number are read back.
-/

namespace TfTree.Data

/-- `char::is_whitespace`: the Unicode property `White_Space`. -/
def isWhitespace (c : Char) : Bool :=
  let n := c.toNat
  (9 ≤ n && n ≤ 13) || n == 0x20 || n == 0x85 || n == 0xA0 || n == 0x1680 ||
    (0x2000 ≤ n && n ≤ 0x200A) || n == 0x2028 || n == 0x2029 || n == 0x202F || n == 0x205F ||
    n == 0x3000

/-- `char::is_control`: the Unicode category `Cc`. -/
def isControl (c : Char) : Bool :=
  let n := c.toNat
  n ≤ 0x1F || (0x7F ≤ n && n ≤ 0x9F)

/-- `str::trim_start`. -/
def trimStart (s : List Char) : List Char := s.dropWhile isWhitespace

/-- `str::trim_end`. -/
def trimEnd (s : List Char) : List Char := s.rdropWhile isWhitespace

/-- `str::trim`. -/
def trim (s : List Char) : List Char := trimEnd (trimStart s)

/-- `str::trim_end_matches` of one character. -/
def trimEndMatches (c : Char) (s : List Char) : List Char := s.rdropWhile (· == c)

/-- A line without the carriage return in front of its line feed. -/
def stripCr (s : List Char) : List Char := if s.getLast? = some '\r' then s.dropLast else s

/-- The lines of a text whose first line starts with `acc`, the last character first. -/
def linesFrom (acc : List Char) : List Char → List (List Char)
  | [] => if acc = [] then [] else [acc.reverse]
  | '\n' :: s => stripCr acc.reverse :: linesFrom [] s
  | c :: s => linesFrom (c :: acc) s

/-- `str::lines`. -/
def lines (s : List Char) : List (List Char) := linesFrom [] s

/-- `str::split_once`: the text before and after the first occurrence of `pat`. -/
def splitOnce (pat : List Char) : List Char → Option (List Char × List Char)
  | [] => if pat = [] then some ([], []) else none
  | c :: s =>
    if pat.isPrefixOf (c :: s) then some ([], (c :: s).drop pat.length)
    else (splitOnce pat s).map fun p => (c :: p.1, p.2)

/-- The decimal digits of a number. -/
def digits (n : ℕ) : List Char := Nat.toDigits 10 n

/-- A sequence of decimal digits, at least one. -/
def parseDigits (s : List Char) : Option ℕ :=
  if s ≠ [] ∧ s.all Char.isDigit = true then some (Nat.ofDigitChars 10 s 0) else none

/-- An optional sign, and what follows it. -/
def splitSign : List Char → Bool × List Char
  | '-' :: s => (true, s)
  | '+' :: s => (false, s)
  | s => (false, s)

/-- A number with its sign. -/
def signed (negative : Bool) (n : ℕ) : ℤ := if negative then -n else n

/-- `str::parse::<i64>`: digits with an optional sign, within the range. -/
def parseI64 (s : List Char) : Option ℤ := do
  let n ← parseDigits (splitSign s).2
  if -2 ^ 63 ≤ signed (splitSign s).1 n ∧ signed (splitSign s).1 n < 2 ^ 63 then
    return signed (splitSign s).1 n
  else none

/-! ## Lines and splits -/

variable {l s : List Char} {c : Char}

theorem linesFrom_append (acc l s : List Char) (h : '\n' ∉ l) :
    linesFrom acc (l ++ '\n' :: s) = stripCr (acc.reverse ++ l) :: lines s := by
  induction l generalizing acc with
  | nil => rw [List.nil_append, linesFrom, List.append_nil, lines]
  | cons c l ih =>
    have hc : c ≠ '\n' := fun hc => h (hc ▸ List.mem_cons_self)
    rw [List.cons_append, linesFrom, ih (c :: acc) fun hl => h (List.mem_cons_of_mem _ hl)]
    · simp
    · exact hc

theorem lines_append (h : '\n' ∉ l) : lines (l ++ '\n' :: s) = stripCr l :: lines s :=
  linesFrom_append [] l s h

theorem splitOnce_append (h : c ∉ l) : splitOnce [c] (l ++ c :: s) = some (l, s) := by
  induction l with
  | nil => simp [splitOnce]
  | cons d l ih =>
    have hd : c ≠ d := fun hd => h (hd ▸ List.mem_cons_self)
    rw [List.cons_append, splitOnce, ih fun hl => h (List.mem_cons_of_mem _ hl)]
    simp [hd]

/-! ## Text without white space at its ends -/

/-- No white space at either end. -/
def Solid (s : List Char) : Prop :=
  (∀ c, s.head? = some c → isWhitespace c = false) ∧
    ∀ c, s.getLast? = some c → isWhitespace c = false

theorem trimStart_head (h : ∀ c, s.head? = some c → isWhitespace c = false) :
    trimStart s = s := by
  unfold trimStart
  cases s with
  | nil => rfl
  | cons c s => rw [List.dropWhile_cons_of_neg (by simp [h c rfl])]

theorem trimStart_solid (h : Solid s) : trimStart s = s := trimStart_head h.1

theorem trim_solid (h : Solid s) : trim s = s := by
  unfold trim trimEnd
  rw [trimStart_solid h, List.rdropWhile_eq_self_iff]
  intro hne
  simp [h.2 _ (List.getLast?_eq_getLast_of_ne_nil hne)]

theorem stripCr_solid (h : Solid s) : stripCr s = s := by
  unfold stripCr
  rw [if_neg]
  intro hlast
  have hcr := h.2 _ hlast
  revert hcr
  decide

theorem length_trimStart_le (s : List Char) : (trimStart s).length ≤ s.length :=
  (List.dropWhile_sublist _).length_le

/-! ## Digits -/

theorem isDigit_of_mem_digits {n : ℕ} (h : c ∈ digits n) : c.isDigit = true :=
  Nat.isDigit_of_mem_toDigits (by decide) (by decide) h

theorem digits_ne_nil (n : ℕ) : digits n ≠ [] := Nat.toDigits_ne_nil

theorem parseDigits_digits (n : ℕ) : parseDigits (digits n) = some n := by
  unfold parseDigits
  rw [if_pos ⟨digits_ne_nil n, List.all_eq_true.mpr fun c hc => isDigit_of_mem_digits hc⟩]
  exact congrArg some Nat.ofDigitChars_ten_toDigits

theorem splitSign_digit (h : ∀ c, s.head? = some c → c.isDigit = true) :
    splitSign s = (false, s) := by
  cases s with
  | nil => rfl
  | cons c s =>
    have hc := h c rfl
    unfold splitSign
    split
    · cases ‹_ :: _ = _›
      exact absurd hc (by decide)
    · cases ‹_ :: _ = _›
      exact absurd hc (by decide)
    · rfl

end TfTree.Data
