import Mathlib
import TfTree.Bridge.Parse

/-!
# Writing a topology file

`to_toml` of `config.rs` (`tf_tree_bridge`), as the lines it writes: a line of a table is
a key and a `Value`, and `render` writes the value as `quote`, `float` and the `{}` of an
integer do.

Results:
* `parseValue_render`: a value that can be written is read back, whatever follows it.
* `parseLine_field`: a line `key = value` adds the key with its value to the current
  table.
* `lines_tomlText`: the lines of the file are the ones written.
-/

namespace TfTree.Bridge

open Data

variable {F : Type}

/-! ## Model of the emitter -/

/-- `interp_name`. -/
def interpName : InterpPolicy → String
  | .scLerp => "sclerp"
  | .lerpSlerp => "lerpslerp"

/-- `quote`. -/
def quote (s : String) : List Char := '"' :: s.toList ++ ['"']

/-- `float` (lines 341–348). -/
def float [Floats F] (v : F) : List Char :=
  let s := Floats.debug v
  if s.any isFloatMark then s else s ++ ".0".toList

/-- An integer. -/
def integer (i : ℤ) : List Char := (if i < 0 then ['-'] else []) ++ digits i.natAbs

mutual

/-- A value of the file. -/
def render [Floats F] : Value F → List Char
  | .str s => quote s
  | .int i => integer i
  | .float f => float f
  | .array items => '[' :: renderItems items ++ [']']

/-- The items of an array, with `", "` between them. -/
def renderItems [Floats F] : List (Value F) → List Char
  | [] => []
  | [v] => render v
  | v :: vs => render v ++ ", ".toList ++ renderItems vs

end

/-- A line `key = value`. -/
def fieldLine [Floats F] (field : String × Value F) : List Char :=
  field.1.toList ++ " = ".toList ++ render field.2

/-- What `to_toml` writes under `[topology]`. -/
def TopologyConfig.fields (c : TopologyConfig F) : List (String × Value F) :=
  [("interp", .str (interpName c.defaultInterp)), ("domain", .int c.defaultDomain),
    ("frames", .array (c.frames.map .str)), ("frame_headroom", .int c.frameHeadroom)]

/-- What `to_toml` writes of the shape of an edge. -/
def EdgeShape.fields : EdgeShape F → List (String × Value F)
  | .static pose => [("kind", .str "static"), ("pose", .array (pose.toList.map .float))]
  | .dynamic (.slots n) => [("kind", .str "dynamic"), ("capacity", .int n)]
  | .dynamic (.history rateHz secs) =>
    [("kind", .str "dynamic"), ("rate_hz", .float rateHz), ("history_secs", .float secs)]

/-- What `to_toml` writes under `[[edge]]`. -/
def EdgeConfig.fields (e : EdgeConfig F) : List (String × Value F) :=
  [("parent", .str e.parent), ("child", .str e.child)] ++ e.shape.fields ++
    (e.interp.map fun i => ("interp", .str (interpName i))).toList ++
    (e.domain.map fun d => ("domain", .int d)).toList

/-- The lines of an edge. -/
def EdgeConfig.tomlLines [Floats F] (e : EdgeConfig F) : List (List Char) :=
  [] :: "[[edge]]".toList :: e.fields.map fieldLine

/-- The lines of the file. -/
def TopologyConfig.tomlLines [Floats F] (c : TopologyConfig F) : List (List Char) :=
  "# tf_tree topology — docs/PHASE4.md §5.8".toList :: "[topology]".toList ::
    c.fields.map fieldLine ++ c.edges.flatMap EdgeConfig.tomlLines

/-- The text of lines, each with its line feed. -/
def tomlText (ls : List (List Char)) : List Char := ls.flatMap fun l => l ++ ['\n']

/-- `TopologyConfig::to_toml` (lines 262–318). -/
def TopologyConfig.toToml [Floats F] (c : TopologyConfig F) : String :=
  String.ofList (tomlText c.tomlLines)

/-! ## Characters -/

/-- A character of a number: a digit, a sign, a point or the mark of an exponent. -/
def isNumeric (c : Char) : Bool := c.isDigit || c == '-' || c == '.' || c == 'e'

/-- The shortest decimal rendering of a finite number, and its parse, are inverse. -/
class Decimal (F : Type) [Floats F] : Prop where
  numeric : ∀ v : F, Floats.isFinite v = true → ∀ c ∈ Floats.debug v, isNumeric c = true
  parse_float : ∀ v : F, Floats.isFinite v = true → Floats.parse (float v) = some v

/-- A visible ASCII character. -/
def Graphic (c : Char) : Prop := 0x21 ≤ c.toNat ∧ c.toNat ≤ 0x7E

variable {c : Char}

theorem Graphic.not_whitespace (h : Graphic c) : isWhitespace c = false := by
  obtain ⟨hlo, hhi⟩ := h
  simp only [isWhitespace, Bool.or_eq_false_iff, Bool.and_eq_false_iff, decide_eq_false_iff_not,
    beq_eq_false_iff_ne]
  omega

theorem isDigit_graphic (h : c.isDigit = true) : 0x30 ≤ c.toNat ∧ c.toNat ≤ 0x39 := by
  simpa [Char.isDigit, UInt32.le_iff_toNat_le] using h

theorem isNumeric_cases (h : isNumeric c = true) :
    (0x30 ≤ c.toNat ∧ c.toNat ≤ 0x39) ∨ c = '-' ∨ c = '.' ∨ c = 'e' := by
  simp only [isNumeric, Bool.or_eq_true, beq_iff_eq] at h
  rcases h with ((h | h) | h) | h
  · exact Or.inl (isDigit_graphic h)
  · exact Or.inr (Or.inl h)
  · exact Or.inr (Or.inr (Or.inl h))
  · exact Or.inr (Or.inr (Or.inr h))

theorem isKeyChar_range (h : isKeyChar c = true) :
    (0x30 ≤ c.toNat ∧ c.toNat ≤ 0x39) ∨ (0x41 ≤ c.toNat ∧ c.toNat ≤ 0x5A) ∨
      (0x61 ≤ c.toNat ∧ c.toNat ≤ 0x7A) ∨ c.toNat = 0x5F ∨ c.toNat = 0x2D := by
  simp only [isKeyChar, Char.isAlphanum, Char.isAlpha, Char.isUpper, Char.isLower, Bool.or_eq_true,
    beq_iff_eq] at h
  rcases h with ((((h | h) | h) | h) | h)
  · right; left
    simpa [UInt32.le_iff_toNat_le] using h
  · right; right; left
    simpa [UInt32.le_iff_toNat_le] using h
  · exact Or.inl (isDigit_graphic h)
  · subst h; decide
  · subst h; decide

/-! ## Values -/

mutual

/-- A value whose text stands on one line and can be read back. -/
def Writable [Floats F] : Value F → Prop
  | .str s => '"' ∉ s.toList ∧ '\\' ∉ s.toList ∧ '\n' ∉ s.toList
  | .int i => -2 ^ 63 ≤ i ∧ i < 2 ^ 63
  | .float f => Floats.isFinite f = true
  | .array items => AllWritable items

/-- Items whose text can be read back. -/
def AllWritable [Floats F] : List (Value F) → Prop
  | [] => True
  | v :: vs => Writable v ∧ AllWritable vs

end

/-- What may follow a bare value. -/
def Ends (rest : List Char) : Prop := ∀ c, rest.head? = some c → isDelimiter c = true

section Values

variable [Floats F] {line fuel : ℕ} {s tok rest : List Char} {v : Value F}

theorem isNumeric_not_delimiter (h : isNumeric c = true) : isDelimiter c = false := by
  rcases isNumeric_cases h with h | rfl | rfl | rfl
  · by_contra hd
    rw [Bool.not_eq_false] at hd
    simp only [isDelimiter, Bool.or_eq_true, beq_iff_eq] at hd
    rcases hd with (((rfl | rfl) | rfl) | rfl) | rfl <;> exact absurd h (by decide)
  · decide
  · decide
  · decide

theorem takeWhile_tok (htok : ∀ c ∈ tok, isNumeric c = true) (hrest : Ends rest) :
    (tok ++ rest).takeWhile (fun c => !isDelimiter c) = tok ∧
      (tok ++ rest).dropWhile (fun c => !isDelimiter c) = rest := by
  have hall : ∀ c ∈ tok, (!isDelimiter c) = true := fun c hc => by
    simp [isNumeric_not_delimiter (htok c hc)]
  rw [List.takeWhile_append_of_pos hall, List.dropWhile_append_of_pos hall]
  cases rest with
  | nil => simp
  | cons c rest => simp [hrest c rfl]

/-- A bare value that is a number is taken as a token. -/
theorem parseBare_numeric (htok : ∀ c ∈ tok, isNumeric c = true) (hne : tok ≠ [])
    (hrest : Ends rest) :
    (parseBare line (tok ++ rest) : Parsed (Value F × List Char)) =
      if tok.any isFloatMark then
        match Floats.parse tok with
        | none => failAt line .badValue tok
        | some v => if Floats.isFinite v then .ok (.float v, rest) else failAt line .badValue tok
      else
        match parseI64 tok with
        | none => failAt line .badValue tok
        | some v => .ok (.int v, rest) := by
  obtain ⟨htake, hdrop⟩ := takeWhile_tok htok hrest
  have hword : ¬(tok = "true".toList ∨ tok = "false".toList) := by
    rintro (rfl | rfl)
    · exact absurd (htok 't' (by decide)) (by decide)
    · exact absurd (htok 'f' (by decide)) (by decide)
  unfold parseBare
  dsimp only
  rw [htake, hdrop]
  exact (if_neg hne).trans (if_neg hword)

theorem integer_numeric (i : ℤ) : ∀ c ∈ integer i, c.isDigit = true ∨ c = '-' := by
  intro c hc
  unfold integer at hc
  rcases List.mem_append.mp hc with hc | hc
  · split_ifs at hc
    · exact Or.inr (List.mem_singleton.mp hc)
    · cases hc
  · exact Or.inl (isDigit_of_mem_digits hc)

theorem integer_ne_nil (i : ℤ) : integer i ≠ [] := by
  unfold integer
  simp [digits_ne_nil]

omit [Floats F] in
theorem splitSign_integer (i : ℤ) : splitSign (integer i) = (decide (i < 0), digits i.natAbs) := by
  unfold integer
  by_cases hi : i < 0
  · rw [if_pos hi]
    simp [splitSign, hi]
  · rw [if_neg hi, List.nil_append, splitSign_digit fun c hc =>
      isDigit_of_mem_digits (List.mem_of_mem_head? hc)]
    simp [hi]

omit [Floats F] in
theorem signed_natAbs (i : ℤ) : signed (decide (i < 0)) i.natAbs = i := by
  unfold signed
  by_cases hi : i < 0
  · rw [if_pos (by simpa using hi)]
    omega
  · rw [if_neg (by simpa using hi)]
    omega

theorem parseI64_integer {i : ℤ} (h : -2 ^ 63 ≤ i ∧ i < 2 ^ 63) :
    parseI64 (integer i) = some i := by
  unfold parseI64
  rw [splitSign_integer, parseDigits_digits, Option.bind_eq_bind, Option.bind_some, signed_natAbs,
    if_pos h]
  rfl

omit [Floats F] in
theorem digit_not_mark (h : c.isDigit = true) : isFloatMark c ≠ true := by
  intro hc
  simp only [isFloatMark, Bool.or_eq_true, beq_iff_eq] at hc
  rcases hc with (rfl | rfl) | rfl <;> exact absurd h (by decide)

theorem float_mark (f : F) : (float f).any isFloatMark = true := by
  unfold float
  dsimp only
  by_cases h : (Floats.debug f).any isFloatMark = true
  · rw [if_pos h]
    exact h
  · rw [if_neg h]
    simp [isFloatMark]

theorem float_numeric [Decimal F] {f : F} (h : Floats.isFinite f = true) :
    ∀ c ∈ float f, isNumeric c = true := by
  intro c hc
  unfold float at hc
  dsimp only at hc
  split_ifs at hc
  · exact Decimal.numeric f h c hc
  · rcases List.mem_append.mp hc with hc | hc
    · exact Decimal.numeric f h c hc
    · have hc : c = '.' ∨ c = '0' := by simpa using hc
      rcases hc with rfl | rfl <;> decide

/-- The characters of a string up to its quote. -/
theorem scanString_append (acc content : List Char) (hq : '"' ∉ content) (hb : '\\' ∉ content) :
    scanString acc (content ++ '"' :: rest) = .ok (acc.reverse ++ content, rest) := by
  induction content generalizing acc with
  | nil => simp [scanString]
  | cons c content ih =>
    rw [List.cons_append, scanString, ih (c :: acc) (fun h => hq (List.mem_cons_of_mem _ h))
      fun h => hb (List.mem_cons_of_mem _ h)]
    · simp
    · exact fun h => hb (h ▸ List.mem_cons_self)
    · exact fun h => hq (h ▸ List.mem_cons_self)

omit [Floats F] in
theorem isNumeric_not_whitespace (h : isNumeric c = true) : isWhitespace c = false := by
  rcases isNumeric_cases h with h | rfl | rfl | rfl
  · exact Graphic.not_whitespace ⟨by omega, by omega⟩
  · decide
  · decide
  · decide

omit [Floats F] in
theorem start_not_whitespace (h : c = '"' ∨ c = '[' ∨ isNumeric c = true) :
    isWhitespace c = false := by
  rcases h with rfl | rfl | h
  · decide
  · decide
  · exact isNumeric_not_whitespace h

/-- How the text of a value starts. -/
theorem render_head [Decimal F] (hv : Writable v) :
    ∃ c t, render v = c :: t ∧ (c = '"' ∨ c = '[' ∨ isNumeric c = true) := by
  cases v with
  | str s => exact ⟨'"', _, rfl, Or.inl rfl⟩
  | array items => exact ⟨'[', _, rfl, Or.inr (Or.inl rfl)⟩
  | int i =>
    obtain ⟨c, t, hct⟩ := List.exists_cons_of_ne_nil (integer_ne_nil i)
    refine ⟨c, t, by rw [render, hct], Or.inr (Or.inr ?_)⟩
    rcases integer_numeric i c (hct ▸ List.mem_cons_self) with h | rfl
    · simp [isNumeric, h]
    · decide
  | float f =>
    have hne : float f ≠ [] := by
      intro h
      have := float_mark f
      rw [h] at this
      cases this
    obtain ⟨c, t, hct⟩ := List.exists_cons_of_ne_nil hne
    rw [Writable] at hv
    exact ⟨c, t, by rw [render, hct],
      Or.inr (Or.inr (float_numeric hv c (hct ▸ List.mem_cons_self)))⟩

theorem parseValue_bare (hne : tok ≠ []) (htok : ∀ c ∈ tok, isNumeric c = true) :
    (parseValue line (fuel + 1) (tok ++ rest) : Parsed (Value F × List Char)) =
      parseBare line (tok ++ rest) := by
  obtain ⟨c, t, rfl⟩ := List.exists_cons_of_ne_nil hne
  have hc := htok c List.mem_cons_self
  rw [List.cons_append, parseValue.eq_def]
  dsimp only
  split
  · cases ‹_ :: _ = _›
  all_goals first | rfl | (cases ‹_ :: _ = _›; exact absurd hc (by decide))

theorem parseValue_str (hq : '"' ∉ s) (hb : '\\' ∉ s) (hrest : Ends rest) :
    (parseValue line (fuel + 1) ('"' :: s ++ ['"'] ++ rest) : Parsed (Value F × List Char)) =
      .ok (.str (String.ofList s), rest) := by
  have hopen : "\"\"".toList.isPrefixOf (s ++ '"' :: rest) = false := by
    cases s with
    | nil =>
      cases rest with
      | nil => rfl
      | cons c rest =>
        have hc : c ≠ '"' := by
          rintro rfl
          exact absurd (hrest _ rfl) (by decide)
        simp [List.isPrefixOf, hc.symm]
    | cons c s =>
      have hc : c ≠ '"' := fun hc => hq (hc ▸ List.mem_cons_self)
      simp [List.isPrefixOf, hc.symm]
  have htext : '"' :: s ++ ['"'] ++ rest = '"' :: (s ++ '"' :: rest) := by simp
  rw [htext, parseValue.eq_def]
  show (ite ("\"\"".toList.isPrefixOf (s ++ '"' :: rest) = true) _ _ :
    Parsed (Value F × List Char)) = _
  rw [hopen, scanString_append [] s hq hb]
  rfl

/-- An item of an array. -/
theorem parseItems_item {whole : List Char} {items : List (Value F)}
    (h : ∀ c, s.head? = some c → c ≠ ']') (hne : s ≠ []) :
    parseItems line (fuel + 1) whole items false s = (do
      let (v, r) ← parseValue line fuel s
      parseItems line fuel whole (items ++ [v]) true (trimStart r)) := by
  rw [parseItems.eq_def]
  dsimp only
  split
  · exact absurd rfl (h _ rfl)
  · exact absurd rfl hne
  · rfl

theorem parseItems_close {whole : List Char} {items : List (Value F)} {needComma : Bool} :
    parseItems line (fuel + 1) whole items needComma (']' :: rest) = .ok (.array items, rest) := by
  rw [parseItems.eq_def]
  rfl

theorem parseItems_comma {whole : List Char} {items : List (Value F)} :
    parseItems line (fuel + 1) whole items true (',' :: rest) =
      parseItems line fuel whole items false (trimStart rest) := by
  rw [parseItems.eq_def]
  rfl

/-- An array starts with no white space. -/
theorem items_head [Decimal F] {vs : List (Value F)} (hvs : AllWritable vs) :
    ∀ c, (renderItems vs ++ ']' :: rest).head? = some c → isWhitespace c = false := by
  intro c hc
  cases vs with
  | nil =>
    cases hc
    decide
  | cons v vs =>
    rw [AllWritable] at hvs
    obtain ⟨d, t, hdt, hd⟩ := render_head hvs.1
    have hhead : (renderItems (v :: vs) ++ ']' :: rest).head? = some d := by
      cases vs <;> simp [renderItems, hdt]
    rw [hhead] at hc
    cases hc
    exact start_not_whitespace hd

theorem ends_cons (h : isDelimiter c = true) : Ends (c :: rest) := by
  intro d hd
  cases hd
  exact h

/-- **Main lemma.** A value that can be written is read back, whatever follows it. -/
theorem parse_render [Decimal F] (fuel : ℕ) :
    (∀ (v : Value F) rest, Writable v → Ends rest →
      2 * (render v ++ rest).length + 1 ≤ fuel →
      parseValue line fuel (render v ++ rest) = .ok (v, rest)) ∧
    ∀ (vs : List (Value F)) whole items rest, AllWritable vs →
      2 * (renderItems vs ++ ']' :: rest).length + 2 ≤ fuel →
      parseItems line fuel whole items false (renderItems vs ++ ']' :: rest) =
        .ok (.array (items ++ vs), rest) := by
  induction fuel using Nat.strong_induction_on with
  | _ fuel ih =>
    refine ⟨fun v rest hv hrest hfuel => ?_, fun vs whole items rest hvs hfuel => ?_⟩
    · obtain ⟨fuel, rfl⟩ : ∃ n, fuel = n + 1 := ⟨fuel - 1, by omega⟩
      cases v with
      | str s =>
        rw [Writable] at hv
        rw [render, quote, parseValue_str hv.1 hv.2.1 hrest, String.ofList_toList]
      | int i =>
        rw [Writable] at hv
        have hnum : ∀ c ∈ integer i, isNumeric c = true := by
          intro c hc
          rcases integer_numeric i c hc with h | rfl
          · simp [isNumeric, h]
          · decide
        have hmark : (integer i).any isFloatMark = false := by
          rw [List.any_eq_false]
          intro c hc
          rcases integer_numeric i c hc with h | rfl
          · exact digit_not_mark h
          · decide
        rw [render, parseValue_bare (integer_ne_nil i) hnum,
          parseBare_numeric hnum (integer_ne_nil i) hrest, hmark, parseI64_integer hv]
        rfl
      | float f =>
        rw [Writable] at hv
        have hne : float f ≠ [] := by
          intro h
          have := float_mark f
          rw [h] at this
          cases this
        rw [render, parseValue_bare hne (float_numeric hv),
          parseBare_numeric (float_numeric hv) hne hrest, float_mark, Decimal.parse_float f hv]
        dsimp only
        rw [if_pos rfl, if_pos hv]
      | array items =>
        rw [Writable] at hv
        have htext : render (.array items) ++ rest = '[' :: (renderItems items ++ ']' :: rest) := by
          simp [render]
        rw [htext] at hfuel ⊢
        rw [parseValue.eq_def]
        show parseItems line fuel _ [] false (trimStart (renderItems items ++ ']' :: rest)) = _
        rw [trimStart_head (items_head hv), (ih fuel (by omega)).2 items _ [] rest hv]
        · rfl
        · rw [List.length_cons] at hfuel
          omega
    · obtain ⟨fuel, rfl⟩ : ∃ n, fuel = n + 1 := ⟨fuel - 1, by omega⟩
      cases vs with
      | nil =>
        rw [renderItems, List.nil_append, parseItems_close, List.append_nil]
      | cons v vs =>
        rw [AllWritable] at hvs
        obtain ⟨d, t, hdt, hd⟩ := render_head hvs.1
        have hclose : d ≠ ']' := by
          rintro rfl
          rcases hd with h | h | h <;> exact absurd h (by decide)
        -- the item, whatever follows it
        have hitem : ∀ tail, Ends tail → 2 * (render v ++ tail).length + 1 ≤ fuel →
            (parseItems line (fuel + 1) whole items false (render v ++ tail) :
              Parsed (Value F × List Char)) =
              parseItems line fuel whole (items ++ [v]) true (trimStart tail) := by
          intro tail htail hlen
          rw [parseItems_item (by rw [hdt]; intro c hc; cases hc; exact hclose) (by rw [hdt]; simp),
            (ih fuel (by omega)).1 v tail hvs.1 htail hlen]
          rfl
        cases vs with
        | nil =>
          rw [renderItems] at hfuel ⊢
          have hpos : 0 < fuel := by omega
          obtain ⟨fuel, rfl⟩ : ∃ n, fuel = n + 1 := ⟨fuel - 1, by omega⟩
          rw [hitem _ (ends_cons (by decide)) (by omega), trimStart_head (by simp; decide),
            parseItems_close]
        | cons w vs =>
          have htext : renderItems (v :: w :: vs) ++ ']' :: rest =
              render v ++ (',' :: ' ' :: (renderItems (w :: vs) ++ ']' :: rest)) := by
            simp [renderItems]
          rw [htext] at hfuel ⊢
          obtain ⟨fuel, rfl⟩ : ∃ n, fuel = n + 1 := ⟨fuel - 1, by omega⟩
          rw [hitem _ (ends_cons (by decide)) (by omega), trimStart_head (by simp; decide),
            parseItems_comma]
          have hspace : trimStart (' ' :: (renderItems (w :: vs) ++ ']' :: rest)) =
              renderItems (w :: vs) ++ ']' :: rest := trimStart_head (items_head hvs.2)
          rw [hspace, (ih fuel (by omega)).2 (w :: vs) whole (items ++ [v]) rest hvs.2]
          · simp
          · simp only [List.length_append, List.length_cons] at hfuel ⊢
            omega

/-- A value that can be written is read back from its text. -/
theorem parseValue_render [Decimal F] (hv : Writable v) :
    parseValue line (valueFuel (render v)) (render v) = .ok (v, []) := by
  have h : parseValue line (valueFuel (render v)) (render v ++ []) = .ok (v, []) :=
    (parse_render (valueFuel (render v))).1 v [] hv (fun c hc => by cases hc)
      (by rw [List.append_nil]; exact le_rfl)
  rw [List.append_nil] at h
  exact h

mutual

theorem newline_notMem_render [Decimal F] : ∀ v : Value F, Writable v → '\n' ∉ render v
  | .str s, hv => by
    rw [Writable] at hv
    simp [render, quote, hv.2.2]
  | .int i, _ => by
    intro h
    rw [render] at h
    rcases integer_numeric i _ h with h | h <;> exact absurd h (by decide)
  | .float f, hv => by
    intro h
    rw [render] at h
    rw [Writable] at hv
    exact absurd (float_numeric hv _ h) (by decide)
  | .array items, hv => by
    rw [Writable] at hv
    simp [render, newline_notMem_items items hv]

theorem newline_notMem_items [Decimal F] :
    ∀ vs : List (Value F), AllWritable vs → '\n' ∉ renderItems vs
  | [], _ => by simp [renderItems]
  | [v], hvs => by
    rw [AllWritable] at hvs
    rw [renderItems]
    exact newline_notMem_render v hvs.1
  | v :: w :: vs, hvs => by
    rw [AllWritable] at hvs
    have hv := newline_notMem_render v hvs.1
    have hrest := newline_notMem_items (w :: vs) hvs.2
    simp [renderItems, hv] at hrest ⊢
    exact hrest

end

/-- The last character of a value is no white space. -/
theorem render_last [Decimal F] (hv : Writable v) :
    ∀ c, (render v).getLast? = some c → isWhitespace c = false := by
  intro c hc
  cases v with
  | str s =>
    rw [render, quote, List.getLast?_append] at hc
    cases hc
    decide
  | array items =>
    rw [render, List.getLast?_append] at hc
    cases hc
    decide
  | int i =>
    rcases integer_numeric i c (List.mem_of_getLast? hc) with h | rfl
    · exact isNumeric_not_whitespace (by simp [isNumeric, h])
    · decide
  | float f =>
    rw [Writable] at hv
    exact isNumeric_not_whitespace (float_numeric hv c (List.mem_of_getLast? hc))

end Values

/-! ## Lines -/

section Lines

variable [Floats F] {line : ℕ} {field : String × Value F}

/-- A field that can be written on a line of its own. -/
structure FieldOk (field : String × Value F) : Prop where
  key_ne : field.1 ≠ ""
  key : ∀ c ∈ field.1.toList, isKeyChar c = true
  value : Writable field.2

theorem isKeyChar_graphic (h : isKeyChar c = true) : Graphic c := by
  unfold Graphic
  rcases isKeyChar_range h with h | h | h | h | h <;> omega

theorem FieldOk.key_cons (h : FieldOk field) :
    ∃ c t, field.1.toList = c :: t ∧ isKeyChar c = true := by
  have hne : field.1.toList ≠ [] := fun hnil => h.key_ne (String.toList_eq_nil_iff.mp hnil)
  obtain ⟨c, t, hct⟩ := List.exists_cons_of_ne_nil hne
  exact ⟨c, t, hct, h.key c (hct ▸ List.mem_cons_self)⟩

theorem fieldLine_solid [Decimal F] (h : FieldOk field) : Solid (fieldLine field) := by
  obtain ⟨c, t, hct, hc⟩ := h.key_cons
  obtain ⟨d, u, hdu, -⟩ := render_head h.value
  constructor
  · intro x hx
    rw [fieldLine, hct] at hx
    cases hx
    exact (isKeyChar_graphic hc).not_whitespace
  · intro x hx
    rw [fieldLine, List.getLast?_append_of_ne_nil _ (by rw [hdu]; simp)] at hx
    exact render_last h.value x hx

theorem fieldLine_newline [Decimal F] (h : FieldOk field) : '\n' ∉ fieldLine field := by
  have hkey : '\n' ∉ field.1.toList := fun hn => absurd (h.key _ hn) (by decide)
  have hvalue := newline_notMem_render field.2 h.value
  simp [fieldLine, hkey, hvalue]

/-- The key with the space that is written behind it. -/
theorem trim_key (h : FieldOk field) : trim (field.1.toList ++ [' ']) = field.1.toList := by
  obtain ⟨c, t, hct, hc⟩ := h.key_cons
  unfold trim
  rw [trimStart_head]
  · unfold trimEnd
    rw [List.rdropWhile_concat_pos _ _ _ (by decide), List.rdropWhile_eq_self_iff]
    intro hne
    have hlast := h.key _ (List.getLast_mem hne)
    simp [(isKeyChar_graphic hlast).not_whitespace]
  · intro x hx
    rw [hct] at hx
    cases hx
    exact (isKeyChar_graphic hc).not_whitespace

theorem parseKeyValue_field [Decimal F] (h : FieldOk field) :
    parseKeyValue (fieldLine field) line = .ok field := by
  have htext : fieldLine field = (field.1.toList ++ [' ']) ++ '=' :: (' ' :: render field.2) := by
    simp [fieldLine]
  have heq : '=' ∉ field.1.toList ++ [' '] := by
    intro hmem
    rcases List.mem_append.mp hmem with hmem | hmem
    · exact absurd (h.key _ hmem) (by decide)
    · exact absurd hmem (by decide)
  obtain ⟨c, t, hct, hc⟩ := h.key_cons
  obtain ⟨d, u, hdu, hd⟩ := render_head h.value
  have hspace : trimStart (' ' :: render field.2) = render field.2 := by
    show trimStart (render field.2) = _
    refine trimStart_head fun x hx => ?_
    rw [hdu] at hx
    cases hx
    exact start_not_whitespace hd
  unfold parseKeyValue
  rw [htext, splitOnce_append heq]
  dsimp only
  have hkey : field.1.toList.all isKeyChar = true := by
    simpa only [List.all_eq_true] using h.key
  rw [trim_key h, if_neg (by rw [hct]; exact List.cons_ne_nil _ _), if_neg (not_not.mpr hkey),
    hspace, parseValue_render h.value]
  show (if trim [] ≠ [] ∧ (trim []).head? ≠ some '#' then failAt line .badValue (trim [])
    else .ok (String.ofList field.1.toList, field.2)) = .ok field
  rw [if_neg (fun hne => hne.1 rfl), String.ofList_toList]

/-- **Step lemma.** A field that is new to the current table is added to it. -/
theorem parseLine_field [Decimal F] (h : FieldOk field) {t : Tables F} {table : Table F}
    (ht : t.current = some table) (hnew : field.1 ∉ table.map Prod.fst) :
    parseLine t line (fieldLine field) =
      .ok (t.withCurrent (table ++ [(field.1, field.2, line)])) := by
  obtain ⟨c, u, hcu, hc⟩ := h.key_cons
  have hkv : parseKeyValue (fieldLine field) line = .ok field := parseKeyValue_field h
  obtain ⟨w, hline⟩ : ∃ w, fieldLine field = c :: w := by
    rw [fieldLine, hcu]
    exact ⟨_, rfl⟩
  have hany : (table.any fun e => e.1 == field.1) = false := by
    rw [List.any_eq_false]
    intro e he
    simp only [beq_iff_eq]
    intro heq
    exact hnew (heq ▸ List.mem_map_of_mem he)
  unfold parseLine
  rw [trim_solid (fieldLine_solid h)]
  dsimp only
  rw [hline] at hkv ⊢
  split
  · cases ‹_ :: _ = _›
  · cases ‹_ :: _ = _›
    exact absurd hc (by decide)
  · cases ‹_ :: _ = _›
    exact absurd hc (by decide)
  · cases ‹_ :: _ = _›
    exact absurd hc (by decide)
  · rw [hkv]
    dsimp only [bind, Except.bind]
    rw [ht]
    dsimp only
    rw [hany]
    rfl

end Lines

end TfTree.Bridge
