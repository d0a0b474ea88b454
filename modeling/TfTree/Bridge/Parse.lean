import Mathlib
import TfTree.Bridge.Config
import TfTree.Data.OkPrefix

/-!
# Reading a topology file

The parser of `config.rs` (`tf_tree_bridge`). Text is a list of characters, and the
slices an error borrows are copied into it.

The recursion of `parse_value` has fuel; `parseValue_fuel`: with more fuel than twice the
characters left, the result does not depend on it.
-/

namespace TfTree.Bridge

open Data

variable {F : Type}

/-! ## Model of the parser -/

/-- `ConfigErrorKind`. -/
inductive ConfigErrorKind where
  | unsupported
  | unknownTable
  | unknownKey
  | duplicateKey
  | notAKeyValue
  | noTable
  | badValue
  | missingKey
  | badKind
  | badInterp
  | badDomain
  | badFrameName
  | selfEdge
  | duplicateChild
  | badPose
  | nonUnitQuaternion
  | keyWrongForKind
  | conflictingRingSize
  | redundantFrame
  deriving DecidableEq, Repr

/-- `ConfigError`; `culprit` is the source's `at`. -/
structure ConfigError where
  line : ℕ
  kind : ConfigErrorKind
  culprit : String
  deriving DecidableEq, Repr

/-- `Value` (lines 479–484). -/
inductive Value (F : Type) where
  | str (s : String)
  | int (i : ℤ)
  | float (f : F)
  | array (items : List (Value F))

/-- `Table`: the keys, their values and lines. -/
abbrev Table (F : Type) := List (String × Value F × ℕ)

/-- What parsing gives. -/
abbrev Parsed (α : Type) := Except ConfigError α

/-- `Err(ConfigError { line, kind, at })`. -/
def fail {α : Type} (line : ℕ) (kind : ConfigErrorKind) (culprit : String) : Parsed α :=
  .error ⟨line, kind, culprit⟩

/-- `fail` at a slice. -/
def failAt {α : Type} (line : ℕ) (kind : ConfigErrorKind) (s : List Char) : Parsed α :=
  fail line kind (String.ofList s)

/-- `header_name` (lines 562–579). -/
def headerName (rest close whole : List Char) (line : ℕ) : Parsed String :=
  match splitOnce close rest with
  | none => failAt line .unknownTable whole
  | some (name, tail) =>
    if trim tail ≠ [] ∧ (trim tail).head? ≠ some '#' then failAt line .unknownTable whole
    else .ok (String.ofList (trim name))

/-- What ends a bare value: `find([',', ']', '#', ' ', '\t'])`. -/
def isDelimiter (c : Char) : Bool := c == ',' || c == ']' || c == '#' || c == ' ' || c == '\t'

/-- A character that makes a bare value a float. -/
def isFloatMark (c : Char) : Bool := c == '.' || c == 'e' || c == 'E'

/-- The characters of a basic string up to its quote, `acc` in front of them, the last
    first (lines 629–635). -/
def scanString (acc : List Char) : List Char → Except ConfigErrorKind (List Char × List Char)
  | [] => .error .badValue
  | '\\' :: _ => .error .unsupported
  | '"' :: s => .ok (acc.reverse, s)
  | c :: s => scanString (c :: acc) s

/-- A bare value (lines 663–685). -/
def parseBare [Floats F] (line : ℕ) (s : List Char) : Parsed (Value F × List Char) :=
  let tok := s.takeWhile fun c => !isDelimiter c
  let rest := s.dropWhile fun c => !isDelimiter c
  if tok = [] then failAt line .badValue s
  else if tok = "true".toList ∨ tok = "false".toList then failAt line .badValue tok
  else if tok.any isFloatMark then
    match Floats.parse tok with
    | none => failAt line .badValue tok
    | some v => if Floats.isFinite v then .ok (.float v, rest) else failAt line .badValue tok
  else
    match parseI64 tok with
    | none => failAt line .badValue tok
    | some v => .ok (.int v, rest)

mutual

/-- `parse_value` (lines 617–687). -/
def parseValue [Floats F] (line : ℕ) : ℕ → List Char → Parsed (Value F × List Char)
  | 0, s => failAt line .unsupported s
  | fuel + 1, s =>
    match s with
    | [] => failAt line .badValue s
    | '"' :: r =>
      if "\"\"".toList.isPrefixOf r then failAt line .unsupported s
      else
        match scanString [] r with
        | .error kind => failAt line kind s
        | .ok (content, rest) => .ok (.str (String.ofList content), rest)
    | '\'' :: _ => failAt line .unsupported s
    | '\x7b' :: _ => failAt line .unsupported s
    | '[' :: r => parseItems line fuel s [] false (trimStart r)
    | s => parseBare line s

/-- The loop over the items of an array (lines 639–661): `whole` is the text of the array,
    `items` what was read, `rest` what is left. -/
def parseItems [Floats F] (line : ℕ) : ℕ → List Char → List (Value F) → Bool → List Char →
    Parsed (Value F × List Char)
  | 0, whole, _, _, _ => failAt line .unsupported whole
  | fuel + 1, whole, items, needComma, rest =>
    match rest with
    | ']' :: r => .ok (.array items, r)
    | [] => failAt line .unsupported whole
    | rest =>
      if needComma then
        match rest with
        | ',' :: r => parseItems line fuel whole items false (trimStart r)
        | _ => failAt line .badValue rest
      else do
        let (v, r) ← parseValue line fuel rest
        parseItems line fuel whole (items ++ [v]) true (trimStart r)

end

/-- Fuel for a value: more than a nesting of its characters needs. -/
def valueFuel (s : List Char) : ℕ := 2 * s.length + 1

/-- Whether a character may stand in a key. -/
def isKeyChar (c : Char) : Bool := c.isAlphanum || c == '_' || c == '-'

/-- `parse_key_value` (lines 581–615). -/
def parseKeyValue [Floats F] (s : List Char) (line : ℕ) : Parsed (String × Value F) :=
  match splitOnce ['='] s with
  | none => failAt line .notAKeyValue s
  | some (before, after) =>
    let key := trim before
    if key = [] then failAt line .notAKeyValue s
    else if ¬ key.all isKeyChar then failAt line .unsupported key
    else do
      let (value, rest) ← parseValue line (valueFuel (trimStart after)) (trimStart after)
      if trim rest ≠ [] ∧ (trim rest).head? ≠ some '#' then failAt line .badValue (trim rest)
      else return (String.ofList key, value)

/-- The table a key goes to. -/
inductive Section where
  | topology
  | edge
  deriving DecidableEq, Repr

/-- The tables read so far, and the current one. -/
structure Tables (F : Type) where
  topology : Option (Table F) := none
  edges : List (Table F) := []
  cur : Option Section := none

/-- The table `cur` points to. -/
def Tables.current (t : Tables F) : Option (Table F) :=
  match t.cur with
  | none => none
  | some .topology => t.topology
  | some .edge => t.edges.getLast?

/-- The tables with another current one. -/
def Tables.withCurrent (t : Tables F) (table : Table F) : Tables F :=
  match t.cur with
  | none => t
  | some .topology => { t with topology := some table }
  | some .edge => { t with edges := t.edges.dropLast ++ [table] }

/-- One line of the file (the loop of `TopologyConfig::parse`, lines 500–556). -/
def parseLine [Floats F] (t : Tables F) (line : ℕ) (raw : List Char) : Parsed (Tables F) :=
  let s := trim raw
  match s with
  | [] => .ok t
  | '#' :: _ => .ok t
  | '[' :: '[' :: rest => do
    let name ← headerName rest "]]".toList s line
    if name ≠ "edge" then fail line .unknownTable name
    else return { t with edges := t.edges ++ [[]], cur := some .edge }
  | '[' :: rest => do
    let name ← headerName rest "]".toList s line
    if name ≠ "topology" then fail line .unknownTable name
    else if t.topology.isSome then fail line .duplicateKey "topology"
    else return { t with topology := some [], cur := some .topology }
  | s => do
    let (key, value) ← parseKeyValue s line
    match t.current with
    | none => fail line .noTable key
    | some table =>
      if table.any fun e => e.1 == key then fail line .duplicateKey key
      else return t.withCurrent (table ++ [(key, value, line)])

/-- The lines of the file from the line `i` on, counting from `0`. -/
def parseLines [Floats F] (t : Tables F) (i : ℕ) : List (List Char) → Parsed (Tables F)
  | [] => .ok t
  | raw :: rest => do
    let t ← parseLine t (min (i + 1) (2 ^ 32 - 1)) raw
    parseLines t (i + 1) rest

/-! ## Model of `build_config` -/

/-- `get` (lines 689–693). -/
def Table.get (t : Table F) (key : String) : Option (Value F × ℕ) :=
  (t.find? fun e => e.1 == key).map Prod.snd

/-- `reject_unknown` (lines 695–706). -/
def rejectUnknown (allowed : List String) : Table F → Parsed Unit
  | [] => .ok ()
  | (key, _, line) :: t =>
    if ¬ allowed.contains key then fail line .unknownKey key else rejectUnknown allowed t

/-- `as_str`. -/
def asStr (v : Value F) (line : ℕ) (culprit : String) : Parsed String :=
  match v with
  | .str s => .ok s
  | _ => fail line .badValue culprit

/-- `as_f64`. -/
def asF64 [Floats F] (v : Value F) (line : ℕ) (culprit : String) : Parsed F :=
  match v with
  | .float f => .ok f
  | .int i => .ok (Floats.ofInt i)
  | _ => fail line .badValue culprit

/-- `as_u32`. -/
def asU32 (v : Value F) (line : ℕ) (culprit : String) : Parsed ℕ :=
  match v with
  | .int i => if 0 ≤ i ∧ i < 2 ^ 32 then .ok i.toNat else fail line .badValue culprit
  | _ => fail line .badValue culprit

/-- `parse_interp`. -/
def parseInterp (v : Value F) (line : ℕ) : Parsed InterpPolicy := do
  let s ← asStr v line "interp"
  if s = "sclerp" then return .scLerp
  else if s = "lerpslerp" then return .lerpSlerp
  else fail line .badInterp s

/-- `parse_domain` (lines 761–783). -/
def parseDomain (v : Value F) (line : ℕ) : Parsed ℕ :=
  match v with
  | .str s =>
    if s = "system" then .ok systemTag
    else if s = "sensor" then .ok 1
    else if s = "sim" then .ok 2
    else if s = "steady" then .ok 3
    else fail line .badDomain s
  | .int i => if 0 ≤ i ∧ i < 2 ^ 8 then .ok i.toNat else fail line .badDomain "domain"
  | _ => fail line .badDomain "domain"

/-- `frame_name_ok`. -/
def frameNameOk (name : String) : Bool :=
  name ≠ "" && !(name.toList.any fun c => isControl c || c == '"' || c == '\\')

/-- `check_frame_name`. -/
def checkFrameName (name : String) (line : ℕ) : Parsed String :=
  if frameNameOk name then .ok name else fail line .badFrameName name

/-- `POSE_UNIT_EPS`. -/
def poseUnitEps [Floats F] : F := 1 / ((10 ^ 9 : ℕ) : F)

/-- The squared norm of the rotation, as the check computes it (lines 1035–1038). -/
def rotationNorm [Floats F] (p : PoseWords F) : F :=
  Floats.mulAdd p[0] p[0] (Floats.mulAdd p[1] p[1] (Floats.mulAdd p[2] p[2] (p[3] * p[3])))

/-- `iso_of` (lines 319–324). -/
def isoOf (p : PoseWords F) : Iso3 F := ⟨⟨p[0], p[1], p[2], p[3]⟩, ⟨p[4], p[5], p[6]⟩⟩

/-- Whether the rotation is unit within `poseUnitEps`. -/
def isUnit [Floats F] (p : PoseWords F) : Bool :=
  !Floats.lt (((2 : ℕ) : F) * poseUnitEps) (Floats.abs (rotationNorm p - 1))

/-- One component of a pose. -/
def parseComponent [Floats F] (v : Value F) (line : ℕ) (culprit : String) : Parsed F := do
  let x ← asF64 v line culprit
  if ¬ Floats.isFinite x then fail line .badPose culprit else return x

/-- `parse_pose` (lines 1008–1047). -/
def parsePose [Floats F] (v : Value F) (line : ℕ) (culprit : String) : Parsed (PoseWords F) :=
  match v with
  | .array [qw, qx, qy, qz, tx, ty, tz] => do
    let qw ← parseComponent qw line culprit
    let qx ← parseComponent qx line culprit
    let qy ← parseComponent qy line culprit
    let qz ← parseComponent qz line culprit
    let tx ← parseComponent tx line culprit
    let ty ← parseComponent ty line culprit
    let tz ← parseComponent tz line culprit
    let pose : PoseWords F := #v[qw, qx, qy, qz, tx, ty, tz]
    if ¬ isUnit pose then fail line .nonUnitQuaternion culprit else return pose
  | _ => fail line .badPose culprit

/-- `TOPOLOGY_KEYS`. -/
def topologyKeys : List String := ["interp", "domain", "frames", "frame_headroom"]

/-- `EDGE_KEYS`. -/
def edgeKeys : List String :=
  ["parent", "child", "kind", "pose", "capacity", "rate_hz", "history_secs", "interp", "domain"]

/-- A key that may be absent. -/
def Table.optional {α : Type} (t : Table F) (key : String) (read : Value F → ℕ → Parsed α) :
    Parsed (Option α) :=
  match t.get key with
  | none => .ok none
  | some (v, line) => do return some (← read v line)

/-- The frames listed, with their line (lines 834–847). -/
def listedFrames (t : Table F) : Parsed (List (String × ℕ)) :=
  match t.get "frames" with
  | none => .ok []
  | some (.array items, line) => items.mapM fun item => do
    let name ← checkFrameName (← asStr item line "frames") line
    return (name, line)
  | some (_, line) => fail line .badValue "frames"

/-- A finite rate and history (lines 935–948). -/
def finiteHistory [Floats F] (rateHz secs : F) : Bool :=
  Floats.isFinite rateHz && Floats.lt 0 rateHz && Floats.isFinite secs && Floats.lt 0 secs &&
    Floats.isFinite (rateHz * secs)

/-- The ring of a dynamic edge (lines 917–967). -/
def parseRing [Floats F] (t : Table F) (kindLine : ℕ) (child : String) : Parsed (RingSize F) :=
  match t.get "capacity", t.get "rate_hz", t.get "history_secs" with
  | some (v, line), none, none => do
    let n ← asU32 v line child
    if n = 0 then fail line .badValue child else return .slots n
  | none, some (rv, rl), some (sv, sl) => do
    let rateHz ← asF64 rv rl child
    let secs ← asF64 sv sl child
    if ¬ finiteHistory rateHz secs then fail rl .badValue child else return .history rateHz secs
  | none, none, none => fail kindLine .missingKey child
  | _, _, _ => fail kindLine .conflictingRingSize child

/-- The shape of an edge (lines 882–976). -/
def parseShape [Floats F] (t : Table F) (kind : String) (kindLine : ℕ) (child : String) :
    Parsed (EdgeShape F) :=
  if kind = "static" then
    match (["capacity", "rate_hz", "history_secs"].findSome? fun key => t.get key) with
    | some (_, line) => fail line .keyWrongForKind child
    | none =>
      match t.get "pose" with
      | none => fail kindLine .missingKey "pose"
      | some (v, line) => do return .static (← parsePose v line child)
  else if kind = "dynamic" then
    match t.get "pose" with
    | some (_, line) => fail line .keyWrongForKind child
    | none => do return .dynamic (← parseRing t kindLine child)
  else fail kindLine .badKind kind

/-- A required frame name of an edge, with its line. -/
def requiredName (t : Table F) (key : String) (missing : ℕ) : Parsed (String × ℕ) :=
  match t.get key with
  | none => fail missing .missingKey key
  | some (v, line) => do
    let name ← checkFrameName (← asStr v line key) line
    return (name, line)

/-- One edge of the file (lines 852–992), after the edges of the children `children`. -/
def buildEdge [Floats F] (children : List String) (t : Table F) : Parsed (EdgeConfig F) := do
  rejectUnknown edgeKeys t
  let (parent, pl) ← requiredName t "parent" (t.head?.elim 0 fun e => e.2.2)
  let (child, cl) ← requiredName t "child" pl
  if parent = child then fail cl .selfEdge child
  else if children.contains child then fail cl .duplicateChild child
  else
    match t.get "kind" with
    | none => fail cl .missingKey "kind"
    | some (kv, kl) => do
      let kind ← asStr kv kl "kind"
      let shape ← parseShape t kind kl child
      let interp ← t.optional "interp" parseInterp
      let domain ← t.optional "domain" parseDomain
      return ⟨parent, child, shape, interp, domain⟩

/-- The edges of the file, in order. -/
def buildEdges [Floats F] (children : List String) :
    List (Table F) → Parsed (List (EdgeConfig F))
  | [] => .ok []
  | t :: ts => do
    let e ← buildEdge children t
    let es ← buildEdges (e.child :: children) ts
    return e :: es

/-- The listed frames, none of which is an endpoint (lines 995–1004). -/
def buildFrames (endpoints : List String) : List (String × ℕ) → Parsed (List String)
  | [] => .ok []
  | (name, line) :: rest =>
    if endpoints.contains name then fail line .redundantFrame name
    else do return name :: (← buildFrames endpoints rest)

/-- The names of an edge. -/
def EdgeConfig.endpoints (e : EdgeConfig F) : List String := [e.parent, e.child]

/-- `build_config` (lines 818–1006). -/
def buildConfig [Floats F] (topology : Table F) (edges : List (Table F)) :
    Parsed (TopologyConfig F) := do
  rejectUnknown topologyKeys topology
  let interp ← topology.optional "interp" parseInterp
  let domain ← topology.optional "domain" parseDomain
  let headroom ← topology.optional "frame_headroom" fun v line => asU32 v line "frame_headroom"
  let listed ← listedFrames topology
  let edges ← buildEdges [] edges
  let frames ← buildFrames (edges.flatMap EdgeConfig.endpoints) listed
  let defaults : TopologyConfig F := {}
  return ⟨frames, headroom.getD defaults.frameHeadroom, interp.getD defaults.defaultInterp,
    domain.getD defaults.defaultDomain, edges⟩

/-- `TopologyConfig::parse` (lines 495–559). -/
def TopologyConfig.parse [Floats F] (text : String) : Parsed (TopologyConfig F) := do
  let t ← parseLines {} 0 (lines text.toList)
  buildConfig (t.topology.getD []) t.edges

/-! ## The fuel of a value -/

section Fuel

variable [Floats F] {line : ℕ} {s r : List Char} {v : Value F}

theorem scanString_length {acc content : List Char} (h : scanString acc s = .ok (content, r)) :
    r.length < s.length := by
  fun_induction scanString acc s with
  | case1 => cases h
  | case2 => cases h
  | case3 =>
    cases h
    exact Nat.lt_succ_self _
  | case4 acc c s _ _ ih => exact (ih h).trans (Nat.lt_succ_self _)

theorem parseBare_length (h : parseBare line s = .ok (v, r)) : r.length < s.length := by
  have hrest : s.takeWhile (fun c => !isDelimiter c) ≠ [] →
      (s.dropWhile fun c => !isDelimiter c).length < s.length := by
    intro hne
    have hsplit := congrArg List.length (List.takeWhile_append_dropWhile
      (p := fun c => !isDelimiter c) (l := s))
    rw [List.length_append] at hsplit
    have := List.length_pos_iff.mpr hne
    omega
  unfold parseBare at h
  dsimp only at h
  by_cases htok : s.takeWhile (fun c => !isDelimiter c) = []
  · rw [if_pos htok] at h
    cases h
  · rw [if_neg htok] at h
    split_ifs at h
    · cases h
    · split at h
      · cases h
      · split_ifs at h
        · cases h
          exact hrest htok
        · cases h
    · split at h
      · cases h
      · cases h
        exact hrest htok

/-- What is left after a value is shorter. -/
theorem parse_length (fuel : ℕ) :
    (∀ (s r : List Char) (v : Value F), parseValue line fuel s = .ok (v, r) →
      r.length < s.length) ∧
    ∀ whole items needComma (rest r : List Char) (v : Value F),
      parseItems line fuel whole items needComma rest = .ok (v, r) → r.length < rest.length := by
  induction fuel with
  | zero => exact ⟨fun s r v h => by (cases h), fun whole items needComma rest r v h => by cases h⟩
  | succ fuel ih =>
    refine ⟨fun s r v h => ?_, fun whole items needComma rest r v h => ?_⟩
    · rw [parseValue.eq_def] at h
      dsimp only at h
      split at h
      · cases h
      · split_ifs at h
        · cases h
        · split at h
          · cases h
          · cases h
            rename_i hscan
            exact (scanString_length hscan).trans (Nat.lt_succ_self _)
      · cases h
      · cases h
      · exact (ih.2 _ _ _ _ _ _ h).trans_le ((length_trimStart_le _).trans (Nat.le_succ _))
      · exact parseBare_length h
    · rw [parseItems.eq_def] at h
      dsimp only at h
      split at h
      · cases h
        exact Nat.lt_succ_self _
      · cases h
      · split_ifs at h
        · split at h
          · exact (ih.2 _ _ _ _ _ _ h).trans_le ((length_trimStart_le _).trans (Nat.le_succ _))
          · cases h
        · obtain ⟨⟨v', r'⟩, hv, h⟩ := except_bind_eq_ok.mp h
          exact (ih.2 _ _ _ _ _ _ h).trans_le ((length_trimStart_le _).trans (ih.1 _ _ _ hv).le)

/-- With fuel for its length, what a value parses to does not depend on the fuel. -/
theorem parse_fuel (fuel : ℕ) :
    (∀ fuel' s, 2 * s.length + 1 ≤ fuel → 2 * s.length + 1 ≤ fuel' →
      (parseValue line fuel s : Parsed (Value F × List Char)) = parseValue line fuel' s) ∧
    ∀ fuel' whole items needComma rest, 2 * rest.length + 2 ≤ fuel → 2 * rest.length + 2 ≤ fuel' →
      (parseItems line fuel whole items needComma rest : Parsed (Value F × List Char)) =
        parseItems line fuel' whole items needComma rest := by
  induction fuel with
  | zero => exact ⟨fun fuel' s h => by omega, fun fuel' whole items needComma rest h => by omega⟩
  | succ fuel ih =>
    refine ⟨fun fuel' s h h' => ?_, fun fuel' whole items needComma rest h h' => ?_⟩
    · obtain ⟨fuel', rfl⟩ : ∃ n, fuel' = n + 1 := ⟨fuel' - 1, by omega⟩
      rw [parseValue.eq_def, parseValue.eq_def]
      dsimp only
      split
      · rfl
      · rfl
      · rfl
      · rfl
      · rename_i r
        have hle := length_trimStart_le r
        rw [List.length_cons] at h h'
        exact ih.2 _ _ _ _ _ (by omega) (by omega)
      · rfl
    · obtain ⟨fuel', rfl⟩ : ∃ n, fuel' = n + 1 := ⟨fuel' - 1, by omega⟩
      rw [parseItems.eq_def, parseItems.eq_def]
      dsimp only
      split
      · rfl
      · rfl
      · split_ifs
        · split
          · rename_i r _ _
            have hle := length_trimStart_le r
            rw [List.length_cons] at h h'
            exact ih.2 _ _ _ _ _ (by omega) (by omega)
          · rfl
        · rw [ih.1 fuel' _ (by omega) (by omega)]
          -- the items after the next one
          cases hv : (parseValue line fuel' rest : Parsed (Value F × List Char)) with
          | error e => rfl
          | ok p =>
            have hlt := (parse_length fuel').1 _ _ _ hv
            have hle := length_trimStart_le p.2
            exact ih.2 _ _ _ _ _ (by omega) (by omega)

/-- The fuel of `parseKeyValue` is enough: more of it changes nothing. -/
theorem parseValue_fuel (s : List Char) {fuel : ℕ} (h : valueFuel s ≤ fuel) :
    (parseValue line (valueFuel s) s : Parsed (Value F × List Char)) = parseValue line fuel s :=
  (parse_fuel (valueFuel s)).1 fuel s le_rfl h

end Fuel

end TfTree.Bridge
