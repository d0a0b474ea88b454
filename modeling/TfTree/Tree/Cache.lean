import Mathlib
import TfTree.Data.Bytes
import TfTree.Data.DirectMapped
import TfTree.Tree.Arena

/-!
# Lookups through the plan cache

The plan cache of a thread (`tf_tree/src/cache.rs`), and the calls of a `Tree`
(`tf_tree/src/tree.rs`) that use it: `lookup_tagged`, `plan`, `reparent`, and the scope
under which a tree's plans are cached. The calls are made one after the other; between
two of them other threads and processes may change the arenas.

A tree that is dropped is one that is not used again.

Results:
* `Process.step_later`: what an event keeps of the trees and the arenas.
* `Process.step_ok`: an entry is the plan of its own arena, at a publication of the
  generation in its key.
* `Process.lookups_agree`: a lookup through the cache answers what a fresh compilation
  does.
* `foreign_plan`: it does not, when the identities of two segments fold to one scope.
-/

namespace TfTree

open Conc Data

variable {F : Type}

/-! ## Model of `cache.rs` -/

/-- `SLOTS`. -/
def cacheSlots : ℕ := 16

/-- `MIX`. -/
def mix : ℕ := 0x9E3779B97F4A7C15

/-- `Key`. -/
structure PlanKey where
  scope : ℕ
  target : ℕ
  source : ℕ
  generation : ℕ
  deriving DecidableEq, Repr

/-- `u64::wrapping_mul`. -/
def wrappingMul (x y : ℕ) : ℕ := x * y % 2 ^ 64

/-- `index`. -/
def PlanKey.index (key : PlanKey) : Fin cacheSlots :=
  let h := key.scope
  let h := wrappingMul h mix ^^^ key.target
  let h := wrappingMul h mix ^^^ key.source
  let h := wrappingMul h mix ^^^ key.generation
  ⟨h &&& (cacheSlots - 1), Nat.lt_succ_of_le Nat.and_le_right⟩

/-- `CACHE`: an entry holds what compiling answered. -/
abbrev PlanCache (F : Type) := DirectMapped cacheSlots PlanKey (Except LookupError (Plan (Iso3 F)))

/-! ## Model of the trees of a process -/

/-- `ArenaBacking`; a mapping is attached read-only or read-write. -/
inductive Backing where
  | heap
  | mapped (writable : Bool)
  | frozen
  deriving DecidableEq, Repr

/-- `ArenaBacking::is_writable`. -/
def Backing.isWritable : Backing → Bool
  | .heap => true
  | .mapped writable => writable
  | .frozen => false

/-- `Tree`, with the number of its arena. -/
structure Tree where
  arena : ℕ
  backing : Backing
  cacheScope : ℕ
  forkGen : Option ℕ
  deriving DecidableEq, Repr

/-- A process with one thread that looks up: the arenas its trees read, in whatever
    process they were made, and its trees. `nextScope` is the counter of
    `next_local_scope`, not reduced to a `u64`. -/
structure Process (F : Type) where
  arenas : List (Arena F)
  trees : List Tree
  nextScope : ℕ
  forkGeneration : ℕ
  cache : PlanCache F

/-- A process that has not opened a tree. -/
def Process.init : Process F := ⟨[], [], 1, 0, .empty⟩

/-- The scope of a shared segment (lines 2395–2408): `None` for an all-zero id. -/
def sharedScope (uuid : Vector UInt8 16) : Option ℕ :=
  if uuid = Vector.replicate 16 0 then none
  else
    let lo := ofLe (uuid.toList.take 8)
    let hi := ofLe (uuid.toList.drop 8)
    some (lo ^^^ hi ||| 1 <<< 63)

/-- The scope that the backing carries itself. -/
def Backing.scope (backing : Backing) (uuid : Vector UInt8 16) : Option ℕ :=
  match backing with
  | .mapped _ => sharedScope uuid
  | .heap => none
  | .frozen => none

/-- `cache_scope_for` (lines 2377–2409) and `next_local_scope`: the scope, and the
    counter after it. -/
def cacheScopeFor (backing : Backing) (uuid : Vector UInt8 16) (nextScope : ℕ) : ℕ × ℕ :=
  match backing.scope uuid with
  | some scope => (scope, nextScope)
  | none => (nextScope % 2 ^ 64, nextScope + 1)

/-- `fork_gen_for`. -/
def forkGenFor (backing : Backing) (forkGeneration : ℕ) : Option ℕ :=
  match backing with
  | .mapped _ => some forkGeneration
  | .heap => none
  | .frozen => none

/-- `ReparentError`. -/
inductive ReparentError where
  | childDetached
  | noEdge (child : FrameId)
  | topology (e : TopologyError)
  | readOnly
  | lockContended (ownerSlot : Option ℕ)
  | topologyLease (rawOsError : ℤ)
  deriving DecidableEq, Repr

namespace Process

variable (s : Process F)

/-- `Tree::detached`. -/
def detached (t : Tree) : Bool := t.forkGen.any (· ≠ s.forkGeneration)

/-- `Tree::guard`; a detached guard is not evaluated on its view. -/
def guard (t : Tree) (a : Arena F) : Guard where
  view := a.view
  generation := if s.detached t then TfTree.detached else a.stableGeneration

/-- The names of a lookup: the first part of `lookup_tagged` (lines 1746–1750). -/
def resolve (fuel : ℕ) (t : Tree) (a : Arena F) (target source : List UInt8) :
    Option (Except LookupError (FrameId × FrameId)) :=
  if s.detached t then some (.error .childDetached)
  else
    match a.find fuel target with
    | none => none
    | some (.error e) => some (.error e)
    | some (.ok f) => (a.find fuel source).map fun found => found.map fun g => (f, g)

/-- `Tree::reparent` (lines 1343–1388); `lock` is what taking the topology byte and the
    lock answers, and `none` a panic. -/
def reparent (t : Tree) (a : Arena F) (lock : Except ReparentError Unit)
    (child newParent : FrameId) : Option (Except ReparentError Unit × Arena F) :=
  if s.detached t then some (.error .childDetached, a)
  else if !t.backing.isWritable then some (.error .readOnly, a)
  else
    match lock with
    | .error e => some (.error e, a)
    | .ok () =>
      match (readFrame a.table.maxFrames child).run TopoOp.exec a.topology.mem with
      | none => none
      | some (none, _) => some (.error (.topology (.unknownFrame child)), a)
      | some (some (_, _, edge, _), _) =>
        if edge = 0 then some (.error (.noEdge child), a)
        else
          (a.topology.setParent child newParent edge).map fun (res, topology) =>
            (res.mapError .topology, { a with topology := topology })

section Plans

variable [Scalar F]

/-- `Tree::plan` (lines 1643–1669). -/
def plan (t : Tree) (a : Arena F) (target source : FrameId) : Except LookupError (Plan (Iso3 F)) :=
  if s.detached t then .error .childDetached else a.compile target source

omit [Scalar F] in
/-- `store_refusal` (lines 126–129). -/
def storeRefusal (a : Arena F) (key : PlanKey) (refusal : LookupError) : Bool :=
  refusal ≠ .childDetached ∧ a.stableGeneration = key.generation

/-- `with_plan` (lines 73–119): the answer, whether it is a hit, and the cache after. -/
def withPlan {R : Type} (t : Tree) (a : Arena F) (target source : FrameId) (generation : ℕ)
    (f : Plan (Iso3 F) → R) : (Except LookupError R × Bool) × PlanCache F :=
  let key : PlanKey := ⟨t.cacheScope, target, source, generation⟩
  match s.cache.hit PlanKey.index key with
  | some (.ok plan) => ((.ok (f plan), true), s.cache)
  | some (.error e) => ((.error e, true), s.cache)
  | none =>
    match s.plan t a target source with
    | .error e =>
      ((.error e, false),
        if storeRefusal a key e then s.cache.store PlanKey.index key (.error e) else s.cache)
    | .ok plan => ((.ok (f plan), false), s.cache.store PlanKey.index key (.ok plan))

end Plans

section Lookups

variable [Kernels F]

/-- The closure of `lookup_tagged` (lines 1760–1763). -/
def evaluate (t : Tree) (a : Arena F) (nanos : ℤ) (domain : ℕ) (plan : Plan (Iso3 F)) :
    Option (Except LookupError (Iso3 F)) :=
  ((plan.atTagged (s.guard t a) nanos domain fun _ => 0).run RingOp.exec a.rings).map (·.1.1)

/-- `Tree::lookup_tagged` (lines 1739–1765): the answer, `none` when it does not return,
    and the cache after. -/
def lookupTagged (fuel : ℕ) (t : Tree) (a : Arena F) (target source : List UInt8) (nanos : ℤ)
    (domain : ℕ) : Option (Except LookupError (Iso3 F)) × PlanCache F :=
  match s.resolve fuel t a target source with
  | none => (none, s.cache)
  | some (.error e) => (some (.error e), s.cache)
  | some (.ok (f, g)) =>
    let out := s.withPlan t a f g a.stableGeneration (s.evaluate t a nanos domain)
    match out.1.1 with
    | .error e => (some (.error e), out.2)
    | .ok answer => (answer, out.2)

/-- A lookup without a cache: compile on the topology as it is, and evaluate. -/
def freshLookup (fuel : ℕ) (t : Tree) (a : Arena F) (target source : List UInt8) (nanos : ℤ)
    (domain : ℕ) : Option (Except LookupError (Iso3 F)) :=
  match s.resolve fuel t a target source with
  | none => none
  | some (.error e) => some (.error e)
  | some (.ok (f, g)) =>
    match s.plan t a f g with
    | .error e => some (.error e)
    | .ok plan => s.evaluate t a nanos domain plan

end Lookups

end Process

/-- What happens to a process. The last four are the doings of other threads, and of
    calls that do not touch the cache. -/
inductive ProcessEvent (F : Type) where
  /-- An arena is made, here or in another process. -/
  | create (a : Arena F)
  | openTree (arena : ℕ) (backing : Backing)
  /-- The run goes on as the child. -/
  | fork
  | lookup (tree fuel : ℕ) (target source : List UInt8) (nanos : ℤ) (domain : ℕ)
  | reparent (tree : ℕ) (lock : Except ReparentError Unit) (child newParent : FrameId)
  | intern (arena : ℕ) (frames : InternMem)
  | push (arena : ℕ) (rings : RingArena F)
  | mutate (arena : ℕ) (child : FrameId) (parent edge : ℕ)
  | leave (arena : ℕ) (garbage : ℕ → Block)

namespace Process

/-- The process with the arena `i` changed. -/
def setArena (s : Process F) (i : ℕ) (a : Arena F) : Process F :=
  { s with arenas := s.arenas.set i a }

/-- The tree that `build` (lines 390–406), `build_shared` or an attach returns for the
    arena `a`, which has the number `i`. -/
def opened (s : Process F) (i : ℕ) (backing : Backing) (a : Arena F) : Tree where
  arena := i
  backing := backing
  cacheScope := (cacheScopeFor backing a.instanceUuid s.nextScope).1
  forkGen := forkGenFor backing s.forkGeneration

/-- The process with that tree. -/
def openTree (s : Process F) (i : ℕ) (backing : Backing) (a : Arena F) : Process F :=
  { s with
    trees := s.trees ++ [s.opened i backing a]
    nextScope := (cacheScopeFor backing a.instanceUuid s.nextScope).2 }

/-- One event; `none` when it is not enabled, or panics. -/
def step [Kernels F] (s : Process F) : ProcessEvent F → Option (Process F)
  | .create a => some { s with arenas := s.arenas ++ [a] }
  | .openTree i backing => do
    let a ← s.arenas[i]?
    some (s.openTree i backing a)
  | .fork => some { s with forkGeneration := (s.forkGeneration + 1) % 2 ^ 64 }
  | .lookup i fuel target source nanos domain => do
    let t ← s.trees[i]?
    let a ← s.arenas[t.arena]?
    some { s with cache := (s.lookupTagged fuel t a target source nanos domain).2 }
  | .reparent i lock child newParent => do
    let t ← s.trees[i]?
    let a ← s.arenas[t.arena]?
    let (_, a') ← s.reparent t a lock child newParent
    some (s.setArena t.arena a')
  | .intern i frames => do
    let a ← s.arenas[i]?
    some (s.setArena i { a with frames := frames })
  | .push i rings => do
    let a ← s.arenas[i]?
    some (s.setArena i { a with rings := rings })
  | .mutate i child parent edge => do
    let a ← s.arenas[i]?
    let (_, topology) ← a.topology.setParent child parent edge
    some (s.setArena i { a with topology := topology })
  | .leave i garbage => do
    let a ← s.arenas[i]?
    some (s.setArena i { a with topology := a.topology.leave garbage })

/-! ## What an event keeps -/

/-- Trees and arenas are only added, and an arena keeps what plans are made of. -/
structure Later (s s' : Process F) : Prop where
  trees : s.trees <+: s'.trees
  arenas : ∀ (i : ℕ) (a : Arena F), s.arenas[i]? = some a →
    ∃ a', s'.arenas[i]? = some a' ∧ a.Later a'
  nextScope : s.nextScope ≤ s'.nextScope

/-- The identities that the trees of a process have used so far are told apart: no
    two segments fold to one scope, and neither counter has come round. -/
structure Uncollided (s : Process F) : Prop where
  nextScope : s.nextScope ≤ 2 ^ 63
  publications : ∀ a ∈ s.arenas, a.publications ≤ 2 ^ 56
  segments : ∀ t ∈ s.trees, ∀ t' ∈ s.trees, ∀ (a a' : Arena F) (scope : ℕ),
    s.arenas[t.arena]? = some a → s.arenas[t'.arena]? = some a' →
    t.backing.scope a.instanceUuid = some scope →
    t'.backing.scope a'.instanceUuid = some scope → t.arena = t'.arena

section Later

variable {s s' : Process F} {a a' : Arena F} {t : Tree} {i : ℕ}

theorem Later.of_arenas (h : s'.arenas = s.arenas) (ht : s.trees <+: s'.trees)
    (hn : s.nextScope ≤ s'.nextScope) : s.Later s' :=
  ⟨ht, fun _ a ha => ⟨a, h ▸ ha, .refl a⟩, hn⟩

theorem later_setArena (ha : s.arenas[i]? = some a) (h : a.Later a') :
    s.Later (s.setArena i a') where
  trees := List.prefix_rfl
  arenas := by
    intro j b hb
    by_cases hij : i = j
    · subst hij
      obtain rfl := Option.some_inj.mp (ha.symm.trans hb)
      obtain ⟨hlt, -⟩ := List.getElem?_eq_some_iff.mp ha
      exact ⟨a', List.getElem?_set_self hlt, h⟩
    · refine ⟨b, ?_, .refl b⟩
      rw [setArena, List.getElem?_set_ne hij]
      exact hb
  nextScope := le_rfl

theorem later_openTree (s : Process F) (i : ℕ) (backing : Backing) (a : Arena F) :
    s.Later (s.openTree i backing a) := by
  refine .of_arenas rfl (List.prefix_append _ _) ?_
  show s.nextScope ≤ (cacheScopeFor backing a.instanceUuid s.nextScope).2
  unfold cacheScopeFor
  split
  · exact le_rfl
  · exact Nat.le_succ _

/-- A call of `reparent` mutates the topology at most. -/
theorem reparent_later {lock : Except ReparentError Unit} {child newParent : FrameId}
    {res : Except ReparentError Unit}
    (h : s.reparent t a lock child newParent = some (res, a')) : a.Later a' := by
  unfold reparent at h
  split_ifs at h
  · cases h
    exact .refl a
  · cases h
    exact .refl a
  split at h
  · cases h
    exact .refl a
  split at h
  · cases h
  · cases h
    exact .refl a
  split_ifs at h
  · cases h
    exact .refl a
  obtain ⟨⟨res', topology⟩, hset, hout⟩ := Option.map_eq_some_iff.mp h
  cases hout
  exact ⟨rfl, rfl, rfl, rfl, Topology.setParent_later hset⟩

theorem step_later [Kernels F] {e : ProcessEvent F} (h : s.step e = some s') : s.Later s' := by
  cases e with
  | create a =>
    cases h
    refine ⟨List.prefix_rfl, fun i b hb => ⟨b, ?_, .refl b⟩, le_rfl⟩
    exact List.getElem?_append_left (List.getElem?_eq_some_iff.mp hb).1 ▸ hb
  | openTree i backing =>
    obtain ⟨a, ha, h⟩ := Option.bind_eq_some_iff.mp h
    cases h
    exact later_openTree s i backing a
  | fork =>
    cases h
    exact .of_arenas rfl List.prefix_rfl le_rfl
  | lookup i fuel target source nanos domain =>
    obtain ⟨t, ht, h⟩ := Option.bind_eq_some_iff.mp h
    obtain ⟨a, ha, h⟩ := Option.bind_eq_some_iff.mp h
    cases h
    exact .of_arenas rfl List.prefix_rfl le_rfl
  | reparent i lock child newParent =>
    obtain ⟨t, ht, h⟩ := Option.bind_eq_some_iff.mp h
    obtain ⟨a, ha, h⟩ := Option.bind_eq_some_iff.mp h
    obtain ⟨⟨res, a'⟩, hre, h⟩ := Option.bind_eq_some_iff.mp h
    cases h
    exact later_setArena ha (reparent_later hre)
  | intern i frames =>
    obtain ⟨a, ha, h⟩ := Option.bind_eq_some_iff.mp h
    cases h
    exact later_setArena ha ⟨rfl, rfl, rfl, rfl, List.prefix_rfl⟩
  | push i rings =>
    obtain ⟨a, ha, h⟩ := Option.bind_eq_some_iff.mp h
    cases h
    exact later_setArena ha ⟨rfl, rfl, rfl, rfl, List.prefix_rfl⟩
  | mutate i child parent edge =>
    obtain ⟨a, ha, h⟩ := Option.bind_eq_some_iff.mp h
    obtain ⟨⟨res, topology⟩, hset, h⟩ := Option.bind_eq_some_iff.mp h
    cases h
    exact later_setArena ha ⟨rfl, rfl, rfl, rfl, Topology.setParent_later hset⟩
  | leave i garbage =>
    obtain ⟨a, ha, h⟩ := Option.bind_eq_some_iff.mp h
    cases h
    exact later_setArena ha ⟨rfl, rfl, rfl, rfl, List.prefix_rfl⟩

/-- Identities that are told apart were told apart before. -/
theorem Uncollided.earlier (hu : s'.Uncollided) (h : s.Later s') : s.Uncollided where
  nextScope := h.nextScope.trans hu.nextScope
  publications := by
    intro a ha
    obtain ⟨i, hi⟩ := List.getElem?_of_mem ha
    obtain ⟨a', ha', hl⟩ := h.arenas i a hi
    exact hl.publications_le.trans (hu.publications a' (List.mem_of_getElem? ha'))
  segments := by
    intro t ht t' ht' a a' scope ha ha' hs hs'
    obtain ⟨b, hb, hl⟩ := h.arenas _ _ ha
    obtain ⟨b', hb', hl'⟩ := h.arenas _ _ ha'
    refine hu.segments t (h.trees.subset ht) t' (h.trees.subset ht') b b' scope hb hb' ?_ ?_
    · rw [hl.uuid]
      exact hs
    · rw [hl'.uuid]
      exact hs'

end Later

/-! ## The entries of the cache -/

/-- What a tree's scope is: the one its backing carries, or a number drawn before. -/
def ScopeOf (s : Process F) (t : Tree) (a : Arena F) : Prop :=
  match t.backing.scope a.instanceUuid with
  | some scope => t.cacheScope = scope
  | none => ∃ k < s.nextScope, t.cacheScope = k % 2 ^ 64

variable [Kernels F]

/-- The entry is what compiling answers on the arena of a tree with its scope, at a
    publication with its generation. -/
def Right (s : Process F) (key : PlanKey) (result : Except LookupError (Plan (Iso3 F))) : Prop :=
  ∃ t ∈ s.trees, key.scope = t.cacheScope ∧ ∃ a, s.arenas[t.arena]? = some a ∧
    ∃ n < a.publications, key.generation = n % 2 ^ 56 ∧ ∃ target source : FrameId,
      key.target = target ∧ key.source = source ∧ result = a.compileAt n target source

/-- The invariant of a process. -/
structure Ok (s : Process F) : Prop where
  scopes : ∀ t ∈ s.trees, ∃ a, s.arenas[t.arena]? = some a ∧ s.ScopeOf t a
  owners : s.Uncollided → ∀ t ∈ s.trees, ∀ t' ∈ s.trees,
    t.cacheScope = t'.cacheScope → t.arena = t'.arena
  entries : s.Uncollided → s.cache.Sound s.Right

section Entries

variable {s s' : Process F} {a a' : Arena F} {t t' : Tree} {target source : FrameId}

omit [Kernels F] in
theorem le_sharedScope {uuid : Vector UInt8 16} {scope : ℕ} (h : sharedScope uuid = some scope) :
    2 ^ 63 ≤ scope := by
  unfold sharedScope at h
  split_ifs at h
  cases h
  exact Nat.right_le_or

omit [Kernels F] in
theorem Backing.le_scope {backing : Backing} {uuid : Vector UInt8 16} {scope : ℕ}
    (h : backing.scope uuid = some scope) : 2 ^ 63 ≤ scope := by
  cases backing with
  | heap => cases h
  | mapped writable => exact le_sharedScope h
  | frozen => cases h

omit [Kernels F] in
theorem ScopeOf.later (h : s.ScopeOf t a) (hs : s.Later s') (ha : a.Later a') :
    s'.ScopeOf t a' := by
  unfold ScopeOf at h ⊢
  rw [ha.uuid]
  split at h
  · exact h
  · obtain ⟨k, hk, hscope⟩ := h
    exact ⟨k, lt_of_lt_of_le hk hs.nextScope, hscope⟩

theorem Right.later {key : PlanKey} {result : Except LookupError (Plan (Iso3 F))}
    (h : s.Right key result) (hs : s.Later s') : s'.Right key result := by
  obtain ⟨t, ht, hscope, a, ha, n, hn, hgen, target, source, htarget, hsource, hres⟩ := h
  obtain ⟨a', ha', hl⟩ := hs.arenas _ _ ha
  refine ⟨t, hs.trees.subset ht, hscope, a', ha', n, hn.trans_le hl.publications_le, hgen,
    target, source, htarget, hsource, ?_⟩
  rw [hl.compileAt hn, hres]

/-- What compiling answers now is right for the key of the pair. -/
theorem right_compile (ht : t ∈ s.trees) (ha : s.arenas[t.arena]? = some a) :
    s.Right ⟨t.cacheScope, target, source, a.stableGeneration⟩ (a.compile target source) := by
  obtain ⟨n, hn, hgen⟩ := a.exists_current
  refine ⟨t, ht, rfl, a, ha, n, by omega, hgen, target, source, rfl, rfl, ?_⟩
  exact a.compile_current hn

/-- A right entry under the key of a pair is what compiling answers now. -/
theorem Right.eq_compile {result : Except LookupError (Plan (Iso3 F))} (hok : s.Ok)
    (hu : s.Uncollided) (ht : t ∈ s.trees) (ha : s.arenas[t.arena]? = some a)
    (h : s.Right ⟨t.cacheScope, target, source, a.stableGeneration⟩ result) :
    result = a.compile target source := by
  obtain ⟨t', ht', hscope, a', ha', n', hn', hgen', target', source', htarget, hsource, hres⟩ := h
  rw [← hok.owners hu t ht t' ht' hscope] at ha'
  obtain rfl := Option.some_inj.mp (ha.symm.trans ha')
  obtain rfl : target = target' := PNat.coe_injective htarget
  obtain rfl : source = source' := PNat.coe_injective hsource
  obtain ⟨n, hn, hgen⟩ := a.exists_current
  -- both publications have the generation of the key, and there are at most `2 ^ 56`
  have hfew := hu.publications a (List.mem_of_getElem? ha)
  have hsame : n' % 2 ^ 56 = n % 2 ^ 56 := hgen'.symm.trans hgen
  obtain rfl : n' = n := by omega
  rw [hres, a.compile_current hn]

theorem withPlan_hit {R : Type} {result : Except LookupError (Plan (Iso3 F))} {generation : ℕ}
    (h : s.cache.hit PlanKey.index ⟨t.cacheScope, target, source, generation⟩ = some result)
    (f : Plan (Iso3 F) → R) :
    s.withPlan t a target source generation f = ((result.map f, true), s.cache) := by
  unfold withPlan
  dsimp only
  rw [h]
  cases result with
  | error e => rfl
  | ok plan => rfl

/-- On a miss the thread compiles, and may store what that answers. -/
theorem withPlan_miss {R : Type} {generation : ℕ}
    (h : s.cache.hit PlanKey.index ⟨t.cacheScope, target, source, generation⟩ = none)
    (hd : s.detached t = false) (f : Plan (Iso3 F) → R) :
    (s.withPlan t a target source generation f).1.1 = (a.compile target source).map f ∧
      ((s.withPlan t a target source generation f).2 = s.cache ∨
        (s.withPlan t a target source generation f).2 = s.cache.store PlanKey.index
          ⟨t.cacheScope, target, source, generation⟩ (a.compile target source)) := by
  have hplan : s.plan t a target source = a.compile target source := by
    rw [plan, hd]
    rfl
  unfold withPlan
  dsimp only
  rw [h, hplan]
  cases a.compile target source with
  | error e =>
    refine ⟨rfl, ?_⟩
    dsimp only
    split_ifs
    · exact .inr rfl
    · exact .inl rfl
  | ok plan => exact ⟨rfl, .inr rfl⟩

/-- After a lookup the cache has the plan of the pair, or its refusal. -/
theorem isSome_hit_withPlan {R : Type} (hd : s.detached t = false)
    (hc : a.compile target source ≠ .error .childDetached) (f : Plan (Iso3 F) → R) :
    ((s.withPlan t a target source a.stableGeneration f).2.hit PlanKey.index
      ⟨t.cacheScope, target, source, a.stableGeneration⟩).isSome = true := by
  cases hhit : s.cache.hit PlanKey.index ⟨t.cacheScope, target, source, a.stableGeneration⟩ with
  | some result => rw [withPlan_hit hhit, hhit, Option.isSome_some]
  | none =>
    have hplan : s.plan t a target source = a.compile target source := by
      rw [plan, hd]
      rfl
    unfold withPlan
    dsimp only
    rw [hhit, hplan]
    cases hcompile : a.compile target source with
    | error e =>
      have hstore : storeRefusal a ⟨t.cacheScope, target, source, a.stableGeneration⟩ e = true := by
        simp only [storeRefusal, decide_eq_true_eq, and_true]
        rintro rfl
        exact hc hcompile
      dsimp only
      rw [hstore, if_pos rfl, DirectMapped.hit_store, Option.isSome_some]
    | ok plan =>
      dsimp only
      rw [DirectMapped.hit_store, Option.isSome_some]

/-- The cache of a thread answers what compiling now answers. -/
theorem withPlan_eq {R : Type} (hok : s.Ok) (hu : s.Uncollided) (ht : t ∈ s.trees)
    (ha : s.arenas[t.arena]? = some a) (hd : s.detached t = false) (f : Plan (Iso3 F) → R) :
    (s.withPlan t a target source a.stableGeneration f).1.1 = (a.compile target source).map f := by
  cases hhit : s.cache.hit PlanKey.index ⟨t.cacheScope, target, source, a.stableGeneration⟩ with
  | some result =>
    have hres := ((hok.entries hu).hit hhit).eq_compile hok hu ht ha
    rw [withPlan_hit hhit, hres]
  | none => exact (withPlan_miss hhit hd f).1

/-- What a lookup stores is right. -/
theorem withPlan_sound {R : Type} (hsound : s.cache.Sound s.Right) (ht : t ∈ s.trees)
    (ha : s.arenas[t.arena]? = some a) (hd : s.detached t = false) (f : Plan (Iso3 F) → R) :
    (s.withPlan t a target source a.stableGeneration f).2.Sound s.Right := by
  cases hhit : s.cache.hit PlanKey.index ⟨t.cacheScope, target, source, a.stableGeneration⟩ with
  | some result =>
    rw [withPlan_hit hhit]
    exact hsound
  | none =>
    obtain hkept | hstored := (withPlan_miss hhit hd f).2
    · rw [hkept]
      exact hsound
    · rw [hstored]
      exact hsound.store (right_compile ht ha)

omit [Kernels F] in
theorem not_detached_of_resolve {fuel : ℕ} {target source : List UInt8} {out : FrameId × FrameId}
    (h : s.resolve fuel t a target source = some (.ok out)) : s.detached t = false := by
  unfold resolve at h
  split_ifs at h with hd
  · cases h
  · exact Bool.eq_false_iff.mpr hd

theorem lookupTagged_sound (hsound : s.cache.Sound s.Right) (ht : t ∈ s.trees)
    (ha : s.arenas[t.arena]? = some a) (fuel : ℕ) (target source : List UInt8) (nanos : ℤ)
    (domain : ℕ) : (s.lookupTagged fuel t a target source nanos domain).2.Sound s.Right := by
  unfold lookupTagged
  split
  · exact hsound
  · exact hsound
  · next f g hres =>
    have hstored : (s.withPlan t a f g a.stableGeneration (s.evaluate t a nanos domain)).2.Sound
        s.Right := withPlan_sound hsound ht ha (not_detached_of_resolve hres) _
    dsimp only
    split
    · exact hstored
    · exact hstored

/-- A lookup answers what it would answer without the cache. -/
theorem lookupTagged_eq (hok : s.Ok) (hu : s.Uncollided) (ht : t ∈ s.trees)
    (ha : s.arenas[t.arena]? = some a) (fuel : ℕ) (target source : List UInt8) (nanos : ℤ)
    (domain : ℕ) : (s.lookupTagged fuel t a target source nanos domain).1 =
      s.freshLookup fuel t a target source nanos domain := by
  unfold lookupTagged freshLookup
  cases hres : s.resolve fuel t a target source with
  | none => rfl
  | some found =>
    cases found with
    | error e => rfl
    | ok names =>
      obtain ⟨f, g⟩ := names
      have hd := not_detached_of_resolve hres
      have hplan : s.plan t a f g = a.compile f g := by
        rw [plan, hd]
        rfl
      dsimp only
      rw [withPlan_eq hok hu ht ha hd, hplan]
      cases a.compile f g with
      | error e => rfl
      | ok plan => rfl

end Entries

/-! ## Runs -/

section Runs

variable {s s' : Process F} {t : Tree} {a : Arena F}

theorem ok_init : (Process.init : Process F).Ok where
  scopes := fun _ ht => absurd ht List.not_mem_nil
  owners := fun _ _ ht => absurd ht List.not_mem_nil
  entries := fun _ => DirectMapped.sound_empty

/-- What a process keeps when its trees and its cache stay. -/
theorem Ok.of_trees (h : s.Ok) (hs : s.Later s') (ht : s'.trees = s.trees)
    (hc : s'.cache = s.cache) : s'.Ok where
  scopes := by
    intro t hmem
    rw [ht] at hmem
    obtain ⟨a, ha, hscope⟩ := h.scopes t hmem
    obtain ⟨a', ha', hl⟩ := hs.arenas _ _ ha
    exact ⟨a', ha', hscope.later hs hl⟩
  owners := by
    intro hu
    rw [ht]
    exact h.owners (hu.earlier hs)
  entries := by
    intro hu
    rw [hc]
    exact (h.entries (hu.earlier hs)).mono fun _ _ hr => hr.later hs

variable {i : ℕ} {backing : Backing}

omit [Kernels F] in
theorem scopeOf_opened (s : Process F) (i : ℕ) (backing : Backing) (a : Arena F) :
    (s.openTree i backing a).ScopeOf (s.opened i backing a) a := by
  unfold ScopeOf
  show match backing.scope a.instanceUuid with
    | some scope => (cacheScopeFor backing a.instanceUuid s.nextScope).1 = scope
    | none => ∃ k < (cacheScopeFor backing a.instanceUuid s.nextScope).2,
        (cacheScopeFor backing a.instanceUuid s.nextScope).1 = k % 2 ^ 64
  unfold cacheScopeFor
  cases backing.scope a.instanceUuid with
  | some scope => rfl
  | none => exact ⟨s.nextScope, Nat.lt_succ_self _, rfl⟩

/-- A new tree has the scope of an older one only if both read one segment. -/
theorem opened_owner (h : s.Ok) (hu : (s.openTree i backing a).Uncollided)
    (ha : s.arenas[i]? = some a) (ht : t ∈ s.trees)
    (hscope : t.cacheScope = (s.opened i backing a).cacheScope) : t.arena = i := by
  obtain ⟨b, hb, ht'⟩ := h.scopes t ht
  have hnew := scopeOf_opened s i backing a
  have hnext := hu.nextScope
  have hmem : t ∈ (s.openTree i backing a).trees := List.mem_append_left _ ht
  have hmem' : s.opened i backing a ∈ (s.openTree i backing a).trees :=
    List.mem_append_right _ (List.mem_singleton_self _)
  have hle := (later_openTree s i backing a).nextScope
  unfold ScopeOf at ht' hnew
  cases hold : t.backing.scope b.instanceUuid with
  | some scope =>
    rw [hold] at ht'
    have hbig := Backing.le_scope hold
    cases hfresh : (s.opened i backing a).backing.scope a.instanceUuid with
    | some scope' =>
      rw [hfresh] at hnew
      -- two segments
      refine hu.segments t hmem _ hmem' b a scope hb ha hold ?_
      rw [hfresh, ← ht', hscope, hnew]
    | none =>
      rw [hfresh] at hnew
      obtain ⟨k, hk, hkscope⟩ := hnew
      dsimp only at ht'
      omega
  | none =>
    rw [hold] at ht'
    obtain ⟨k, hk, hkscope⟩ := ht'
    cases hfresh : (s.opened i backing a).backing.scope a.instanceUuid with
    | some scope' =>
      rw [hfresh] at hnew
      have hbig := Backing.le_scope hfresh
      dsimp only at hnew
      omega
    | none =>
      -- two draws of the counter
      have hdraw : cacheScopeFor backing a.instanceUuid s.nextScope =
          (s.nextScope % 2 ^ 64, s.nextScope + 1) := by
        unfold cacheScopeFor
        rw [show backing.scope a.instanceUuid = none from hfresh]
      have hcount : (s.openTree i backing a).nextScope = s.nextScope + 1 :=
        congrArg Prod.snd hdraw
      have hfst : (s.opened i backing a).cacheScope = s.nextScope % 2 ^ 64 :=
        congrArg Prod.fst hdraw
      omega

theorem Ok.openTree (h : s.Ok) (ha : s.arenas[i]? = some a) :
    (s.openTree i backing a).Ok where
  scopes := by
    intro t ht
    obtain hold | hnew := List.mem_append.mp ht
    · obtain ⟨b, hb, hscope⟩ := h.scopes t hold
      exact ⟨b, hb, hscope.later (later_openTree s i backing a) (.refl b)⟩
    · obtain rfl := List.mem_singleton.mp hnew
      exact ⟨a, ha, scopeOf_opened s i backing a⟩
  owners := by
    intro hu t ht t' ht' hscope
    obtain hold | hnew := List.mem_append.mp ht
    · obtain hold' | hnew' := List.mem_append.mp ht'
      · exact h.owners (hu.earlier (later_openTree s i backing a)) t hold t' hold' hscope
      · obtain rfl := List.mem_singleton.mp hnew'
        exact opened_owner h hu ha hold hscope
    · obtain rfl := List.mem_singleton.mp hnew
      obtain hold' | hnew' := List.mem_append.mp ht'
      · exact (opened_owner h hu ha hold' hscope.symm).symm
      · obtain rfl := List.mem_singleton.mp hnew'
        rfl
  entries := by
    intro hu
    have hlater := later_openTree s i backing a
    exact (h.entries (hu.earlier hlater)).mono fun _ _ hr => hr.later hlater

/-- **Step lemma.** Every event keeps the entries of the cache right, as long as the
    identities are told apart. -/
theorem step_ok : Preserved Process.step anyStep (Process.Ok : Process F → Prop) := by
  intro s e s' hs _ hst
  have hlater := step_later hst
  cases e with
  | openTree i backing =>
    obtain ⟨a, ha, hst⟩ := Option.bind_eq_some_iff.mp hst
    cases hst
    exact hs.openTree ha
  | lookup i fuel target source nanos domain =>
    obtain ⟨t, ht, hst⟩ := Option.bind_eq_some_iff.mp hst
    obtain ⟨a, ha, hst⟩ := Option.bind_eq_some_iff.mp hst
    cases hst
    refine ⟨hs.scopes, fun hu => hs.owners (hu.earlier hlater), fun hu => ?_⟩
    have hsound := hs.entries (hu.earlier hlater)
    exact lookupTagged_sound hsound (List.mem_of_getElem? ht) ha fuel target source nanos domain
  | create a =>
    cases hst
    exact hs.of_trees hlater rfl rfl
  | fork =>
    cases hst
    exact hs.of_trees hlater rfl rfl
  | reparent i lock child newParent =>
    obtain ⟨t, ht, hst⟩ := Option.bind_eq_some_iff.mp hst
    obtain ⟨a, ha, hst⟩ := Option.bind_eq_some_iff.mp hst
    obtain ⟨⟨res, a'⟩, hre, hst⟩ := Option.bind_eq_some_iff.mp hst
    cases hst
    exact hs.of_trees hlater rfl rfl
  | intern i frames =>
    obtain ⟨a, ha, hst⟩ := Option.bind_eq_some_iff.mp hst
    cases hst
    exact hs.of_trees hlater rfl rfl
  | push i rings =>
    obtain ⟨a, ha, hst⟩ := Option.bind_eq_some_iff.mp hst
    cases hst
    exact hs.of_trees hlater rfl rfl
  | mutate i child parent edge =>
    obtain ⟨a, ha, hst⟩ := Option.bind_eq_some_iff.mp hst
    obtain ⟨⟨res, topology⟩, hset, hst⟩ := Option.bind_eq_some_iff.mp hst
    cases hst
    exact hs.of_trees hlater rfl rfl
  | leave i garbage =>
    obtain ⟨a, ha, hst⟩ := Option.bind_eq_some_iff.mp hst
    cases hst
    exact hs.of_trees hlater rfl rfl

/-- **Run lemma.** -/
theorem ok_of_reachable (h : Reachable Process.step Process.init s) : s.Ok :=
  Runs.invariant h step_ok ok_init

/-- **Main theorem.** After any lookups, re-parentings and doings of other threads, with
    the identities that were used told apart: a lookup through the cache answers what
    compiling afresh and evaluating would, and the plan or the refusal the cache answers
    for a pair is the one of the tree's own arena at its current generation. -/
theorem lookups_agree (h : Reachable Process.step Process.init s) (hu : s.Uncollided)
    (ht : t ∈ s.trees) : ∃ a, s.arenas[t.arena]? = some a ∧
      (∀ fuel target source nanos domain,
        (s.lookupTagged fuel t a target source nanos domain).1 =
          s.freshLookup fuel t a target source nanos domain) ∧
      (s.detached t = false → ∀ target source,
        (s.withPlan t a target source a.stableGeneration id).1.1 = a.compile target source) := by
  have hok := ok_of_reachable h
  obtain ⟨a, ha, -⟩ := hok.scopes t ht
  refine ⟨a, ha, fun fuel target source nanos domain => ?_, fun hd target source => ?_⟩
  · exact lookupTagged_eq hok hu ht ha fuel target source nanos domain
  · rw [withPlan_eq hok hu ht ha hd]
    cases a.compile target source with
    | error e => rfl
    | ok plan => rfl

end Runs

end Process

/-! ## Two segments with one scope -/

section Folded

/-- Three frames with the names `a`, `bb` and `ccc`, of which `child` is attached to the
    first over the static edge `1`. -/
def starArena (uuid : Vector UInt8 16) (child : FrameId) : Arena ℚ where
  header := writeHeader (compute 4 2 1 0)
  instanceUuid := uuid
  table := ⟨4, by decide, fun name => (name.headD 0).toNat % 4⟩
  maxFrames := rfl
  frames :=
    { InternMem.init fun _ => true with
      hashes := fun i => if i < 4 then i else 0
      ids := fun i => if i < 4 then i else 0
      frameCount := 3
      records := fun id => FrameRecord.forName ([[], [97], [98, 98], [99, 99, 99]].getD id []) id }
  topology := ((Topology.init 4).setParent child 1 1).elim (Topology.init 4) Prod.snd
  edges := fun _ => ⟨⟨0, 0, 0⟩, 1, child, 1, 0, 0, 0, 1⟩
  rings := fun _ => ⟨0, 0, fun _ => 0, fun _ => 0, fun _ _ => 0, []⟩

/-- In the one segment `bb` is attached to `a`, in the other `ccc` is. The halves of the
    one identity are those of the other, swapped. -/
def firstSegment : Arena ℚ := starArena #v[1, 0, 0, 0, 0, 0, 0, 0, 0, 0, 0, 0, 0, 0, 0, 0] 2

def secondSegment : Arena ℚ := starArena #v[0, 0, 0, 0, 0, 0, 0, 0, 1, 0, 0, 0, 0, 0, 0, 0] 3

def firstTree : Tree := ⟨0, .mapped true, 2 ^ 63 + 1, some 0⟩

def secondTree : Tree := ⟨1, .mapped true, 2 ^ 63 + 1, some 0⟩

theorem starArena_find (uuid : Vector UInt8 16) (child : FrameId) :
    (starArena uuid child).find 0 [97] = some (.ok 1) ∧
      (starArena uuid child).find 0 [98, 98] = some (.ok 2) := by
  have hlen : (starArena uuid child).table.len = 8 := by
    simp [starArena, InternTable.len, nextPow2, nextPow2Loop]
  have hfirst : (starArena uuid child).table.hash [97] = 1 := rfl
  have hsecond : (starArena uuid child).table.hash [98, 98] = 2 := rfl
  unfold Arena.find InternTable.findCore InternTable.mask
  rw [hlen, hfirst, hsecond]
  exact ⟨rfl, rfl⟩

theorem starArena_resolve (s : Process ℚ) {t : Tree} (hd : s.detached t = false)
    (uuid : Vector UInt8 16) (child : FrameId) :
    s.resolve 0 t (starArena uuid child) [97] [98, 98] = some (.ok (1, 2)) := by
  obtain ⟨hfirst, hsecond⟩ := starArena_find uuid child
  rw [Process.resolve, hd, if_neg Bool.false_ne_true, hfirst]
  show ((starArena uuid child).find 0 [98, 98]).map _ = _
  rw [hsecond]
  rfl

/-- The first segment once `child` is attached to `ccc`. -/
def movedSegment (child : FrameId) : Arena ℚ :=
  { firstSegment with
    topology := (firstSegment.topology.setParent child 3 1).elim firstSegment.topology Prod.snd }

theorem movedSegment_resolve (s : Process ℚ) {t : Tree} (hd : s.detached t = false) :
    s.resolve 0 t (movedSegment 2) [97] [98, 98] = some (.ok (1, 2)) :=
  starArena_resolve s hd firstSegment.instanceUuid 2

/-- The lookups of two trees share a slot, and the one after a reparent leaves a refusal, which
    the next finds. -/
theorem lookups_agree_reparented : ∃ s, Reachable Process.step (Process.init : Process ℚ) s ∧
    s.Uncollided ∧ s.arenas[0]? = some (movedSegment 2) ∧
      s.withPlan firstTree (movedSegment 2) 1 2 (movedSegment 2).stableGeneration id =
        ((.error (.disconnected 1 2 1), true), s.cache) ∧
      (s.lookupTagged 0 firstTree (movedSegment 2) [97] [98, 98] 0 0).1 =
        s.freshLookup 0 firstTree (movedSegment 2) [97] [98, 98] 0 0 := by
  obtain ⟨s₀, s, hs₀, hstep, hcache, harenas, htrees, hnext, hd₀, hd⟩ : ∃ s₀ s : Process ℚ,
      execAll Process.step Process.init
        [.create firstSegment, .create secondSegment, .openTree 0 (.mapped true),
          .openTree 1 .heap, .lookup 0 0 [97] [98, 98] 0 0, .lookup 1 0 [97] [98, 98] 0 0,
          .lookup 0 0 [97] [98, 98] 0 0, .reparent 0 (.ok ()) 2 3] = some s₀ ∧
      s₀.step (.lookup 0 0 [97] [98, 98] 0 0) = some s ∧
      s.cache = (s₀.lookupTagged 0 firstTree (movedSegment 2) [97] [98, 98] 0 0).2 ∧
      s.arenas = [movedSegment 2, secondSegment] ∧
      s.trees = [firstTree, ⟨1, .heap, 1, none⟩] ∧ s.nextScope = 2 ∧
      s₀.detached firstTree = false ∧ s.detached firstTree = false :=
    ⟨_, _, rfl, rfl, rfl, rfl, rfl, rfl, rfl, rfl⟩
  have hreach : Reachable Process.step Process.init s :=
    (reachable_of_execAll hs₀).step trivial hstep
  have hu : s.Uncollided := by
    refine ⟨by omega, fun a ha => ?_, fun t ht t' ht' a a' scope _ _ hscope hscope' => ?_⟩
    · rw [harenas] at ha
      have hfirst : (movedSegment 2).publications = 3 := rfl
      have hsecond : secondSegment.publications = 2 := rfl
      obtain rfl | ha := List.mem_cons.mp ha
      · omega
      · obtain rfl := List.mem_singleton.mp ha
        omega
    · rw [htrees] at ht ht'
      obtain rfl | ht := List.mem_cons.mp ht
      · obtain rfl | ht' := List.mem_cons.mp ht'
        · rfl
        · obtain rfl := List.mem_singleton.mp ht'
          cases hscope'
      · obtain rfl := List.mem_singleton.mp ht
        cases hscope
  have ht : firstTree ∈ s.trees := by
    rw [htrees]
    exact List.mem_cons_self
  have hfirst : s.arenas[0]? = some (movedSegment 2) := by
    rw [harenas]
    rfl
  obtain ⟨a, ha, hlookup, hplan⟩ := Process.lookups_agree hreach hu ht
  obtain rfl : a = movedSegment 2 := Option.some_inj.mp (ha.symm.trans hfirst)
  have hcompile : (movedSegment 2).compile 1 2 = .error (.disconnected 1 2 1) := rfl
  -- the last lookup of the run left the refusal
  obtain ⟨result, hhit⟩ : ∃ result, s.cache.hit PlanKey.index
      ⟨firstTree.cacheScope, (1 : FrameId), (2 : FrameId), (movedSegment 2).stableGeneration⟩ =
        some result := by
    refine Option.isSome_iff_exists.mp ?_
    have hstored : (movedSegment 2).compile 1 2 ≠ .error .childDetached := by
      rw [hcompile]
      intro h
      cases h
    have hhit := Process.isSome_hit_withPlan hd₀ hstored
      (s₀.evaluate firstTree (movedSegment 2) 0 0)
    rw [hcache, Process.lookupTagged, movedSegment_resolve s₀ hd₀]
    dsimp only
    split
    · exact hhit
    · exact hhit
  have hcached := hplan hd 1 2
  rw [hcompile] at hcached
  refine ⟨s, hreach, hu, hfirst, ?_, hlookup 0 [97] [98, 98] 0 0⟩
  rw [Process.withPlan_hit hhit] at hcached ⊢
  rw [← hcached]

/-- A process that has both mapped. -/
def bothMapped : Process ℚ := ⟨[firstSegment, secondSegment], [firstTree, secondTree], 1, 0, .empty⟩

theorem bothMapped_reachable : Reachable Process.step Process.init bothMapped := by
  have hrun : execAll Process.step (Process.init : Process ℚ)
      [.create firstSegment, .create secondSegment, .openTree 0 (.mapped true),
        .openTree 1 (.mapped true)] = some bothMapped := rfl
  exact reachable_of_execAll hrun

/-- A lookup in a process with an empty cache stores the plan. -/
theorem lookup_stores {s : Process ℚ} {t : Tree} {uuid : Vector UInt8 16} {child : FrameId}
    {plan : Plan (Iso3 ℚ)} (hd : s.detached t = false) (hc : s.cache = .empty)
    (hp : (starArena uuid child).compile 1 2 = .ok plan) :
    (s.lookupTagged 0 t (starArena uuid child) [97] [98, 98] 0 0).2 =
      s.cache.store PlanKey.index
        ⟨t.cacheScope, 1, 2, (starArena uuid child).stableGeneration⟩ (.ok plan) := by
  have hplan : s.plan t (starArena uuid child) 1 2 = .ok plan := by
    rw [Process.plan, hd]
    exact hp
  unfold Process.lookupTagged
  rw [starArena_resolve s hd]
  dsimp only
  unfold Process.withPlan
  rw [hc, hplan]
  rfl

/-- After a lookup through the first tree, one through the second is answered with the
    plan of the first segment. -/
theorem foreign_plan : ∃ s, Reachable Process.step (Process.init : Process ℚ) s ∧
    ∃ t ∈ s.trees, ∃ a, s.arenas[t.arena]? = some a ∧
      (s.lookupTagged 0 t a [97] [98, 98] 0 0).1 ≠ s.freshLookup 0 t a [97] [98, 98] 0 0 := by
  obtain ⟨plan, hplan, p, hp⟩ : ∃ plan, firstSegment.compile 1 2 = .ok plan ∧ ∃ p,
      bothMapped.evaluate secondTree secondSegment 0 0 plan = some (.ok p) := ⟨_, rfl, _, rfl⟩
  obtain ⟨e, he⟩ : ∃ e, secondSegment.compile 1 2 = .error e := ⟨_, rfl⟩
  obtain ⟨s, hs⟩ : ∃ s, s = { bothMapped with
    cache := (bothMapped.lookupTagged 0 firstTree firstSegment [97] [98, 98] 0 0).2 } := ⟨_, rfl⟩
  have hreach : Reachable Process.step (Process.init : Process ℚ) s :=
    bothMapped_reachable.step (e := .lookup 0 0 [97] [98, 98] 0 0) trivial (by rw [hs]; rfl)
  have hd : s.detached secondTree = false := by
    rw [hs]
    rfl
  -- the second tree's key is the first one's
  have hhit : s.cache.hit PlanKey.index ⟨secondTree.cacheScope, (1 : FrameId), (2 : FrameId),
      secondSegment.stableGeneration⟩ = some (.ok plan) := by
    have hcache := lookup_stores (s := bothMapped) (t := firstTree) rfl rfl hplan
    have hkey : secondSegment.stableGeneration = firstSegment.stableGeneration := rfl
    rw [hs, hkey]
    show (bothMapped.lookupTagged 0 firstTree firstSegment [97] [98, 98] 0 0).2.hit _ _ = _
    rw [firstSegment, hcache]
    exact DirectMapped.hit_store
  have hcached : (s.lookupTagged 0 secondTree secondSegment [97] [98, 98] 0 0).1 =
      some (.ok p) := by
    rw [Process.lookupTagged, secondSegment, starArena_resolve s hd]
    dsimp only
    rw [← secondSegment, Process.withPlan_hit hhit, ← hp, hs]
    rfl
  have hfresh : s.freshLookup 0 secondTree secondSegment [97] [98, 98] 0 0 =
      some (.error e) := by
    have hplan' : s.plan secondTree secondSegment 1 2 = .error e := by
      rw [Process.plan, hd]
      exact he
    rw [Process.freshLookup, secondSegment, starArena_resolve s hd, ← secondSegment]
    dsimp only
    rw [hplan']
  refine ⟨s, hreach, secondTree, ?_, secondSegment, ?_, ?_⟩
  · rw [hs]
    exact List.mem_cons_of_mem _ (List.mem_singleton_self _)
  · rw [hs]
    rfl
  · rw [hcached, hfresh]
    intro h
    cases h

end Folded

end TfTree
