import Mathlib
import TfTree.Shm.Session

/-!
# Inheriting the ownership

`Tree::inherit_ownership` (`tf_tree/src/open.rs`) with `take_attachment`, `put_attachment` and
`owner_lost` (`tf_tree/src/tree.rs`), on a tree that joined. Any number of threads call it on
the tree; the attachment lives in a mutex, and a call has it in a local while it works.

Results:
* `Kept.step`: the session is in the mutex or with one call, and what it holds.
* `ownership_discipline`: what `open()` and `inherit_ownership` hold when they return.
* `session_lost`: a bind and an unlock that fail, and two calls of which one is late.
-/

namespace TfTree.Ipc

open Conc

/-! ## Model -/

/-- `Inheritance`. -/
inductive Inheritance where
  | inherited
  | ownerAlive
  | contended
  | readOnly
  | notApplicable
  deriving DecidableEq, Repr

/-- What `inherit_ownership` returns; an `OpenError` is the error it wraps. -/
abbrev InheritResult := Except IpcError Inheritance

/-- `Attachment`; the socket, the rendezvous and the server have no values here. -/
inductive Attachment where
  | joined (session : Session)
  | owner (session : Session)
  deriving DecidableEq, Repr

/-- Where a thread is in `inherit_ownership`. -/
inductive InheritStage where
  | idle
  /-- `is_joined`. -/
  | started
  /-- `owner_lost`. -/
  | joined
  /-- `is_writable`. -/
  | lost
  /-- `take_attachment`. -/
  | taking
  /-- `take_over_ownership`. -/
  | holding (session : Session)
  /-- `spawn_owner_server`. -/
  | acquired (session : Session)
  /-- `drop(socket)`. -/
  | serving (session : Session)
  /-- `let _ = session.release_ownership()`. -/
  | handingBack (session : Session) (e : IpcError)
  /-- `put_attachment`, and the return. -/
  | putting (attachment : Option Attachment) (result : InheritResult)
  deriving DecidableEq

/-- The call has the session in a local. -/
def InheritStage.HasSession : InheritStage → Bool
  | .holding _ | .acquired _ | .serving _ | .handingBack _ _ | .putting (some _) _ => true
  | _ => false

/-- Who holds the ownership byte. -/
inductive Owner where
  | nobody
  | self
  | other
  deriving DecidableEq, Repr

/-- A tree that joined, the threads that call `inherit_ownership` on it, and what its file
description holds. `results` is auxiliary: what the calls have returned. -/
structure Survivor (ι : Type) where
  /-- `Tree::attachment`. -/
  cell : Option Attachment
  call : ι → InheritStage
  ownership : Owner
  participant : Bool
  socket : Bool
  results : List InheritResult

namespace Survivor

/-- The tree after it joined with a session. -/
def init (ι : Type) (session : Session) (ownership : Owner) : Survivor ι where
  cell := some (.joined session)
  call := fun _ => .idle
  ownership := ownership
  participant := true
  socket := true
  results := []

inductive Event (ι : Type) where
  | call (i : ι)
  /-- `owner_lost`: whether the socket is hung up, and whether the probe fails. -/
  | poll (i : ι) (hungUp fault : Bool)
  /-- `spawn_owner_server`. -/
  | spawn (i : ι) (fault : Option IpcError)
  /-- The next access of the mutex or system call, and the errno when it fails. -/
  | turn (i : ι) (fault : Option ℕ)
  /-- Another process takes or frees the ownership byte. -/
  | other (holds : Bool)

section Model

variable {ι : Type} [DecidableEq ι] (s : Survivor ι) (i : ι)

def goto (p : InheritStage) : Survivor ι := { s with call := upd s.call i p }

/-- The call returns. -/
def finish (result : InheritResult) : Survivor ι :=
  { s.goto i .idle with results := result :: s.results }

/-- An attachment is dropped: the lock file of its session and its socket are closed. -/
def drop : Option Attachment → Survivor ι
  | none => s
  | some _ =>
    { s with
      ownership := if s.ownership = .self then .nobody else s.ownership
      participant := false
      socket := false }

/-- `put_attachment`. -/
def put (attachment : Option Attachment) : Survivor ι := { s.drop s.cell with cell := attachment }

/-- `take_attachment`, and the match on it. -/
def take : Survivor ι :=
  { s.goto i (match s.cell with
      | some (.joined session) => .holding session
      | other => .putting other (.ok .notApplicable)) with
    cell := none }

/-- `take_over_ownership`, and the match on it. -/
def takeOver (session : Session) (fault : Option ℕ) : Survivor ι :=
  if session.owner then s.goto i (.acquired session)
  else
    match fault with
    | some errno =>
      s.goto i (.putting (some (.joined session)) (.error (.lockFailed .ownership errno)))
    | none =>
      if s.ownership = .other then
        s.goto i (.putting (some (.joined session)) (.ok .contended))
      else { s.goto i (.acquired { session with owner := true }) with ownership := .self }

/-- `let _ = session.release_ownership()`. -/
def handBack (session : Session) (e : IpcError) (fault : Option ℕ) : Survivor ι :=
  if session.owner ∧ fault = none then
    { s.goto i (.putting (some (.joined { session with owner := false })) (.error e)) with
      ownership := if s.ownership = .self then .nobody else s.ownership }
  else s.goto i (.putting (some (.joined session)) (.error e))

/-- An access of the mutex or a system call. -/
def turn (writable : Bool) (fault : Option ℕ) : InheritStage → Option (Survivor ι)
  | .started =>
    match s.cell with
    | some (.joined _) => some (s.goto i .joined)
    | _ => some (s.finish i (.ok .notApplicable))
  | .lost => some (if writable then s.goto i .taking else s.finish i (.ok .readOnly))
  | .taking => some (s.take i)
  | .holding session => some (s.takeOver i session fault)
  | .serving session =>
    some { s.goto i (.putting (some (.owner session)) (.ok .inherited)) with socket := false }
  | .handingBack session e => some (s.handBack i session e fault)
  | .putting attachment result => some ((s.put attachment).finish i result)
  | _ => none

/-- One step; `writable` is `is_writable` of the tree. -/
def step (writable : Bool) (s : Survivor ι) : Event ι → Option (Survivor ι)
  | .call i => if s.call i = .idle then some (s.goto i .started) else none
  | .poll i hungUp fault =>
    match s.call i with
    | .joined =>
      match s.cell with
      | some (.joined _) =>
        if hungUp ∧ ¬ fault ∧ s.ownership ≠ .other then some (s.goto i .lost)
        else some (s.finish i (.ok .ownerAlive))
      | _ => some (s.finish i (.ok .ownerAlive))
    | _ => none
  | .spawn i fault =>
    match s.call i, fault with
    | .acquired session, none => some (s.goto i (.serving session))
    | .acquired session, some e => some (s.goto i (.handingBack session e))
    | _, _ => none
  | .turn i fault => s.turn i writable fault (s.call i)
  | .other true => if s.ownership = .nobody then some { s with ownership := .other } else none
  | .other false => if s.ownership = .other then some { s with ownership := .nobody } else none

end Model

/-! ## Where the session is -/

/-- The release after a failed bind does not fail, and a call that found no attachment puts
nothing over one. -/
def GivesBack {ι : Type} (s : Survivor ι) : Event ι → Prop
  | .turn i fault =>
    (∀ session e, s.call i = .handingBack session e → fault = none) ∧
    ∀ result, s.call i = .putting none result → s.cell = none
  | _ => True

/-- What the call that has the session keeps. -/
def Carries {ι : Type} (slot : ℕ) (s : Survivor ι) : InheritStage → Prop
  | .holding session =>
    session.slot = slot ∧ session.owner = false ∧ s.ownership ≠ .self ∧ s.socket
  | .acquired session | .serving session | .handingBack session _ =>
    session.slot = slot ∧ session.owner = true ∧ s.ownership = .self ∧ s.socket
  | .putting (some (.joined session)) _ =>
    session.slot = slot ∧ session.owner = false ∧ s.ownership ≠ .self ∧ s.socket
  | .putting (some (.owner _)) result => result = .ok .inherited
  | _ => False

/-- The session is in the mutex or with one call, until a call has inherited. -/
inductive Kept {ι : Type} (slot : ℕ) (s : Survivor ι) : Prop where
  | inherited : .ok .inherited ∈ s.results → Kept slot s
  | parked (session : Session) : s.cell = some (.joined session) → session.slot = slot →
      session.owner = false → s.ownership ≠ .self → s.participant → s.socket →
      (∀ i, (s.call i).HasSession = false) → Kept slot s
  | carried (i : ι) : s.cell = none → s.participant → Carries slot s (s.call i) →
      (∀ j, j ≠ i → (s.call j).HasSession = false) → Kept slot s

theorem Kept.init (ι : Type) {session : Session} {ownership : Owner}
    (hsession : session.owner = false) (hown : ownership ≠ .self) :
    (init ι session ownership).Kept session.slot :=
  .parked session rfl rfl hsession hown rfl rfl fun _ => rfl

section Steps

variable {ι : Type} {slot : ℕ} {s s' : Survivor ι} {i : ι} {p : InheritStage}

theorem Carries.hasSession (h : Carries slot s p) : p.HasSession = true := by
  cases p with
  | putting attachment result =>
    cases attachment with
    | none => exact h.elim
    | some attachment => rfl
  | holding | acquired | serving | handingBack => rfl
  | idle | started | joined | lost | taking => exact h.elim

/-- The call that has the session is the one that keeps it. -/
theorem Kept.of_hasSession (h : s.Kept slot) (hi : (s.call i).HasSession = true) :
    .ok .inherited ∈ s.results ∨ (s.cell = none ∧ s.participant ∧ Carries slot s (s.call i) ∧
      ∀ j, j ≠ i → (s.call j).HasSession = false) := by
  cases h with
  | inherited hinherited => exact .inl hinherited
  | parked _ _ _ _ _ _ _ hnone =>
    rw [hnone i] at hi
    cases hi
  | carried j hcell hpart hcarries hothers =>
    by_cases hij : i = j
    · rw [hij]
      exact .inr ⟨hcell, hpart, hcarries, hothers⟩
    · rw [hothers i hij] at hi
      cases hi

variable [DecidableEq ι]

/-- The call keeps the session after its step. -/
theorem Kept.carry (hcall : s'.call = upd s.call i p) (hcell : s'.cell = none)
    (hpart : s'.participant) (hcarries : Carries slot s' p)
    (hothers : ∀ j, j ≠ i → (s.call j).HasSession = false) : s'.Kept slot := by
  refine .carried i hcell hpart ?_ fun j hj => ?_
  · rwa [hcall, upd_self]
  · rw [hcall, upd_of_ne _ _ hj]
    exact hothers j hj

/-- A call that does not have the session moves on. -/
theorem Kept.goto (h : s.Kept slot) (hi : (s.call i).HasSession = false)
    (hp : p.HasSession = false) : (s.goto i p).Kept slot := by
  have hcall : ∀ j, (s.call j).HasSession = false → (upd s.call i p j).HasSession = false := by
    intro j hj
    by_cases hji : j = i
    · rwa [hji, upd_self]
    · rwa [upd_of_ne _ _ hji]
  cases h with
  | inherited hinherited => exact .inherited hinherited
  | parked session hcell hslot howner hown hpart hsocket hnone =>
    exact .parked session hcell hslot howner hown hpart hsocket fun j => hcall j (hnone j)
  | carried j hcell hpart hcarries hothers =>
    have hji : j ≠ i := by
      rintro rfl
      rw [hcarries.hasSession] at hi
      cases hi
    refine .carried j hcell hpart ?_ fun k hk => hcall k (hothers k hk)
    change Carries slot _ (upd s.call i p j)
    rw [upd_of_ne _ _ hji]
    cases hstage : s.call j <;> rw [hstage] at hcarries <;> exact hcarries

/-- A call that does not have the session returns. -/
theorem Kept.finish (h : s.Kept slot) (hi : (s.call i).HasSession = false)
    (result : InheritResult) : (s.finish i result).Kept slot := by
  cases h.goto hi (p := .idle) rfl with
  | inherited hinherited => exact .inherited (List.mem_cons_of_mem _ hinherited)
  | parked session hcell hslot howner hown hpart hsocket hnone =>
    exact .parked session hcell hslot howner hown hpart hsocket hnone
  | carried j hcell hpart hcarries hothers =>
    refine .carried j hcell hpart ?_ hothers
    change Carries slot _ ((s.goto i .idle).call j)
    cases hstage : (s.goto i .idle).call j <;> rw [hstage] at hcarries <;> exact hcarries

/-- `take_attachment`. -/
theorem Kept.take (h : s.Kept slot) (hi : (s.call i).HasSession = false) :
    (s.take i).Kept slot := by
  cases h with
  | inherited hinherited => exact .inherited hinherited
  | parked session hcell hslot howner hown hpart hsocket hnone =>
    refine Kept.carry (s := s) (i := i) (p := .holding session) ?_ rfl hpart
      ⟨hslot, howner, hown, hsocket⟩ fun j _ => hnone j
    rw [Survivor.take, hcell]
    rfl
  | carried j hcell hpart hcarries hothers =>
    have hgoto := (Kept.carried j hcell hpart hcarries hothers).goto hi
      (p := .putting none (.ok .notApplicable)) rfl
    have htake : s.take i = s.goto i (.putting none (.ok .notApplicable)) := by
      rw [Survivor.take, hcell, Survivor.goto, hcell]
    rw [htake]
    exact hgoto

/-- `take_over_ownership`. -/
theorem Kept.takeOver (h : s.Kept slot) {session : Session} (hi : s.call i = .holding session)
    (fault : Option ℕ) : (s.takeOver i session fault).Kept slot := by
  rcases h.of_hasSession (i := i) (by rw [hi]; rfl) with hinherited |
    ⟨hcell, hpart, hcarries, hothers⟩
  · cases fault <;> rw [Survivor.takeOver] <;> split_ifs <;> exact .inherited hinherited
  · rw [hi] at hcarries
    obtain ⟨hslot, howner, hown, hsocket⟩ := hcarries
    have hnot : ¬ session.owner = true := by rw [howner]; decide
    cases fault with
    | some errno =>
      rw [Survivor.takeOver, if_neg hnot]
      exact Kept.carry rfl hcell hpart ⟨hslot, howner, hown, hsocket⟩ hothers
    | none =>
      rw [Survivor.takeOver, if_neg hnot]
      split_ifs
      · exact Kept.carry rfl hcell hpart ⟨hslot, howner, hown, hsocket⟩ hothers
      · exact Kept.carry rfl hcell hpart ⟨hslot, rfl, rfl, hsocket⟩ hothers

/-- `release_ownership` that does not fail. -/
theorem Kept.handBack (h : s.Kept slot) {session : Session} {e : IpcError}
    (hi : s.call i = .handingBack session e) : (s.handBack i session e none).Kept slot := by
  rcases h.of_hasSession (i := i) (by rw [hi]; rfl) with hinherited |
    ⟨hcell, hpart, hcarries, hothers⟩
  · rw [Survivor.handBack]
    split_ifs <;> exact .inherited hinherited
  · rw [hi] at hcarries
    obtain ⟨hslot, howner, hown, hsocket⟩ := hcarries
    rw [Survivor.handBack, if_pos ⟨howner, rfl⟩, if_pos hown]
    exact Kept.carry rfl hcell hpart ⟨hslot, rfl, (fun ho => nomatch ho), hsocket⟩ hothers

/-- `put_attachment`, and the return. -/
theorem Kept.put (h : s.Kept slot) {attachment : Option Attachment} {result : InheritResult}
    (hi : s.call i = .putting attachment result) (hnone : attachment = none → s.cell = none) :
    ((s.put attachment).finish i result).Kept slot := by
  cases attachment with
  | none =>
    have hput : s.put none = s := by
      rw [Survivor.put, hnone rfl]
      change { s with cell := none } = s
      rw [← hnone rfl]
    rw [hput]
    exact h.finish (by rw [hi]; rfl) result
  | some attachment =>
    rcases h.of_hasSession (i := i) (by rw [hi]; rfl) with hinherited |
      ⟨hcell, hpart, hcarries, hothers⟩
    · refine .inherited (List.mem_cons_of_mem _ ?_)
      rw [Survivor.put]
      cases s.cell <;> exact hinherited
    · rw [Survivor.put, hcell]
      rw [hi] at hcarries
      cases attachment with
      | owner session => exact .inherited (hcarries ▸ List.mem_cons_self)
      | joined session =>
        obtain ⟨hslot, howner, hown, hsocket⟩ := hcarries
        refine .parked session rfl hslot howner hown hpart hsocket fun j => ?_
        change (upd s.call i .idle j).HasSession = false
        by_cases hj : j = i
        · rw [hj, upd_self]
          rfl
        · rw [upd_of_ne _ _ hj]
          exact hothers j hj

/-- A step that takes nothing from the session. -/
theorem Kept.turn (h : s.Kept slot) {writable : Bool} {fault : Option ℕ}
    (hgives : s.GivesBack (.turn i fault))
    (hstep : s.turn i writable fault (s.call i) = some s') : s'.Kept slot := by
  cases hi : s.call i with
  | started =>
    have hno : (s.call i).HasSession = false := by rw [hi]; rfl
    rw [hi] at hstep
    simp only [Survivor.turn] at hstep
    split at hstep <;> cases hstep
    · exact h.goto hno rfl
    · exact h.finish hno _
  | lost =>
    have hno : (s.call i).HasSession = false := by rw [hi]; rfl
    rw [hi] at hstep
    cases hstep
    split_ifs
    · exact h.goto hno rfl
    · exact h.finish hno _
  | taking =>
    rw [hi] at hstep
    cases hstep
    exact h.take (by rw [hi]; rfl)
  | holding session =>
    rw [hi] at hstep
    cases hstep
    exact h.takeOver hi fault
  | serving session =>
    rw [hi] at hstep
    cases hstep
    rcases h.of_hasSession (i := i) (by rw [hi]; rfl) with hinherited |
      ⟨hcell, hpart, hcarries, hothers⟩
    · exact .inherited hinherited
    · exact Kept.carry rfl hcell hpart rfl hothers
  | handingBack session e =>
    rw [hi] at hstep
    cases hstep
    obtain rfl := hgives.1 session e hi
    exact h.handBack hi
  | putting attachment result =>
    rw [hi] at hstep
    cases hstep
    refine h.put hi ?_
    rintro rfl
    exact hgives.2 result hi
  | idle | joined | acquired =>
    rw [hi] at hstep
    cases hstep

/-- `spawn_owner_server`. -/
theorem Kept.spawn (h : s.Kept slot) {session : Session} (hi : s.call i = .acquired session)
    (hp : p = .serving session ∨ ∃ e, p = .handingBack session e) : (s.goto i p).Kept slot := by
  rcases h.of_hasSession (i := i) (by rw [hi]; rfl) with hinherited |
    ⟨hcell, hpart, hcarries, hothers⟩
  · exact .inherited hinherited
  · rw [hi] at hcarries
    refine Kept.carry rfl hcell hpart ?_ hothers
    rcases hp with rfl | ⟨e, rfl⟩ <;> exact hcarries

omit [DecidableEq ι] in
/-- The ownership byte goes from or to another process. -/
theorem Kept.other (h : s.Kept slot) {ownership : Owner} (hwas : s.ownership ≠ .self)
    (hown : ownership ≠ .self) : Kept slot { s with ownership := ownership } := by
  cases h with
  | inherited hinherited => exact .inherited hinherited
  | parked session hcell hslot howner _ hpart hsocket hnone =>
    exact .parked session hcell hslot howner hown hpart hsocket hnone
  | carried i hcell hpart hcarries hothers =>
    refine .carried i hcell hpart ?_ hothers
    change Carries slot _ (s.call i)
    cases hi : s.call i with
    | putting attachment result =>
      rw [hi] at hcarries
      rcases attachment with _ | ⟨session | session⟩
      · exact hcarries
      · exact ⟨hcarries.1, hcarries.2.1, hown, hcarries.2.2.2⟩
      · exact hcarries
    | holding session =>
      rw [hi] at hcarries
      exact ⟨hcarries.1, hcarries.2.1, hown, hcarries.2.2.2⟩
    | acquired | serving | handingBack =>
      rw [hi] at hcarries
      exact absurd hcarries.2.2.1 hwas
    | idle | started | joined | lost | taking =>
      rw [hi] at hcarries
      exact hcarries

theorem Kept.step (h : s.Kept slot) {writable : Bool} {e : Event ι} (hgives : s.GivesBack e)
    (hstep : step writable s e = some s') : s'.Kept slot := by
  cases e with
  | call i =>
    simp only [Survivor.step] at hstep
    split_ifs at hstep with hi
    cases hstep
    exact h.goto (by rw [hi]; rfl) rfl
  | poll i hungUp fault =>
    simp only [Survivor.step] at hstep
    split at hstep
    · rename_i hi
      have hno : (s.call i).HasSession = false := by rw [hi]; rfl
      split at hstep
      · split_ifs at hstep <;> cases hstep
        · exact h.goto hno rfl
        · exact h.finish hno _
      · cases hstep
        exact h.finish hno _
    · cases hstep
  | spawn i fault =>
    simp only [Survivor.step] at hstep
    split at hstep <;> rename_i hi <;> cases hstep
    · exact h.spawn hi (.inl rfl)
    · exact h.spawn hi (.inr ⟨_, rfl⟩)
  | turn i fault => exact h.turn hgives hstep
  | other holds =>
    cases holds <;> simp only [Survivor.step] at hstep <;> split_ifs at hstep with hown <;>
      cases hstep <;> exact h.other (by rw [hown]; decide) (by decide)

end Steps

/-- **Main theorem.** Whatever the probe and the other processes do, and whichever system
calls fail, an `open()` that returns `Err` holds no byte, one that returns `Joined` does not
hold the ownership byte, and one that returns `Created` holds it and byte `0`. While the
unlock after a failed bind succeeds and no late call puts nothing over the attachment, the
session of a tree that has not inherited is there whenever no call works on it, with its
slot, its byte and its socket and without the ownership byte. -/
theorem ownership_discipline {ι κ : Type} [DecidableEq ι] [DecidableEq κ]
    {create : ι → CreatePolicy} {identity : ι → Identity} {file : LockFile ι}
    (hfile : Reachable (LockFile.step create identity) (LockFile.init ι) file)
    {session : Session} {ownership : Owner} {writable : Bool} {tree : Survivor κ}
    (hsession : session.owner = false) (hown : ownership ≠ .self)
    (htree : Runs (step writable) GivesBack (init κ session ownership) tree) :
    (∀ i e, file.stage i = .failed e →
      file.ownership ≠ some (.description i) ∧ ∀ k, file.byte k ≠ some (.description i)) ∧
    (∀ i opened, file.stage i = .returned opened →
      (opened.outcome = .joined → file.ownership ≠ some (.description i)) ∧
      (opened.outcome = .created → file.ownership = some (.description i) ∧
        file.byte creatorSlot = some (.description i))) ∧
    (.ok .inherited ∉ tree.results → (∀ i, (tree.call i).HasSession = false) →
      ∃ kept, tree.cell = some (.joined kept) ∧ kept.slot = session.slot ∧
        tree.participant ∧ tree.socket ∧ tree.ownership ≠ .self) := by
  have hheld := LockFile.Held.reachable hfile
  refine ⟨fun i e hi => hheld.failed hi, fun i opened hi => hheld.returned hi, ?_⟩
  intro hnot hnone
  have hkept : tree.Kept session.slot :=
    htree.invariant (fun _ _ _ h hgives hst => h.step hgives hst) (Kept.init κ hsession hown)
  cases hkept with
  | inherited hinherited => exact absurd hinherited hnot
  | parked kept hcell hslot _ hown hpart hsocket _ =>
    exact ⟨kept, hcell, hslot, hpart, hsocket, hown⟩
  | carried i _ _ hcarries _ =>
    have hi := hcarries.hasSession
    rw [hnone i] at hi
    cases hi

/-- A description joins slot `3`, and a survivor of another arena loses the byte to another
process and keeps its session. -/
theorem ownership_discipline_contended :
    (∃ file : LockFile (Fin 2), file.stage 0 = .returned ⟨.joined, 3, false⟩ ∧
      file.ownership ≠ some (.description 0)) ∧
    ∃ tree : Survivor (Fin 2), tree.results = [.ok .contended] ∧ tree.participant ∧
      tree.socket ∧ tree.ownership ≠ .self := by
  have hf1 : Reachable (LockFile.step (fun _ => .ifAbsent) fun _ => ⟨100, 7, [], .readWrite, [], 0⟩)
      (LockFile.init (Fin 2)) _ := .step (e := .call 0 none) .refl trivial rfl
  have hf2 := hf1.step (e := LockFile.Event.probe 0 (.ok (.serving 3))) trivial rfl
  have hf3 := hf2.step (e := LockFile.Event.write 0 .done) trivial rfl
  have hf4 := hf3.step (e := LockFile.Event.turn 0 none) trivial rfl
  have ht1 : Runs (step true) GivesBack (init (Fin 2) ⟨.joined, 3, false⟩ .nobody) _ :=
    .step (e := .call 0) .refl trivial rfl
  have ht2 := ht1.step (e := Event.turn 0 none)
    ⟨fun _ _ hs => (nomatch hs), fun _ hs => (nomatch hs)⟩ rfl
  have ht3 := ht2.step (e := Event.poll 0 true false) trivial rfl
  have ht4 := ht3.step (e := Event.turn 0 none)
    ⟨fun _ _ hs => (nomatch hs), fun _ hs => (nomatch hs)⟩ rfl
  have ht5 := ht4.step (e := Event.turn 0 none)
    ⟨fun _ _ hs => (nomatch hs), fun _ hs => (nomatch hs)⟩ rfl
  have ht6 := ht5.step (e := Event.other true) trivial rfl
  have ht7 := ht6.step (e := Event.turn 0 none)
    ⟨fun _ _ hs => (nomatch hs), fun _ hs => (nomatch hs)⟩ rfl
  have ht8 := ht7.step (e := Event.turn 0 none)
    ⟨fun _ _ hs => (nomatch hs), fun _ hs => (nomatch hs)⟩ rfl
  obtain ⟨-, hreturned, hkept⟩ := ownership_discipline hf4 rfl (by decide) ht8
  obtain ⟨kept, -, -, hpart, hsocket, hown⟩ := hkept (by decide) (by decide)
  exact ⟨⟨_, rfl, (hreturned 0 _ rfl).1 rfl⟩, _, rfl, hpart, hsocket, hown⟩

/-- The owner is gone, the thread takes the ownership byte, and the bind and the unlock fail. -/
def failedUnlock : List (Event (Fin 2)) :=
  [.call 0, .turn 0 none, .poll 0 true false, .turn 0 none, .turn 0 none, .turn 0 none,
    .spawn 0 (some (.other 98)), .turn 0 (some 37), .turn 0 none]

/-- Two threads see the owner gone; the first takes the attachment, loses the byte to another
process and puts the attachment back before the second puts back that there was none. -/
def lateCall : List (Event (Fin 2)) :=
  [.call 0, .turn 0 none, .poll 0 true false, .turn 0 none,
    .call 1, .turn 1 none, .poll 1 true false, .turn 1 none,
    .turn 0 none, .turn 1 none, .other true, .turn 0 none, .turn 0 none, .turn 1 none]

/-- A call that returns `Err` keeps the ownership byte, and a call that returns
`NotApplicable` closes the session. -/
theorem session_lost :
    (∃ tree : Survivor (Fin 2),
      Reachable (step true) (init (Fin 2) ⟨.joined, 3, false⟩ .nobody) tree ∧
      (∀ i, tree.call i = .idle) ∧ tree.results = [.error (.other 98)] ∧
      tree.ownership = .self) ∧
    ∃ tree : Survivor (Fin 2),
      Reachable (step true) (init (Fin 2) ⟨.joined, 3, false⟩ .nobody) tree ∧
      (∀ i, tree.call i = .idle) ∧ tree.results = [.ok .notApplicable, .ok .contended] ∧
      tree.cell = none ∧ tree.participant = false ∧ tree.socket = false := by
  constructor
  · obtain ⟨tree, hexec, hidle, hresults, hown⟩ : ∃ tree,
        execAll (step true) (init (Fin 2) ⟨.joined, 3, false⟩ .nobody) failedUnlock = some tree ∧
        (∀ i, tree.call i = .idle) ∧ tree.results = [.error (.other 98)] ∧
        tree.ownership = .self := ⟨_, rfl, by decide, rfl, rfl⟩
    exact ⟨tree, reachable_of_execAll hexec, hidle, hresults, hown⟩
  · obtain ⟨tree, hexec, hidle, hlost⟩ : ∃ tree,
        execAll (step true) (init (Fin 2) ⟨.joined, 3, false⟩ .nobody) lateCall = some tree ∧
        (∀ i, tree.call i = .idle) ∧ tree.results = [.ok .notApplicable, .ok .contended] ∧
        tree.cell = none ∧ tree.participant = false ∧ tree.socket = false :=
      ⟨_, rfl, by decide, rfl, rfl, rfl, rfl⟩
    exact ⟨tree, reachable_of_execAll hexec, hidle, hlost⟩

end Survivor

end TfTree.Ipc
