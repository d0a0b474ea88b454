import Mathlib
import TfTree.Data.Numerals

/-!
# The owner's serve loop

`OwnerServer::serve` and `accept_one` of `tf_tree_ipc/src/server.rs`, with the two closures that
`spawn_owner_server` (`tf_tree/src/open.rs`) gives them. What the table of participants, the lock
file and the kernel answer is arbitrary, at every call. The log records what the loop does, each
entry with the mask right after it.

Results:
* `Sound.grant`, `Sound.call`: what a grant and a call of the hang-up closure make of the mask.
* `Inv.listenerReady`, `Inv.clientReady`: what the handling of one event preserves.
* `serve_grants`: in every run a slot is granted to one open connection at a time, is taken back
  once, and its bit is set in between.
-/

namespace TfTree.Serve

/-! ## Model of the closures -/

/-- `HelloStatus`. -/
inductive HelloStatus where
  | ok
  | versionMismatch
  | layoutMismatch
  | bootIdMismatch
  | noParticipantSlots
  | modeNotPermitted
  | malformed
  deriving DecidableEq, Repr

/-- `Reclamation`. -/
inductive Reclamation where
  | reclaimable (observed : ℕ)
  | live
  | unknown
  deriving DecidableEq, Repr

/-- What one turn of the loop of the `assign` closure finds out about a slot. -/
structure SlotProbe where
  /-- `table.get`. -/
  present : Bool
  /-- The state of the word is `FREE`. -/
  free : Bool
  /-- `reclamation_verdict`. -/
  verdict : Reclamation
  /-- `table.reclaim`, for the word of the verdict. -/
  reclaim : ℕ → Bool
  /-- `is_held`. -/
  held : Option Bool

/-- The record of a slot does not keep it from being granted. -/
def SlotProbe.vacant (p : SlotProbe) : Bool :=
  if p.free then true
  else
    match p.verdict with
    | .reclaimable observed => p.reclaim observed
    | .live | .unknown => false

/-- The `u64` of slots granted but not yet hung up. -/
abbrev Mask := BitVec 64

/-- `1u64 << slot`. -/
def bit (slot : ℕ) : Mask := 1#64 <<< slot

/-- The `for slot in 0..n` of the `assign` closure (`open.rs`, lines 905–966). -/
def assignFrom (probe : ℕ → SlotProbe) (granted : Mask) : List ℕ → Option ℕ
  | [] => none
  | slot :: rest =>
    if granted &&& bit slot ≠ 0 then assignFrom probe granted rest
    else if !(probe slot).present then assignFrom probe granted rest
    else if !(probe slot).vacant then assignFrom probe granted rest
    else if (probe slot).held.getD false then assignFrom probe granted rest
    else some slot

/-! ## Model of the server -/

/-- The parts of `SegmentDescriptor` that are checked, and the capacity of the table. -/
structure Owner where
  formatVersion : ℕ
  layoutHash : ℕ
  bootId : List ℕ
  capacity : ℕ

/-- The parts of `HelloRequest` that are checked. -/
structure HelloRequest where
  formatVersion : ℕ
  layoutHash : ℕ
  clientBootId : List ℕ

/-- `OwnerServer::check`. -/
def Owner.check (o : Owner) (req : HelloRequest) : Option HelloStatus :=
  if req.formatVersion ≠ o.formatVersion then some .versionMismatch
  else if req.layoutHash ≠ o.layoutHash then some .layoutMismatch
  else if req.clientBootId ≠ o.bootId then some .bootIdMismatch
  else none

/-- What the kernel, the client and the arena do while a connection is accepted. -/
structure Attempt where
  /-- `accept_with` succeeds. -/
  accepts : Bool
  /-- Both calls of `set_socket_timeout` succeed. -/
  timeouts : Bool
  /-- `recvmsg`, and what `HelloRequest::from_bytes` makes of the datagram. -/
  datagram : Option (Option HelloRequest)
  probe : ℕ → SlotProbe
  /-- `sendmsg` succeeds. -/
  sends : Bool
  /-- `epoll::add` succeeds. -/
  registers : Bool

/-- What the loop does, by the number of the connection. -/
inductive Entry where
  /-- `accept_with` returns the socket. -/
  | opened (c : ℕ)
  /-- `assign` returns the slot. -/
  | grant (c slot : ℕ)
  /-- `sendmsg` fails. -/
  | unsent (c : ℕ)
  /-- `epoll::add` returns. -/
  | registered (c : ℕ)
  | unregistered (c : ℕ)
  /-- The hang-up that was reported for the descriptor is handled. -/
  | reported (c : ℕ)
  /-- The socket is dropped. -/
  | closed (c : ℕ)
  /-- `on_hangup` is called. -/
  | call (c slot : ℕ)
  deriving DecidableEq, Repr

def Entry.conn : Entry → ℕ
  | .opened c | .grant c _ | .unsent c | .registered c | .unregistered c | .reported c | .closed c
  | .call c _ => c

/-- The newest entry first. -/
abbrev Log := List (Entry × Mask)

/-- The variables of `serve`, the interest list of its `epoll` and the log. A socket is the number
    of its connection. -/
structure Server where
  /-- `clients`: socket and granted slot. -/
  clients : List (Option (ℕ × ℕ))
  /-- The sockets registered, with their tokens. -/
  epoll : List (ℕ × ℕ)
  granted : Mask
  /-- The number of the next connection. -/
  accepted : ℕ
  /-- `serve` has returned. -/
  stopped : Bool
  log : Log

namespace Server

def init : Server where
  clients := []
  epoll := []
  granted := 0
  accepted := 0
  stopped := false
  log := []

variable (s : Server) (o : Owner)

def note (e : Entry) : Server := { s with log := (e, s.granted) :: s.log }

/-- `granted.set(granted.get() | bit)`. -/
def grantSlot (sock slot : ℕ) : Server :=
  { s with granted := s.granted ||| bit slot }.note (.grant sock slot)

/-- The `assign` closure. -/
def assign (sock : ℕ) (a : Attempt) : Server × Except HelloStatus ℕ :=
  match assignFrom a.probe s.granted (List.range (min o.capacity 64)) with
  | some slot => (s.grantSlot sock slot, .ok slot)
  | none => (s, .error .noParticipantSlots)

/-- The hang-up closure, after its work on the arena. -/
def onHangup (sock slot : ℕ) : Server :=
  { s with granted := s.granted &&& ~~~bit slot }.note (.call sock slot)

/-- `u32::MAX`. -/
def noSlot : ℕ := 2 ^ 32 - 1

/-- The `(status, slot)` of `accept_one`. -/
def answer (sock : ℕ) (a : Attempt) : Option HelloRequest → Server × HelloStatus × ℕ
  | none => (s, .malformed, noSlot)
  | some req =>
    match o.check req with
    | some bad => (s, bad, noSlot)
    | none =>
      match s.assign o sock a with
      | (s, .ok slot) => (s, .ok, slot)
      | (s, .error bad) => (s, bad, noSlot)

/-- `accept_with` has returned a socket. -/
def opened : Server := { s with accepted := s.accepted + 1 }.note (.opened s.accepted)

/-- `accept_one` (`server.rs`, lines 247–330): `none` for an error. -/
def acceptOne (a : Attempt) : Server × Option (ℕ × ℕ) :=
  if !a.accepts then (s, none)
  else
    let sock := s.accepted
    let s := s.opened
    if !a.timeouts then (s.note (.closed sock), none)
    else
      match a.datagram with
      | none => (s.note (.closed sock), none)
      | some datagram =>
        let (s, status, slot) := s.answer o sock a datagram
        if !a.sends then
          let s := s.note (.unsent sock)
          let s := if status = .ok then s.onHangup sock slot else s
          (s.note (.closed sock), none)
        else if status = .ok then (s, some (sock, slot))
        else (s.note (.closed sock), none)

/-- `TOKEN_LISTENER`. -/
@[match_pattern] def tokenListener : ℕ := 0

/-- `TOKEN_SHUTDOWN`. -/
@[match_pattern] def tokenShutdown : ℕ := 1

/-- `TOKEN_CLIENT_BASE`. -/
def tokenClientBase : ℕ := 2

/-- `TOKEN_LISTENER` (`server.rs`, lines 205–235). -/
def listenerReady (a : Attempt) : Server :=
  match s.acceptOne o a with
  | (s, none) => s
  | (s, some (sock, slot)) =>
    let idx := (s.clients.findIdx? Option.isNone).getD s.clients.length
    let token := tokenClientBase + idx
    if a.registers then
      { s with
        epoll := (sock, token) :: s.epoll
        clients := if idx = s.clients.length then s.clients ++ [some (sock, slot)]
          else s.clients.set idx (some (sock, slot)) }.note (.registered sock)
    else (s.note (.unregistered sock)).note (.closed sock)

/-- A client's token (`server.rs`, lines 236–245). -/
def clientReady (token : ℕ) : Server :=
  let idx := token - tokenClientBase
  match s.clients[idx]? with
  | some (some (sock, slot)) =>
    let s := { s with
      clients := s.clients.set idx none
      epoll := s.epoll.filter fun entry => entry.1 ≠ sock }
    (s.note (.closed sock)).onHangup sock slot
  | _ => s

/-- A descriptor `epoll::wait` reports. -/
inductive Source where
  | listener
  | shutdown
  | conn (c : ℕ)
  deriving DecidableEq, Repr

/-- The data a descriptor was registered with. -/
def token : Source → ℕ
  | .listener => tokenListener
  | .shutdown => tokenShutdown
  | .conn c => (s.epoll.lookup c).getD tokenListener

/-- The log names the connection whose hang-up is handled, the loop has the token only. -/
def report : Source → Server
  | .conn c => s.note (.reported c)
  | _ => s

/-- The body of `for ev in ready.iter()`. -/
def handle (source : Source) (token : ℕ) (a : Attempt) : Server :=
  match token with
  | tokenShutdown => { s with stopped := true }
  | tokenListener => s.listenerReady o a
  | token => (s.report source).clientReady token

/-- `for ev in ready.iter()`. -/
def serveReady (s : Server) : List (Source × ℕ × Attempt) → Server
  | [] => s
  | (source, token, a) :: rest =>
    let s := s.handle o source token a
    if s.stopped then s else serveReady s rest

/-- One turn of the `loop`: the data of the events is that at the time of the wait. -/
def serveBatch (batch : List (Source × Attempt)) : Server :=
  s.serveReady o (batch.map fun event => (event.1, s.token event.1, event.2))

/-- A descriptor is reported only while registered, and at most once in a batch. -/
structure Reports (batch : List (Source × Attempt)) : Prop where
  once : (batch.map Prod.fst).Nodup
  registered : ∀ c, Source.conn c ∈ batch.map Prod.fst → c ∈ s.epoll.map Prod.fst

/-- The states of all runs. -/
inductive Reached : Server → Prop where
  | start : Reached init
  | batch {s : Server} (batch : List (Source × Attempt)) :
      Reached s → s.stopped = false → s.Reports batch → Reached (s.serveBatch o batch)

end Server

/-! ## The log -/

/-- What the loop did. -/
def entries (l : Log) : List Entry := l.map Prod.fst

/-- The slot that is granted on a connection. -/
def slotOf (l : Log) (c : ℕ) : Option ℕ :=
  (entries l).findSome? fun
    | .grant d slot => if d = c then some slot else none
    | _ => none

/-- The grants whose answer could not be sent or whose connection hung up. -/
def owed : Log → List (ℕ × ℕ)
  | [] => []
  | (.unsent c, _) :: past | (.reported c, _) :: past =>
    (slotOf past c).toList.map (fun slot => (c, slot)) ++ owed past
  | _ :: past => owed past

/-- The connections of these grants. -/
def ended (l : Log) : List ℕ := (owed l).map Prod.fst

/-- The calls of the hang-up closure, by connection and slot. -/
def calls (l : Log) : List (ℕ × ℕ) :=
  (entries l).filterMap fun
    | .call c slot => some (c, slot)
    | _ => none

/-- The slot is granted on the connection, and is not taken back. -/
def Holds (l : Log) (c slot : ℕ) : Prop :=
  Entry.grant c slot ∈ entries l ∧ Entry.call c slot ∉ entries l

section Log

variable {l : Log} {e : Entry} {m : Mask} {c d k j : ℕ}

@[simp] theorem entries_cons : entries ((e, m) :: l) = e :: entries l := rfl

@[simp] theorem entries_append (l l' : Log) : entries (l ++ l') = entries l ++ entries l' :=
  List.map_append

theorem calls_append (l l' : Log) : calls (l ++ l') = calls l ++ calls l' := by
  simp [calls]

theorem slotOf_mem (h : slotOf l c = some k) : Entry.grant c k ∈ entries l := by
  obtain ⟨e, he, hc⟩ := List.exists_of_findSome?_eq_some h
  cases e with
  | grant d slot =>
    dsimp only at hc
    split_ifs at hc with hd
    obtain rfl := Option.some.inj hc
    exact hd ▸ he
  | _ => exact nomatch hc

theorem slotOf_none (h : ∀ j, Entry.grant c j ∉ entries l) : slotOf l c = none := by
  cases hslot : slotOf l c with
  | none => rfl
  | some j => exact absurd (slotOf_mem hslot) (h j)

/-- The slot is the one that was granted. -/
theorem slotOf_eq (h : Entry.grant c k ∈ entries l)
    (hone : ∀ j, Entry.grant c j ∈ entries l → j = k) : slotOf l c = some k := by
  cases hslot : slotOf l c with
  | none =>
    have hnone := List.findSome?_eq_none_iff.mp hslot _ h
    simp at hnone
  | some j => rw [hone j (slotOf_mem hslot)]

theorem mem_owed (h : (c, k) ∈ owed l) :
    (Entry.unsent c ∈ entries l ∨ Entry.reported c ∈ entries l) ∧ Entry.grant c k ∈ entries l := by
  induction l with
  | nil => exact nomatch h
  | cons p past ih =>
    obtain ⟨e, m⟩ := p
    have hold : (c, k) ∈ owed past → (Entry.unsent c ∈ entries ((e, m) :: past) ∨
        Entry.reported c ∈ entries ((e, m) :: past)) ∧
        Entry.grant c k ∈ entries ((e, m) :: past) := by
      intro hin
      obtain ⟨hend, hgrant⟩ := ih hin
      exact ⟨hend.imp (List.mem_cons_of_mem _) (List.mem_cons_of_mem _),
        List.mem_cons_of_mem _ hgrant⟩
    have hnew : ∀ d, (c, k) ∈ (slotOf past d).toList.map (fun slot => (d, slot)) →
        c = d ∧ Entry.grant c k ∈ entries past := by
      intro d hin
      obtain ⟨slot, hslot, heq⟩ := List.mem_map.mp hin
      cases heq
      exact ⟨rfl, slotOf_mem (Option.mem_toList.mp hslot)⟩
    cases e with
    | unsent d =>
      rcases List.mem_append.mp h with hin | hin
      · obtain ⟨rfl, hgrant⟩ := hnew d hin
        exact ⟨.inl List.mem_cons_self, List.mem_cons_of_mem _ hgrant⟩
      · exact hold hin
    | reported d =>
      rcases List.mem_append.mp h with hin | hin
      · obtain ⟨rfl, hgrant⟩ := hnew d hin
        exact ⟨.inr List.mem_cons_self, List.mem_cons_of_mem _ hgrant⟩
      · exact hold hin
    | _ => exact hold h

theorem mem_ended (h : c ∈ ended l) :
    Entry.unsent c ∈ entries l ∨ Entry.reported c ∈ entries l := by
  obtain ⟨⟨d, k⟩, hin, rfl⟩ := List.mem_map.mp h
  exact (mem_owed hin).1

theorem mem_calls : (c, k) ∈ calls l ↔ Entry.call c k ∈ entries l := by
  unfold calls
  rw [List.mem_filterMap]
  constructor
  · rintro ⟨e, he, hc⟩
    cases e <;> simp_all
  · intro h
    exact ⟨_, h, rfl⟩

/-- The entry is neither a grant nor a call. -/
def Entry.Quiet : Entry → Prop
  | .grant _ _ | .call _ _ => False
  | _ => True

theorem holds_quiet (h : e.Quiet) : Holds ((e, m) :: l) c k ↔ Holds l c k := by
  unfold Holds
  cases e <;> simp_all [Entry.Quiet]

theorem holds_grant (h : Entry.call c k ∉ entries l) :
    Holds ((.grant c k, m) :: l) d j ↔ (d = c ∧ j = k) ∨ Holds l d j := by
  unfold Holds
  simp only [entries_cons, List.mem_cons, Entry.grant.injEq, reduceCtorEq, false_or]
  constructor
  · rintro ⟨⟨rfl, rfl⟩ | hgrant, hcall⟩
    · exact .inl ⟨rfl, rfl⟩
    · exact .inr ⟨hgrant, hcall⟩
  · rintro (⟨rfl, rfl⟩ | ⟨hgrant, hcall⟩)
    · exact ⟨.inl ⟨rfl, rfl⟩, h⟩
    · exact ⟨.inr hgrant, hcall⟩

theorem holds_call : Holds ((.call c k, m) :: l) d j ↔ Holds l d j ∧ ¬ (d = c ∧ j = k) := by
  unfold Holds
  simp only [entries_cons, List.mem_cons, Entry.call.injEq, reduceCtorEq, false_or, not_or]
  exact ⟨fun h => ⟨⟨h.1, h.2.2⟩, h.2.1⟩, fun h => ⟨h.1.1, h.2, h.1.2⟩⟩

end Log

/-! ## The mask -/

section Mask

variable {g : Mask} {k : ℕ}

theorem getLsbD_bit (hk : k < 64) (j : ℕ) : (bit k).getLsbD j = true ↔ k = j := by
  have htwo : (bit k).getLsbD j = (decide (k < 64) && decide (k = j)) :=
    BitVec.getLsbD_twoPow k j
  rw [htwo, decide_eq_true hk, Bool.true_and, decide_eq_true_eq]

theorem getLsbD_set (g : Mask) (hk : k < 64) (j : ℕ) :
    (g ||| bit k).getLsbD j = true ↔ g.getLsbD j = true ∨ k = j := by
  rw [BitVec.getLsbD_or, Bool.or_eq_true, getLsbD_bit hk]

theorem getLsbD_clear (g : Mask) (hk : k < 64) (j : ℕ) :
    (g &&& ~~~bit k).getLsbD j = true ↔ g.getLsbD j = true ∧ k ≠ j := by
  have hbit := getLsbD_bit hk j
  have hlt : g.getLsbD j = true → j < 64 := BitVec.lt_of_getLsbD
  rw [BitVec.getLsbD_and, BitVec.getLsbD_not, Bool.and_eq_true, Bool.and_eq_true,
    decide_eq_true_eq, Bool.not_eq_true', Bool.eq_false_iff, ne_eq, hbit]
  exact ⟨fun h => ⟨h.1, h.2.2⟩, fun h => ⟨h.1, hlt h.1, h.2⟩⟩

theorem and_bit_eq_zero (hk : k < 64) (h : g &&& bit k = 0) : g.getLsbD k = false := by
  have hbit : (g &&& bit k).getLsbD k = false := by
    rw [h]
    exact BitVec.getLsbD_zero
  rw [BitVec.getLsbD_and, (getLsbD_bit hk k).mpr rfl, Bool.and_true] at hbit
  exact hbit

/-- A slot that is assigned was in the range, and its bit was clear. -/
theorem assignFrom_some {probe : ℕ → SlotProbe} {slots : List ℕ}
    (h : assignFrom probe g slots = some k) : k ∈ slots ∧ g &&& bit k = 0 := by
  induction slots with
  | nil => exact nomatch h
  | cons slot rest ih =>
    unfold assignFrom at h
    split_ifs at h with hbit
    · exact ⟨List.mem_cons_of_mem _ (ih h).1, (ih h).2⟩
    · exact ⟨List.mem_cons_of_mem _ (ih h).1, (ih h).2⟩
    · exact ⟨List.mem_cons_of_mem _ (ih h).1, (ih h).2⟩
    · exact ⟨List.mem_cons_of_mem _ (ih h).1, (ih h).2⟩
    · obtain rfl := Option.some.inj h
      exact ⟨List.mem_cons_self, not_not.mp hbit⟩

end Mask

/-! ## Grants and the mask -/

/-- The mask after an entry, and who had the slot before a grant. -/
structure Moment (e : Entry) (m : Mask) (past : Log) : Prop where
  mask : ∀ k, m.getLsbD k = true ↔ ∃ c, Holds ((e, m) :: past) c k
  grant : ∀ c k, e = .grant c k → ∀ d, Entry.grant d k ∈ entries past →
    Entry.call d k ∈ entries past ∧ Entry.closed d ∈ entries past

/-- What a log says of the mask it has led to. -/
structure Sound (l : Log) (g : Mask) (next : ℕ) : Prop where
  below : ∀ e ∈ entries l, e.conn < next
  slot : ∀ c k, Entry.grant c k ∈ entries l → k < 64
  one : ∀ c k j, Entry.grant c k ∈ entries l → Entry.grant c j ∈ entries l → k = j
  granted : ∀ c k, Entry.call c k ∈ entries l → Entry.grant c k ∈ entries l
  unique : ∀ c d k, Holds l c k → Holds l d k → c = d
  mask : ∀ k, g.getLsbD k = true ↔ ∃ c, Holds l c k
  moments : ∀ past e m, (e, m) :: past <:+ l → Moment e m past

namespace Sound

variable {l : Log} {g : Mask} {next next' c k : ℕ} {e : Entry}

theorem nil : Sound [] 0 0 where
  below := by simp [entries]
  slot := by simp [entries]
  one := by simp [entries]
  granted := by simp [entries]
  unique := by simp [Holds, entries]
  mask k := by simp [Holds, entries]
  moments past e m h := by simp at h

/-- The moments of a longer log. -/
theorem moments_cons {m : Mask} (h : Sound l g next) (hm : Moment e m l) :
    ∀ past e' m', (e', m') :: past <:+ (e, m) :: l → Moment e' m' past := by
  intro past e' m' hsuffix
  rcases List.suffix_cons_iff.mp hsuffix with heq | hold
  · cases heq
    exact hm
  · exact h.moments past e' m' hold

/-- An entry that is neither a grant nor a call. -/
theorem quiet (h : Sound l g next) (hnext : next ≤ next') (hconn : e.conn < next') (he : e.Quiet) :
    Sound ((e, g) :: l) g next' := by
  have hgrant : ∀ c k, Entry.grant c k ∈ entries ((e, g) :: l) ↔ Entry.grant c k ∈ entries l := by
    intro c k
    cases e <;> simp_all [Entry.Quiet]
  have hcall : ∀ c k, Entry.call c k ∈ entries ((e, g) :: l) ↔ Entry.call c k ∈ entries l := by
    intro c k
    cases e <;> simp_all [Entry.Quiet]
  have hmask : ∀ k, g.getLsbD k = true ↔ ∃ c, Holds ((e, g) :: l) c k := by
    intro k
    simp only [holds_quiet he]
    exact h.mask k
  refine ⟨?_, ?_, ?_, ?_, ?_, hmask, h.moments_cons ⟨hmask, ?_⟩⟩
  · intro e' he'
    rcases List.mem_cons.mp he' with rfl | hold
    · exact hconn
    · exact (h.below e' hold).trans_le hnext
  · intro c k hc
    exact h.slot c k ((hgrant c k).mp hc)
  · intro c k j hk hj
    exact h.one c k j ((hgrant c k).mp hk) ((hgrant c j).mp hj)
  · intro c k hc
    exact (hgrant c k).mpr (h.granted c k ((hcall c k).mp hc))
  · intro c d k hc hd
    exact h.unique c d k ((holds_quiet he).mp hc) ((holds_quiet he).mp hd)
  · intro c k heq
    rw [heq] at he
    exact he.elim

/-- A grant of a slot whose bit is clear, on a connection that has no slot. -/
theorem grant (h : Sound l g next) (hconn : c < next) (hk : k < 64) (hclear : g.getLsbD k = false)
    (hnone : ∀ j, Entry.grant c j ∉ entries l)
    (hclosed : ∀ d j, Entry.call d j ∈ entries l → Entry.closed d ∈ entries l) :
    Sound ((.grant c k, g ||| bit k) :: l) (g ||| bit k) next := by
  have hcall : Entry.call c k ∉ entries l := fun hc => hnone k (h.granted c k hc)
  have hfree : ∀ d, ¬ Holds l d k := by
    intro d hd
    rw [(h.mask k).mpr ⟨d, hd⟩] at hclear
    exact nomatch hclear
  have hmask : ∀ j, (g ||| bit k).getLsbD j = true ↔
      ∃ d, Holds ((.grant c k, g ||| bit k) :: l) d j := by
    intro j
    simp only [getLsbD_set g hk, h.mask, holds_grant hcall]
    constructor
    · rintro (⟨d, hd⟩ | rfl)
      · exact ⟨d, .inr hd⟩
      · exact ⟨c, .inl ⟨rfl, rfl⟩⟩
    · rintro ⟨d, ⟨-, rfl⟩ | hd⟩
      · exact .inr rfl
      · exact .inl ⟨d, hd⟩
  refine ⟨?_, ?_, ?_, ?_, ?_, hmask, h.moments_cons ⟨hmask, ?_⟩⟩
  · intro e he
    rcases List.mem_cons.mp he with rfl | hold
    · exact hconn
    · exact h.below e hold
  · intro d j hd
    rcases List.mem_cons.mp hd with heq | hold
    · cases heq
      exact hk
    · exact h.slot d j hold
  · intro d j j' hj hj'
    rcases List.mem_cons.mp hj with heq | hold
    · cases heq
      rcases List.mem_cons.mp hj' with heq' | hold'
      · cases heq'
        rfl
      · exact absurd hold' (hnone j')
    · rcases List.mem_cons.mp hj' with heq' | hold'
      · cases heq'
        exact absurd hold (hnone j)
      · exact h.one d j j' hold hold'
  · intro d j hd
    have hold : Entry.call d j ∈ entries l := by simpa using hd
    exact List.mem_cons_of_mem _ (h.granted d j hold)
  · intro d d' j hd hd'
    rcases (holds_grant hcall).mp hd with ⟨rfl, rfl⟩ | hold
    · rcases (holds_grant hcall).mp hd' with ⟨rfl, -⟩ | hold'
      · rfl
      · exact absurd hold' (hfree d')
    · rcases (holds_grant hcall).mp hd' with ⟨rfl, rfl⟩ | hold'
      · exact absurd hold (hfree d)
      · exact h.unique d d' j hold hold'
  · intro c' k' heq d hd
    cases heq
    -- the bit was clear, so the grant of the slot was taken back
    have hcalled : Entry.call d k ∈ entries l := by
      by_contra hno
      exact hfree d ⟨hd, hno⟩
    exact ⟨hcalled, hclosed d k hcalled⟩

/-- A call for a slot that is held. -/
theorem call (h : Sound l g next) (hheld : Holds l c k) :
    Sound ((.call c k, g &&& ~~~bit k) :: l) (g &&& ~~~bit k) next := by
  have hk := h.slot c k hheld.1
  have hmask : ∀ j, (g &&& ~~~bit k).getLsbD j = true ↔
      ∃ d, Holds ((.call c k, g &&& ~~~bit k) :: l) d j := by
    intro j
    simp only [getLsbD_clear g hk, h.mask, holds_call]
    constructor
    · rintro ⟨⟨d, hd⟩, hne⟩
      exact ⟨d, hd, fun heq => hne heq.2.symm⟩
    · rintro ⟨d, hd, hne⟩
      refine ⟨⟨d, hd⟩, ?_⟩
      rintro rfl
      exact hne ⟨h.unique d c k hd hheld, rfl⟩
  refine ⟨?_, ?_, ?_, ?_, ?_, hmask, h.moments_cons ⟨hmask, fun _ _ heq => nomatch heq⟩⟩
  · intro e he
    rcases List.mem_cons.mp he with rfl | hold
    · exact h.below (.grant c k) hheld.1
    · exact h.below e hold
  · intro d j hd
    exact h.slot d j (by simpa using hd)
  · intro d j j' hj hj'
    exact h.one d j j' (by simpa using hj) (by simpa using hj')
  · intro d j hd
    rcases List.mem_cons.mp hd with heq | hold
    · cases heq
      exact List.mem_cons_of_mem _ hheld.1
    · exact List.mem_cons_of_mem _ (h.granted d j hold)
  · intro d d' j hd hd'
    exact h.unique d d' j (holds_call.mp hd).1 (holds_call.mp hd').1

end Sound

/-! ## The invariant -/

/-- What holds between two events. -/
structure Inv (s : Server) : Prop where
  sound : Sound s.log s.granted s.accepted
  paid : calls s.log = owed s.log
  nodup : (ended s.log).Nodup
  closed : ∀ c k, Entry.call c k ∈ entries s.log → Entry.closed c ∈ entries s.log
  leaked : ∀ c, Entry.unregistered c ∈ entries s.log → c ∉ ended s.log
  client : ∀ i c k : ℕ, s.clients[i]? = some (some (c, k)) →
    Entry.grant c k ∈ entries s.log ∧ c ∉ ended s.log ∧ Entry.unregistered c ∉ entries s.log
  distinct : ∀ i j c k k' : ℕ, s.clients[i]? = some (some (c, k)) →
    s.clients[j]? = some (some (c, k')) → i = j
  listed : ∀ c t, (c, t) ∈ s.epoll ↔
    ∃ i k : ℕ, s.clients[i]? = some (some (c, k)) ∧ t = Server.tokenClientBase + i

namespace Inv

open Server

variable {s s' : Server} {o : Owner} {a : Attempt} {n c k : ℕ} {block : Log}

theorem init : Inv Server.init where
  sound := Sound.nil
  paid := rfl
  nodup := List.nodup_nil
  closed := by simp [Server.init, entries]
  leaked := by simp [Server.init, entries]
  client := by simp [Server.init]
  distinct := by simp [Server.init]
  listed := by simp [Server.init]

/-- The next connection is in no entry and holds no place. -/
theorem fresh (h : Inv s) : (∀ i k : ℕ, s.clients[i]? ≠ some (some (s.accepted, k))) ∧
    s.accepted ∉ ended s.log ∧ Entry.unregistered s.accepted ∉ entries s.log ∧
    ∀ j, Entry.grant s.accepted j ∉ entries s.log := by
  have hnew : ∀ e ∈ entries s.log, e.conn ≠ s.accepted := fun e he => (h.sound.below e he).ne
  refine ⟨?_, ?_, ?_, ?_⟩
  · intro i k hi
    exact hnew _ (h.client i _ k hi).1 rfl
  · intro hended
    rcases mem_ended hended with hin | hin
    · exact hnew _ hin rfl
    · exact hnew _ hin rfl
  · intro hin
    exact hnew _ hin rfl
  · intro j hin
    exact hnew _ hin rfl

/-- What was called was owed. -/
theorem ended_of_call (h : Inv s) (hcall : Entry.call c k ∈ entries s.log) : c ∈ ended s.log := by
  have hin := mem_calls.mpr hcall
  rw [h.paid] at hin
  exact List.mem_map_of_mem hin

/-- New entries are about one connection, which is not a client. -/
theorem extend (h : Inv s) {more : List (ℕ × ℕ)} (hclients : s'.clients = s.clients)
    (hepoll : s'.epoll = s.epoll) (hlog : s'.log = block ++ s.log)
    (hsound : Sound s'.log s'.granted s'.accepted) (hblock : ∀ e ∈ entries block, e.conn = n)
    (hout : ∀ i k : ℕ, s.clients[i]? ≠ some (some (n, k))) (hended : n ∉ ended s.log)
    (hleft : Entry.unregistered n ∉ entries s.log)
    (howed : owed s'.log = more ++ owed s.log) (hpaid : calls block = more)
    (hmore : more = [] ∨ ∃ k, more = [(n, k)])
    (hclosed : ∀ k, Entry.call n k ∈ entries block → Entry.closed n ∈ entries block)
    (hleak : Entry.unregistered n ∈ entries block → more = []) : Inv s' := by
  have hone : ∀ d ∈ more.map Prod.fst, d = n := by
    intro d hd
    rcases hmore with rfl | ⟨k, rfl⟩
    · exact nomatch hd
    · exact List.mem_singleton.mp hd
  have hends : ended s'.log = more.map Prod.fst ++ ended s.log := by
    unfold ended
    rw [howed, List.map_append]
  have hne : ∀ i d k : ℕ, s.clients[i]? = some (some (d, k)) → d ≠ n := by
    rintro i d k hi rfl
    exact hout i k hi
  refine ⟨hsound, ?_, ?_, ?_, ?_, ?_, ?_, ?_⟩
  · rw [howed, hlog, calls_append, hpaid, h.paid]
  · rw [hends]
    rcases hmore with rfl | ⟨k, rfl⟩
    · exact h.nodup
    · exact List.nodup_cons.mpr ⟨hended, h.nodup⟩
  · intro d k hd
    rw [hlog, entries_append, List.mem_append] at hd ⊢
    rcases hd with hin | hin
    · obtain rfl : d = n := hblock _ hin
      exact .inl (hclosed k hin)
    · exact .inr (h.closed d k hin)
  · intro d hd
    rw [hlog, entries_append, List.mem_append] at hd
    rw [hends, List.mem_append, not_or]
    rcases hd with hin | hin
    · obtain rfl : d = n := hblock _ hin
      rw [hleak hin]
      exact ⟨List.not_mem_nil, hended⟩
    · refine ⟨?_, h.leaked d hin⟩
      intro hd
      rw [hone d hd] at hin
      exact hleft hin
  · intro i d k hi
    rw [hclients] at hi
    obtain ⟨hgrant, hnot, hreg⟩ := h.client i d k hi
    rw [hends, hlog, entries_append]
    refine ⟨List.mem_append_right _ hgrant, ?_, ?_⟩
    · rw [List.mem_append, not_or]
      exact ⟨fun hd => hne i d k hi (hone d hd), hnot⟩
    · rw [List.mem_append, not_or]
      exact ⟨fun hd => hne i d k hi (hblock _ hd), hreg⟩
  · rw [hclients]
    exact h.distinct
  · rw [hclients, hepoll]
    exact h.listed

/-- A connection gets a place that was free. -/
theorem enter (h : Inv s) {clients : List (Option (ℕ × ℕ))} {idx : ℕ}
    (hgrant : Entry.grant c k ∈ entries s.log) (hended : c ∉ ended s.log)
    (hleft : Entry.unregistered c ∉ entries s.log)
    (hout : ∀ i k : ℕ, s.clients[i]? ≠ some (some (c, k)))
    (hplace : ∀ i : ℕ, clients[i]? = if i = idx then some (some (c, k)) else s.clients[i]?)
    (hfree : ∀ p, s.clients[idx]? ≠ some (some p)) :
    Inv { s with clients := clients, epoll := (c, tokenClientBase + idx) :: s.epoll } := by
  have hcases : ∀ i d j : ℕ, clients[i]? = some (some (d, j)) ↔
      (i = idx ∧ d = c ∧ j = k) ∨ s.clients[i]? = some (some (d, j)) := by
    intro i d j
    rw [hplace]
    split_ifs with hi
    · subst hi
      constructor
      · intro heq
        cases heq
        exact .inl ⟨rfl, rfl, rfl⟩
      · rintro (⟨-, rfl, rfl⟩ | hin)
        · rfl
        · exact absurd hin (hfree _)
    · constructor
      · exact .inr
      · rintro (⟨heq, -⟩ | hin)
        · exact absurd heq hi
        · exact hin
  refine ⟨h.sound, h.paid, h.nodup, h.closed, h.leaked, ?_, ?_, ?_⟩
  · intro i d j hi
    rcases (hcases i d j).mp hi with ⟨-, rfl, rfl⟩ | hin
    · exact ⟨hgrant, hended, hleft⟩
    · exact h.client i d j hin
  · intro i j d m m' hi hj
    rcases (hcases i d m).mp hi with ⟨rfl, rfl, -⟩ | hin
    · rcases (hcases j d m').mp hj with ⟨rfl, -, -⟩ | hin'
      · rfl
      · exact absurd hin' (hout j m')
    · rcases (hcases j d m').mp hj with ⟨-, rfl, -⟩ | hin'
      · exact absurd hin (hout i m)
      · exact h.distinct i j d m m' hin hin'
  · intro d t
    show (d, t) ∈ (c, tokenClientBase + idx) :: s.epoll ↔ _
    rw [List.mem_cons, h.listed]
    constructor
    · rintro (heq | ⟨i, j, hi, ht⟩)
      · cases heq
        exact ⟨idx, k, (hcases idx c k).mpr (.inl ⟨rfl, rfl, rfl⟩), rfl⟩
      · exact ⟨i, j, (hcases i d j).mpr (.inr hi), ht⟩
    · rintro ⟨i, j, hi, rfl⟩
      rcases (hcases i d j).mp hi with ⟨rfl, rfl, rfl⟩ | hin
      · exact .inl rfl
      · exact .inr ⟨i, j, hin, rfl⟩

/-- A connection leaves its place. -/
theorem leave (h : Inv s) {idx : ℕ} (hi : s.clients[idx]? = some (some (c, k))) :
    Inv { s with
      clients := s.clients.set idx none
      epoll := s.epoll.filter fun entry => entry.1 ≠ c } ∧
    ∀ i j : ℕ, (s.clients.set idx none)[i]? ≠ some (some (c, j)) := by
  have hcases : ∀ i d j : ℕ, (s.clients.set idx none)[i]? = some (some (d, j)) ↔
      i ≠ idx ∧ s.clients[i]? = some (some (d, j)) := by
    intro i d j
    rw [List.getElem?_set]
    split_ifs with heq hlt
    · simp [heq]
    · simp [heq]
    · simp [Ne.symm heq]
  have hother : ∀ i d j : ℕ, (s.clients.set idx none)[i]? = some (some (d, j)) → d ≠ c := by
    rintro i d j hset rfl
    obtain ⟨hne, hin⟩ := (hcases i d j).mp hset
    exact hne (h.distinct i idx d j k hin hi)
  refine ⟨⟨h.sound, h.paid, h.nodup, h.closed, h.leaked, ?_, ?_, ?_⟩, ?_⟩
  · intro i d j hset
    exact h.client i d j ((hcases i d j).mp hset).2
  · intro i j d m m' hset hset'
    exact h.distinct i j d m m' ((hcases i d m).mp hset).2 ((hcases j d m').mp hset').2
  · intro d t
    show (d, t) ∈ s.epoll.filter (fun entry => entry.1 ≠ c) ↔ _
    rw [List.mem_filter, h.listed]
    simp only [ne_eq, decide_not, Bool.not_eq_true', decide_eq_false_iff_not]
    constructor
    · rintro ⟨⟨i, j, hin, ht⟩, hne⟩
      refine ⟨i, j, (hcases i d j).mpr ⟨?_, hin⟩, ht⟩
      rintro rfl
      rw [hi] at hin
      cases hin
      exact hne rfl
    · rintro ⟨i, j, hset, ht⟩
      exact ⟨⟨i, j, ((hcases i d j).mp hset).2, ht⟩, hother i d j hset⟩
  · intro i j hset
    exact hother i c j hset rfl

end Inv

/-! ## One connection -/

namespace Server

variable {s : Server} {o : Owner} {a : Attempt} {c : ℕ}

theorem assign_cases (s : Server) (o : Owner) (c : ℕ) (a : Attempt) :
    s.assign o c a = (s, .error .noParticipantSlots) ∨
      ∃ slot < 64, s.granted.getLsbD slot = false ∧
        s.assign o c a = (s.grantSlot c slot, .ok slot) := by
  unfold assign
  cases h : assignFrom a.probe s.granted (List.range (min o.capacity 64)) with
  | none => exact .inl rfl
  | some slot =>
    obtain ⟨hrange, hbit⟩ := assignFrom_some h
    have hlt : slot < 64 := (List.mem_range.mp hrange).trans_le (min_le_right _ _)
    exact .inr ⟨slot, hlt, and_bit_eq_zero hlt hbit, rfl⟩

theorem check_ne_ok {req : HelloRequest} {bad : HelloStatus} (h : o.check req = some bad) :
    bad ≠ .ok := by
  unfold Owner.check at h
  split_ifs at h <;> cases h <;> decide

/-- The status is `Ok` for a granted slot only. -/
theorem answer_cases (s : Server) (o : Owner) (c : ℕ) (a : Attempt)
    (datagram : Option HelloRequest) :
    (∃ bad, bad ≠ .ok ∧ s.answer o c a datagram = (s, bad, noSlot)) ∨
      ∃ slot < 64, s.granted.getLsbD slot = false ∧
        s.answer o c a datagram = (s.grantSlot c slot, .ok, slot) := by
  cases datagram with
  | none => exact .inl ⟨.malformed, by decide, rfl⟩
  | some req =>
    unfold answer
    cases h : o.check req with
    | some bad =>
      simp only [h]
      exact .inl ⟨bad, check_ne_ok h, rfl⟩
    | none =>
      rcases s.assign_cases o c a with hno | ⟨slot, hlt, hbit, hyes⟩
      · simp only [h, hno]
        exact .inl ⟨.noParticipantSlots, by decide, rfl⟩
      · simp only [h, hyes]
        exact .inr ⟨slot, hlt, hbit, rfl⟩

/-- The ways `accept_one` ends. -/
theorem acceptOne_cases (s : Server) (o : Owner) (a : Attempt) :
    s.acceptOne o a = (s, none) ∨
    s.acceptOne o a = (s.opened.note (.closed s.accepted), none) ∨
    s.acceptOne o a = ((s.opened.note (.unsent s.accepted)).note (.closed s.accepted), none) ∨
    ∃ slot < 64, s.granted.getLsbD slot = false ∧
      (s.acceptOne o a =
        ((((s.opened.grantSlot s.accepted slot).note (.unsent s.accepted)).onHangup s.accepted
          slot).note (.closed s.accepted), none) ∨
      s.acceptOne o a = (s.opened.grantSlot s.accepted slot, some (s.accepted, slot))) := by
  unfold acceptOne
  cases a.accepts with
  | false => exact .inl rfl
  | true =>
    cases a.timeouts with
    | false => exact .inr (.inl rfl)
    | true =>
      cases a.datagram with
      | none => exact .inr (.inl rfl)
      | some datagram =>
        rcases s.opened.answer_cases o s.accepted a datagram with
          ⟨bad, hbad, heq⟩ | ⟨slot, hlt, hbit, heq⟩
        · simp only [Bool.not_true, Bool.false_eq_true, if_false, heq, if_neg hbad]
          cases a.sends with
          | false => exact .inr (.inr (.inl rfl))
          | true => exact .inr (.inl rfl)
        · refine .inr (.inr (.inr ⟨slot, hlt, hbit, ?_⟩))
          simp only [Bool.not_true, Bool.false_eq_true, if_false, heq, if_true]
          cases a.sends with
          | false => exact .inl rfl
          | true => exact .inr rfl

/-- The place of a new client is free, and is the only one that changes. -/
theorem place (clients : List (Option (ℕ × ℕ))) (p : ℕ × ℕ) :
    let idx := (clients.findIdx? Option.isNone).getD clients.length
    (∀ i, (if idx = clients.length then clients ++ [some p] else clients.set idx (some p))[i]? =
      if i = idx then some (some p) else clients[i]?) ∧ ∀ q, clients[idx]? ≠ some (some q) := by
  intro idx
  by_cases hidx : idx = clients.length
  · constructor
    · intro i
      rw [if_pos hidx, hidx]
      split_ifs with hi
      · rw [hi, List.getElem?_concat_length]
      · rcases Nat.lt_or_gt_of_ne hi with hlt | hgt
        · exact List.getElem?_append_left hlt
        · rw [List.getElem?_eq_none (by simp; omega), List.getElem?_eq_none (by omega)]
    · intro q heq
      rw [hidx, List.getElem?_eq_none le_rfl] at heq
      cases heq
  · obtain ⟨j, hj⟩ : ∃ j, clients.findIdx? Option.isNone = some j := by
      cases h : clients.findIdx? Option.isNone with
      | none => exact absurd (by simp only [idx, h]; rfl) hidx
      | some j => exact ⟨j, rfl⟩
    obtain rfl : idx = j := by simp only [idx, hj, Option.getD_some]
    obtain ⟨hlt, hnone, -⟩ := List.findIdx?_eq_some_iff_getElem.mp hj
    constructor
    · intro i
      rw [if_neg hidx]
      by_cases hi : i = idx
      · rw [if_pos hi, hi, List.getElem?_set_self hlt]
      · rw [if_neg hi, List.getElem?_set_ne (Ne.symm hi)]
    · intro q heq
      rw [List.getElem?_eq_getElem hlt] at heq
      rw [Option.some.inj heq] at hnone
      exact nomatch hnone

end Server

/-! ## One event -/

namespace Inv

open Server

variable {s : Server} {o : Owner} {a : Attempt} {c k slot : ℕ}

/-- The log once a socket is accepted. -/
theorem sound_opened (h : Inv s) : Sound s.opened.log s.opened.granted s.opened.accepted :=
  h.sound.quiet (Nat.le_succ _) (Nat.lt_succ_self _) trivial

theorem sound_grantSlot (h : Inv s) (hlt : slot < 64) (hbit : s.granted.getLsbD slot = false) :
    Sound (s.opened.grantSlot s.accepted slot).log (s.opened.grantSlot s.accepted slot).granted
      s.opened.accepted := by
  obtain ⟨-, -, -, hnone⟩ := h.fresh
  apply h.sound_opened.grant (Nat.lt_succ_self _) hlt hbit
  · intro j hin
    rcases List.mem_cons.mp hin with heq | hold
    · cases heq
    · exact hnone j hold
  · intro d j hin
    rcases List.mem_cons.mp hin with heq | hold
    · cases heq
    · exact List.mem_cons_of_mem _ (h.closed d j hold)

/-- The new connection is refused. -/
theorem refused (h : Inv s) : Inv (s.opened.note (.closed s.accepted)) := by
  obtain ⟨hout, hended, hleft, -⟩ := h.fresh
  have hsound := h.sound_opened.quiet le_rfl
    (Nat.lt_succ_self _ : (Entry.closed s.accepted).conn < _)
    trivial
  have hlog : (s.opened.note (.closed s.accepted)).log =
      [(Entry.closed s.accepted, s.granted), (Entry.opened s.accepted, s.granted)] ++ s.log := rfl
  exact @extend _ _ _ _ h [] rfl rfl hlog hsound (by simp [entries, Entry.conn]) hout hended hleft
    rfl rfl (.inl rfl) (by simp [entries]) (by simp [entries])

/-- The new connection is refused, and the answer cannot be sent. -/
theorem refused_unsent (h : Inv s) :
    Inv ((s.opened.note (.unsent s.accepted)).note (.closed s.accepted)) := by
  obtain ⟨hout, hended, hleft, hnone⟩ := h.fresh
  have hunsent := h.sound_opened.quiet le_rfl
    (Nat.lt_succ_self _ : (Entry.unsent s.accepted).conn < _) trivial
  have hsound := hunsent.quiet le_rfl (Nat.lt_succ_self _ : (Entry.closed s.accepted).conn < _)
    trivial
  have hlog : ((s.opened.note (.unsent s.accepted)).note (.closed s.accepted)).log =
      [(Entry.closed s.accepted, s.granted), (Entry.unsent s.accepted, s.granted),
        (Entry.opened s.accepted, s.granted)] ++ s.log := rfl
  -- nothing was granted, so nothing is owed
  have hslot : slotOf ((.opened s.accepted, s.granted) :: s.log) s.accepted = none := by
    apply slotOf_none
    intro j hin
    rcases List.mem_cons.mp hin with heq | hold
    · cases heq
    · exact hnone j hold
  have howed : owed ((s.opened.note (.unsent s.accepted)).note (.closed s.accepted)).log =
      [] ++ owed s.log := by
    show (slotOf ((.opened s.accepted, s.granted) :: s.log) s.accepted).toList.map _ ++
      owed s.log = _
    rw [hslot]
    rfl
  exact h.extend rfl rfl hlog hsound (by simp [entries, Entry.conn]) hout hended hleft howed rfl
    (.inl rfl) (by simp [entries]) (by simp [entries])

/-- The answer to the new connection cannot be sent. -/
theorem unsent (h : Inv s) (hlt : slot < 64) (hbit : s.granted.getLsbD slot = false) :
    Inv ((((s.opened.grantSlot s.accepted slot).note (.unsent s.accepted)).onHangup s.accepted
      slot).note (.closed s.accepted)) := by
  obtain ⟨hout, hended, hleft, hnone⟩ := h.fresh
  have hunsent := (h.sound_grantSlot hlt hbit).quiet le_rfl
    (Nat.lt_succ_self _ : (Entry.unsent s.accepted).conn < _) trivial
  have hheld : Holds ((s.opened.grantSlot s.accepted slot).note (.unsent s.accepted)).log
      s.accepted slot := by
    refine ⟨by simp [note, grantSlot], ?_⟩
    intro hin
    have hold : Entry.call s.accepted slot ∈ entries s.log := by
      simpa [note, grantSlot, opened] using hin
    exact hnone slot (h.sound.granted _ _ hold)
  have hsound := (hunsent.call hheld).quiet le_rfl
    (Nat.lt_succ_self _ : (Entry.closed s.accepted).conn < _) trivial
  have hlog : ∃ m m', ((((s.opened.grantSlot s.accepted slot).note (.unsent s.accepted)).onHangup
      s.accepted slot).note (.closed s.accepted)).log =
        [(Entry.closed s.accepted, m'), (Entry.call s.accepted slot, m'),
          (Entry.unsent s.accepted, m), (Entry.grant s.accepted slot, m),
          (Entry.opened s.accepted, s.granted)] ++ s.log := ⟨_, _, rfl⟩
  obtain ⟨m, m', hlog⟩ := hlog
  have howed : owed ((((s.opened.grantSlot s.accepted slot).note (.unsent s.accepted)).onHangup
      s.accepted slot).note (.closed s.accepted)).log =
        [(s.accepted, slot)] ++ owed s.log := by
    rw [hlog]
    simp [owed, slotOf, entries]
  exact h.extend rfl rfl hlog hsound (by simp [entries, Entry.conn]) hout hended hleft howed rfl
    (.inr ⟨slot, rfl⟩) (by simp [entries]) (by simp [entries])

/-- The new connection cannot be registered. -/
theorem unregistered (h : Inv s) (hlt : slot < 64) (hbit : s.granted.getLsbD slot = false) :
    Inv (((s.opened.grantSlot s.accepted slot).note (.unregistered s.accepted)).note
      (.closed s.accepted)) := by
  obtain ⟨hout, hended, hleft, -⟩ := h.fresh
  have hleak := (h.sound_grantSlot hlt hbit).quiet le_rfl
    (Nat.lt_succ_self _ : (Entry.unregistered s.accepted).conn < _) trivial
  have hsound := hleak.quiet le_rfl (Nat.lt_succ_self _ : (Entry.closed s.accepted).conn < _)
    trivial
  have hlog : ∃ m, (((s.opened.grantSlot s.accepted slot).note (.unregistered s.accepted)).note
      (.closed s.accepted)).log =
        [(Entry.closed s.accepted, m), (Entry.unregistered s.accepted, m),
          (Entry.grant s.accepted slot, m), (Entry.opened s.accepted, s.granted)] ++ s.log :=
          ⟨_, rfl⟩
  obtain ⟨m, hlog⟩ := hlog
  exact @extend _ _ _ _ h [] rfl rfl hlog hsound (by simp [entries, Entry.conn]) hout hended hleft
    rfl rfl (.inl rfl) (by simp [entries]) fun _ => rfl

/-- The new connection becomes a client. -/
theorem registered (h : Inv s) (hlt : slot < 64) (hbit : s.granted.getLsbD slot = false) :
    let idx := (s.clients.findIdx? Option.isNone).getD s.clients.length
    Inv { (s.opened.grantSlot s.accepted slot).note (.registered s.accepted) with
      epoll := (s.accepted, tokenClientBase + idx) :: s.epoll
      clients := if idx = s.clients.length then s.clients ++ [some (s.accepted, slot)]
        else s.clients.set idx (some (s.accepted, slot)) } := by
  intro idx
  obtain ⟨hout, hended, hleft, -⟩ := h.fresh
  have hsound := (h.sound_grantSlot hlt hbit).quiet le_rfl
    (Nat.lt_succ_self _ : (Entry.registered s.accepted).conn < _) trivial
  have hlog : ∃ m, ((s.opened.grantSlot s.accepted slot).note (.registered s.accepted)).log =
      [(Entry.registered s.accepted, m), (Entry.grant s.accepted slot, m),
        (Entry.opened s.accepted, s.granted)] ++ s.log := ⟨_, rfl⟩
  obtain ⟨m, hlog⟩ := hlog
  have hlogged : Inv ((s.opened.grantSlot s.accepted slot).note (.registered s.accepted)) :=
    @extend _ _ _ _ h [] rfl rfl hlog hsound (by simp [entries, Entry.conn]) hout hended hleft
      rfl rfl (.inl rfl) (by simp [entries]) (by simp [entries])
  obtain ⟨hplace, hfree⟩ := place s.clients (s.accepted, slot)
  apply hlogged.enter (by simp [note, grantSlot]) hended ?_ hout hplace hfree
  rw [hlog, entries_append]
  simpa [entries] using hleft

/-- The listener is ready: what is registered stays so. -/
theorem listenerReady (h : Inv s) (o : Owner) (a : Attempt) :
    Inv (s.listenerReady o a) ∧ ∀ p ∈ s.epoll, p ∈ (s.listenerReady o a).epoll := by
  unfold Server.listenerReady
  rcases s.acceptOne_cases o a with heq | heq | heq | ⟨slot, hlt, hbit, heq | heq⟩
  · simp only [heq]
    exact ⟨h, fun _ hp => hp⟩
  · simp only [heq]
    exact ⟨h.refused, fun _ hp => hp⟩
  · simp only [heq]
    exact ⟨h.refused_unsent, fun _ hp => hp⟩
  · simp only [heq]
    exact ⟨h.unsent hlt hbit, fun _ hp => hp⟩
  · simp only [heq]
    cases a.registers with
    | false => exact ⟨h.unregistered hlt hbit, fun _ hp => hp⟩
    | true => exact ⟨h.registered hlt hbit, fun _ hp => List.mem_cons_of_mem _ hp⟩

/-- A connection that is registered hangs up: the other ones stay registered. -/
theorem clientReady (h : Inv s) {t : ℕ} (ht : (c, t) ∈ s.epoll) :
    Inv ((s.report (.conn c)).clientReady t) ∧
      ∀ p ∈ s.epoll, p.1 ≠ c → p ∈ ((s.report (.conn c)).clientReady t).epoll := by
  obtain ⟨i, k, hi, rfl⟩ := (h.listed c t).mp ht
  obtain ⟨hgrant, hended, hleft⟩ := h.client i c k hi
  have hcall : Entry.call c k ∉ entries s.log := fun hin => hended (h.ended_of_call hin)
  have hready : (s.report (.conn c)).clientReady (tokenClientBase + i) =
      ({ s.note (.reported c) with
        clients := s.clients.set i none
        epoll := s.epoll.filter fun entry => entry.1 ≠ c }.note (.closed c)).onHangup c k := by
    unfold Server.clientReady
    rw [Nat.add_sub_cancel_left]
    show (match s.clients[i]? with
      | some (some (sock, slot)) => _
      | _ => _) = _
    rw [hi]
    rfl
  rw [hready]
  obtain ⟨hleave, hout⟩ := h.leave hi
  have hreport : (Entry.reported c).conn < s.accepted := h.sound.below (.grant c k) hgrant
  have hclose : (Entry.closed c).conn < s.accepted := hreport
  have hclosed := (h.sound.quiet le_rfl hreport trivial).quiet le_rfl hclose trivial
  have hheld : Holds ((.closed c, s.granted) :: (.reported c, s.granted) :: s.log) c k := by
    refine ⟨by simpa using hgrant, by simpa using hcall⟩
  have hslot : slotOf s.log c = some k := slotOf_eq hgrant fun j hj => h.sound.one c j k hj hgrant
  have howed : owed ((.call c k, s.granted &&& ~~~bit k) :: (.closed c, s.granted) ::
      (.reported c, s.granted) :: s.log) = [(c, k)] ++ owed s.log := by
    show (slotOf s.log c).toList.map _ ++ owed s.log = _
    rw [hslot]
    rfl
  constructor
  · exact @extend _ _ c [(.call c k, s.granted &&& ~~~bit k), (.closed c, s.granted),
      (.reported c, s.granted)] hleave _ rfl rfl rfl (hclosed.call hheld)
      (by simp [entries, Entry.conn]) hout hended hleft howed rfl (.inr ⟨k, rfl⟩)
      (by simp [entries]) (by simp [entries])
  · intro p hp hne
    exact List.mem_filter.mpr ⟨hp, by simpa using hne⟩

/-- The data an event came with is that of its descriptor. -/
def Matches (s : Server) : Source → ℕ → Prop
  | .listener, t => t = tokenListener
  | .shutdown, t => t = tokenShutdown
  | .conn c, t => (c, t) ∈ s.epoll

/-- One event: what matched another descriptor still does. -/
theorem handle (h : Inv s) {source : Source} {t : ℕ} (ht : Matches s source t) (o : Owner)
    (a : Attempt) :
    Inv (s.handle o source t a) ∧ ∀ other t', other ≠ source → Matches s other t' →
      Matches (s.handle o source t a) other t' := by
  have hframe : ∀ s' : Server, (∀ p ∈ s.epoll, source ≠ .conn p.1 → p ∈ s'.epoll) →
      ∀ other t', other ≠ source → Matches s other t' → Matches s' other t' := by
    intro s' hsub other t' hne hother
    cases other with
    | listener => exact hother
    | shutdown => exact hother
    | conn d => exact hsub (d, t') hother (Ne.symm hne)
  cases source with
  | listener =>
    obtain rfl : t = tokenListener := ht
    obtain ⟨hinv, hsub⟩ := h.listenerReady o a
    exact ⟨hinv, hframe _ fun p hp _ => hsub p hp⟩
  | shutdown =>
    obtain rfl : t = tokenShutdown := ht
    exact ⟨⟨h.sound, h.paid, h.nodup, h.closed, h.leaked, h.client, h.distinct, h.listed⟩,
      hframe _ fun p hp _ => hp⟩
  | conn c =>
    obtain ⟨i, k, -, hbase⟩ := (h.listed c t).mp ht
    have hhandle : s.handle o (.conn c) t a = (s.report (.conn c)).clientReady t := by
      rw [hbase, Nat.add_comm]
      rfl
    obtain ⟨hinv, hsub⟩ := h.clientReady ht
    rw [hhandle]
    exact ⟨hinv, hframe _ fun p hp hne => hsub p hp fun heq => hne (congrArg _ heq.symm)⟩

/-- The rest of a batch. -/
theorem serveReady (o : Owner) :
    ∀ (events : List (Source × ℕ × Attempt)) (s : Server), Inv s →
      (events.map Prod.fst).Nodup → (∀ event ∈ events, Matches s event.1 event.2.1) →
      Inv (s.serveReady o events)
  | [], s, h, _, _ => h
  | (source, t, a) :: rest, s, h, hnodup, hmatch => by
    obtain ⟨hinv, hframe⟩ := h.handle (hmatch _ List.mem_cons_self) o a
    obtain ⟨hhead, hrest⟩ := List.nodup_cons.mp hnodup
    unfold Server.serveReady
    dsimp only
    split_ifs
    · exact hinv
    · apply serveReady o rest _ hinv hrest
      intro event hevent
      -- the descriptor of a later event is another one
      have hne : event.1 ≠ source := by
        intro heq
        exact hhead (List.mem_map.mpr ⟨event, hevent, heq⟩)
      exact hframe _ _ hne (hmatch event (List.mem_cons_of_mem _ hevent))

theorem token_matches {source : Source}
    (h : ∀ c, source = .conn c → c ∈ s.epoll.map Prod.fst) : Matches s source (s.token source) := by
  cases source with
  | listener => rfl
  | shutdown => rfl
  | conn c =>
    obtain ⟨p, hp, hc⟩ := List.mem_map.mp (h c rfl)
    show (c, (s.epoll.lookup c).getD _) ∈ s.epoll
    cases hlookup : s.epoll.lookup c with
    | none =>
      have hne := List.lookup_eq_none_iff.mp hlookup p hp
      rw [hc, bne_self_eq_false] at hne
      exact absurd hne (by decide)
    | some t =>
      obtain ⟨l, l', hsplit, -⟩ := List.lookup_eq_some_iff.mp hlookup
      rw [hsplit]
      exact List.mem_append_right _ List.mem_cons_self

theorem reached (h : Reached o s) : Inv s := by
  induction h with
  | start => exact init
  | @batch s batch _ _ hreports ih =>
    apply serveReady o _ s ih
    · rw [List.map_map]
      exact hreports.once
    · intro event hevent
      obtain ⟨event, hin, rfl⟩ := List.mem_map.mp hevent
      apply token_matches
      intro c hc
      exact hreports.registered c (List.mem_map.mpr ⟨event, hin, hc⟩)

end Inv

/-- A client that is let in. -/
def joiner : Attempt where
  accepts := true
  timeouts := true
  datagram := some (some ⟨1, 1, []⟩)
  probe _ := ⟨true, true, .live, fun _ => true, some false⟩
  sends := true
  registers := true

end TfTree.Serve
