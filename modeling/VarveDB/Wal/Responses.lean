import VarveDB.Wal.WriteBatches

/-! The callers that wait for a flush of the WAL buffer. -/
namespace VarveDB.WriteBatches.Responses
open Library Runs List

structure Flight where
  batches : IndexMap String WriteBatch
  responses : List Nat
  calls : List (Option Nat × List WalOp)

inductive WriteResult where
  | success
  | error

/-- The senders of pending responses are numbered by their calls; the flushes that have ended are kept with the result
sent to their senders. -/
structure State where
  buffer : WalBuffer
  writeOpResponses : List Nat
  next : Nat
  accepted : List Nat
  calls : List (Option Nat × List WalOp)
  flights : List Flight
  ended : List (Flight × WriteResult)

inductive Action where
  | writeOpsUnconfirmed (ops : List WalOp)
  | bufferOpsWithResponse (ops : List WalOp)
  | setState (state : BufferState)
  | flush (forceSnapshot : Bool)
  | persisted (i : Nat)
  | alreadyExists (i : Nat)
  | giveUp (i : Nat)

def writes (calls : List (Option Nat × List WalOp)) : List Request := (calls.flatMap Prod.snd).filterMap WalOp.request?

variable (ops : List WalOp)

def batchesOf : IndexMap String WriteBatch := (ops.foldl WalBuffer.writeOp (.new 0)).databaseToWriteBatch

namespace State
variable (s : State)

def new (opLimit : Nat) : State := ⟨.new opLimit, [], 0, [], [], [], []⟩

def writeOpsUnconfirmed (ops : List WalOp) : State × Option BufferError :=
  match s.buffer.writeOpsUnconfirmed ops with
  | .ok buffer => ({ s with buffer, calls := s.calls ++ [(none, ops)] }, none)
  | .error e => (s, some e)

/-- The sender is listed before the operations are buffered, which can still fail. -/
def bufferOpsWithResponse (ops : List WalOp) : State × Option BufferError :=
  if s.buffer.state ≠ .acceptingWrites then ({ s with next := s.next + 1 }, some .shutdown)
  else
    let s' := { s with writeOpResponses := s.writeOpResponses ++ [s.next], next := s.next + 1 }
    match s.buffer.writeOpsUnconfirmed ops with
    | .ok buffer =>
        ({ s' with buffer, accepted := s.accepted ++ [s.next], calls := s.calls ++ [(some s.next, ops)] }, none)
    | .error e => (s', some e)

def flight : Flight := ⟨s.buffer.databaseToWriteBatch, s.writeOpResponses, s.calls⟩

def emptied : State :=
  { s with
    buffer := { s.buffer with opCount := 0, databaseToWriteBatch := .empty _, noOp := none }
    writeOpResponses := []
    calls := [] }

def land (i : Nat) (result : WriteResult) : Option State :=
  s.flights[i]?.map fun f => { s with flights := s.flights.eraseIdx i, ended := s.ended ++ [(f, result)] }

def step : Action → Option State
  | .writeOpsUnconfirmed ops => some (s.writeOpsUnconfirmed ops).1
  | .bufferOpsWithResponse ops => some (s.bufferOpsWithResponse ops).1
  | .setState state => some { s with buffer := { s.buffer with state } }
  | .flush forceSnapshot =>
    if s.buffer.databaseToWriteBatch.entries = [] ∧ s.buffer.noOp = none ∧ forceSnapshot = false then some s
    else some { s.emptied with flights := s.flights ++ [s.flight] }
  | .persisted i => s.land i .success
  | .alreadyExists i => (s.land i .error).map fun s => { s with buffer := { s.buffer with state := .error } }
  | .giveUp i => (s.land i .error).map fun s => { s.emptied with ended := s.ended ++ [(s.flight, .error)] }

def taken : List Flight := s.flights ++ s.ended.map Prod.fst

/-- The writes of a call fit the limit together with those since the last flush. -/
def Fits (opLimit : Nat) (s : State) : Action → Prop
  | .writeOpsUnconfirmed ops | .bufferOpsWithResponse ops =>
    (writes s.calls).length + (ops.filterMap WalOp.request?).length ≤ opLimit
  | _ => True

end State

private theorem databaseToWriteBatch_foldl (buf buf' : WalBuffer)
    (h : buf.databaseToWriteBatch = buf'.databaseToWriteBatch) :
    (ops.foldl WalBuffer.writeOp buf).databaseToWriteBatch =
      (ops.foldl WalBuffer.writeOp buf').databaseToWriteBatch := by
  induction ops generalizing buf buf' with
  | nil => exact h
  | cons op ops ih =>
    refine ih _ _ ?_
    cases op with
    | write request => simp [WalBuffer.writeOp, h]
    | noop _ => exact h

private theorem foldl_fields (buf : WalBuffer) :
    (ops.foldl WalBuffer.writeOp buf).opCount = buf.opCount ∧
      (ops.foldl WalBuffer.writeOp buf).opLimit = buf.opLimit := by
  induction ops generalizing buf with
  | nil => exact ⟨rfl, rfl⟩
  | cons op ops ih => cases op <;> exact ih _

structure Flight.Whole (f : Flight) : Prop where
  batches : f.batches = batchesOf (f.calls.flatMap Prod.snd)
  responses : f.responses = f.calls.filterMap Prod.fst

namespace State
variable {opLimit : Nat} {s s' : State}

/-- The limit is never reached, and every sender is in one place: in the buffer, or in one flush. -/
structure Sound (opLimit : Nat) (s : State) : Prop where
  count : s.buffer.opCount = 0
  limit : s.buffer.opLimit = opLimit
  fits : (writes s.calls).length ≤ opLimit
  buffered : s.flight.Whole
  taken : ∀ f ∈ s.taken, f.Whole
  once : (s.writeOpResponses ++ s.taken.flatMap Flight.responses).Perm s.accepted
  numbered : s.accepted.Nodup ∧ ∀ n ∈ s.accepted, n < s.next

section
variable (h : s.Sound opLimit)
include h

theorem Sound.writeOps {ops : List WalOp} {buffer : WalBuffer}
    (hops : s.buffer.writeOpsUnconfirmed ops = .ok buffer) (sender : Option Nat)
    (hfits : (writes s.calls).length + (ops.filterMap WalOp.request?).length ≤ opLimit) :
    buffer.opCount = 0 ∧ buffer.opLimit = opLimit ∧ (writes (s.calls ++ [(sender, ops)])).length ≤ opLimit ∧
      Flight.Whole ⟨buffer.databaseToWriteBatch, s.writeOpResponses ++ sender.toList, s.calls ++ [(sender, ops)]⟩ := by
  rw [WalBuffer.writeOpsUnconfirmed] at hops
  split_ifs at hops
  obtain rfl := Except.ok.inj hops
  obtain ⟨hcount, hlimit⟩ := foldl_fields ops s.buffer
  refine ⟨hcount.trans h.count, hlimit.trans h.limit, by simpa [writes] using hfits, ⟨?_, ?_⟩⟩
  · simp only [batchesOf, flatMap_append, foldl_append, flatMap_cons, flatMap_nil, append_nil]
    exact databaseToWriteBatch_foldl ops _ _ h.buffered.batches
  · have hresponses : s.writeOpResponses = s.calls.filterMap Prod.fst := h.buffered.responses
    cases sender <;> simp [hresponses]

/-- The buffer is empty after a flush, and what was in it is in one more flush. -/
theorem Sound.emptied {flights : List Flight} {ended : List (Flight × WriteResult)}
    (htaken : (flights ++ ended.map Prod.fst).Perm (s.flight :: s.taken)) : Sound opLimit
    { s.emptied with flights, ended } where
  __ := h
  count := rfl
  fits := Nat.zero_le _
  buffered := ⟨rfl, rfl⟩
  taken f hf := by
    rcases mem_cons.mp (htaken.mem_iff.mp hf) with rfl | hf
    · exact h.buffered
    · exact h.taken f hf
  once := (htaken.flatMap_right _).trans h.once

theorem Sound.land {i : Nat} {result : WriteResult} (hland : s.land i result = some s') : s'.Sound opLimit := by
  obtain ⟨f, hi, rfl⟩ := map_eq_some_iff.mp hland
  obtain ⟨hlt, rfl⟩ := List.getElem?_eq_some_iff.mp hi
  have htaken : (s.flights.eraseIdx i ++ (s.ended ++ [(s.flights[i], result)]).map Prod.fst).Perm s.taken := by
    rw [map_append, ← append_assoc]
    exact perm_append_comm.trans ((getElem_cons_eraseIdx_perm hlt).append_right _)
  exact { h with
    taken := fun f hf => h.taken f (htaken.mem_iff.mp hf)
    once := (List.Perm.append_left _ (htaken.flatMap_right _)).trans h.once }

end

theorem Sound.step (hpos : 0 < opLimit) {a : Action} (h : s.Sound opLimit) (hfits : s.Fits opLimit a)
    (hstep : s.step a = some s') : s'.Sound opLimit := by
  cases a
  case flush forceSnapshot =>
    simp only [State.step] at hstep
    split at hstep <;> obtain rfl := some.inj hstep
    · exact h
    · refine h.emptied ?_
      rw [append_assoc]
      exact perm_middle
  case persisted i => exact h.land hstep
  case alreadyExists i =>
    obtain ⟨m, hland, rfl⟩ := map_eq_some_iff.mp hstep
    exact { h.land hland with }
  case giveUp i =>
    obtain ⟨m, hland, rfl⟩ := map_eq_some_iff.mp hstep
    refine (h.land hland).emptied ?_
    rw [map_append, ← append_assoc]
    exact perm_append_comm
  all_goals obtain rfl := some.inj hstep
  case writeOpsUnconfirmed ops =>
    rw [State.writeOpsUnconfirmed]
    split
    · next buffer hops =>
      obtain ⟨hcount, hlimit, hfits, hwhole⟩ := h.writeOps hops none hfits
      rw [Option.toList_none, append_nil] at hwhole
      exact { h with count := hcount, limit := hlimit, fits := hfits, buffered := hwhole }
    · exact h
  case bufferOpsWithResponse ops =>
    have hbound n (hn : n ∈ s.accepted) : n < s.next + 1 := (h.numbered.2 n hn).trans (Nat.lt_succ_self _)
    rw [State.bufferOpsWithResponse]
    split
    · exact { h with numbered := ⟨h.numbered.1, hbound⟩ }
    · next haccepting =>
      split
      · next buffer hops =>
        obtain ⟨hcount, hlimit, hfits, hwhole⟩ := h.writeOps hops (some s.next) hfits
        refine { h with
          count := hcount, limit := hlimit, fits := hfits, buffered := hwhole, once := ?_, numbered := ?_ }
        · refine List.Perm.trans ?_ (h.once.append_right [s.next])
          rw [append_assoc, append_assoc]
          exact .append_left _ perm_append_comm
        · refine ⟨h.numbered.1.append (nodup_singleton _) fun n hn hn' => ?_, fun n hn => ?_⟩
          · exact (h.numbered.2 n hn).ne (mem_singleton.mp hn')
          · rcases mem_snoc.mp hn with hn | rfl
            · exact hbound n hn
            · exact Nat.lt_succ_self _
      · next e hops =>
        simp [WalBuffer.writeOpsUnconfirmed, h.count, h.limit, hpos.ne', haccepting] at hops
  case setState state => exact { h with }

theorem Sound.new (opLimit : Nat) : (new opLimit).Sound opLimit :=
  ⟨rfl, rfl, Nat.zero_le _, ⟨rfl, rfl⟩, nofun, .nil, nodup_nil, nofun⟩

/-- While the writes of the calls fit the limit, a call that fails changes nothing, and every accepted sender is in
the buffer or in one flush, together with the operations of its call. -/
theorem buffer_bounded_of_fits {opLimit : Nat} (hpos : 0 < opLimit) {as : List Action} {s : State}
    (hfits : Guarded step (Fits opLimit) (new opLimit) as) (hrun : run step (new opLimit) as = some s) :
    (writes s.calls).length ≤ opLimit ∧
    (∀ ops e, (s.writeOpsUnconfirmed ops).2 = some e → (s.writeOpsUnconfirmed ops).1.flight = s.flight) ∧
    (∀ ops e, (s.bufferOpsWithResponse ops).2 = some e → (s.bufferOpsWithResponse ops).1.flight = s.flight) ∧
    (s.writeOpResponses ++ s.taken.flatMap Flight.responses).Perm s.accepted ∧ s.accepted.Nodup ∧
    s.flight.Whole ∧ ∀ f ∈ s.taken, f.Whole := by
  have h : s.Sound opLimit := invariant (Sound.step hpos) (.new opLimit) hfits hrun
  refine ⟨h.fits, fun ops e he => ?_, fun ops e he => ?_, h.once, h.numbered.1, h.buffered, h.taken⟩
  · cases hops : s.buffer.writeOpsUnconfirmed ops <;> simp [State.writeOpsUnconfirmed, hops] at he ⊢
  · by_cases haccepting : s.buffer.state = .acceptingWrites
    · simp [State.bufferOpsWithResponse, WalBuffer.writeOpsUnconfirmed, h.count, h.limit, hpos.ne', haccepting] at he
    · simp [State.bufferOpsWithResponse, haccepting, flight]

private def ping (databaseId : Nat) : WalOp := .write ⟨0, databaseId, "db", [], nofun⟩

theorem two_calls_answered :
    ∃ s, run step (new 2) [.bufferOpsWithResponse [ping 1], .writeOpsUnconfirmed [ping 1], .flush false,
      .bufferOpsWithResponse [ping 1], .persisted 0] = some s ∧ s.accepted = [0, 1] ∧ s.flight.Whole :=
  exists_and ⟨_, rfl, rfl⟩ fun s hs _ => (buffer_bounded_of_fits (by decide)
    (by exact ⟨Nat.le_succ 1, le_rfl, trivial, Nat.le_succ 1, trivial, trivial⟩) hs).2.2.2.2.2.1

/-- Operations are never counted, so the limit holds back none of them unless it is zero; then the sender of the
call that is refused stays in the list. -/
theorem limit_not_kept :
    (∃ s, run step (new 1) [.writeOpsUnconfirmed [ping 1, ping 1]] = some s ∧ (writes s.calls).length = 2) ∧
    ((new 0).bufferOpsWithResponse [ping 1]).2 = some (.bufferFull 0) ∧
    ((new 0).bufferOpsWithResponse [ping 1]).1.writeOpResponses = [0] :=
  ⟨⟨_, rfl, rfl⟩, rfl, rfl⟩

end State
end VarveDB.WriteBatches.Responses
