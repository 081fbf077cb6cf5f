import VarveDB.Library.Runs
import VarveDB.Wal.SnapshotTracker
import VarveDB.Write.TableBuffer

/-! The end-time marker of a snapshot against the gen1 windows of the rows whose WAL files it retires. -/
namespace VarveDB.Wal
open Library Runs TableBuffer List

def Config.chunkTimeForTimestamp (cfg : Config) (t : Int) : Int := t - t.tmod cfg.gen1Duration

private theorem Config.chunkTimeForTimestamp_lt_add (cfg : Config) (t : Int) :
    cfg.chunkTimeForTimestamp t < t + cfg.gen1Duration := by
  have h := Int.lt_tmod_of_pos t cfg.gen1_pos
  simp only [chunkTimeForTimestamp]
  omega

/-- Times up to a snapshotted one lie in windows before the end of its window. -/
theorem Config.chunkTimeForTimestamp_lt_roundDown_add (cfg : Config) {t maxTime : Int} (h : t ≤ maxTime) :
    cfg.chunkTimeForTimestamp t < cfg.roundDown maxTime + cfg.gen1Duration := by
  have hmono : cfg.chunkTimeForTimestamp t ≤ cfg.roundDown maxTime := cfg.roundDown_mono h
  have hpos := cfg.gen1_pos
  omega

/-- Both roundings go towards zero, so a time just below a marker that is not positive is rounded up to it, unless a
whole window lies between them. -/
theorem Config.chunkTimeForTimestamp_lt_roundDown (cfg : Config) {t newest : Int} (h : t < cfg.roundDown newest)
    (hroom : cfg.gen1Duration ≤ newest ∨ t ≤ cfg.roundDown newest - cfg.gen1Duration) :
    cfg.chunkTimeForTimestamp t < cfg.roundDown newest := by
  rcases hroom with hnewest | hroom
  · have hself : cfg.roundDown cfg.gen1Duration = cfg.gen1Duration := by simp [Config.roundDown]
    have hmarker : cfg.gen1Duration ≤ cfg.roundDown newest := hself ▸ cfg.roundDown_mono hnewest
    rcases Int.lt_or_le t 0 with ht | ht
    · have hzero : cfg.roundDown 0 = 0 := by simp [Config.roundDown]
      have hle : cfg.chunkTimeForTimestamp t ≤ 0 := hzero ▸ cfg.roundDown_mono ht.le
      have hpos := cfg.gen1_pos
      omega
    · exact (cfg.roundDown_le ht).trans_lt h
  · have hlt := cfg.chunkTimeForTimestamp_lt_add t
    omega

namespace SnapshotMarker

structure Contents (cfg : Config) where
  maxTimestamp : Int
  chunks : List (Int × List TableBuffer.Row)
  placed : ∀ c ∈ chunks, ∀ row ∈ c.2, c.1 = cfg.chunkTimeForTimestamp row.time
  bounded : ∀ c ∈ chunks, ∀ row ∈ c.2, row.time ≤ maxTimestamp

/-- The tracker and the buffer of a table; `fileOf` gives the WAL file of a row by its number. -/
structure State where
  tracker : SnapshotTracker
  buffer : TableBuffer
  nextWalFile : Nat
  nextRow : Nat
  fileOf : Nat → Nat

inductive Action (cfg : Config) where
  | flush (contents : Contents cfg)
  | snapshot (force : Bool)

def bufferChunk (limit : Nat) (b : TableBuffer × Nat) (chunk : Int × List TableBuffer.Row) : TableBuffer × Nat :=
  (b.1.bufferChunk limit chunk.1 b.2 chunk.2, b.2 + chunk.2.length)

namespace State
variable {cfg : Config} {limit : Nat} {columns : List String} {s : State}

def new : State := ⟨⟨0, []⟩, .new, 1, 0, fun _ => 0⟩

def flushed (limit : Nat) (s : State) (contents : Contents cfg) : State :=
  let b := contents.chunks.foldl (bufferChunk limit) (s.buffer, s.nextRow)
  { tracker := s.tracker.addWalPeriod ⟨s.nextWalFile, contents.maxTimestamp⟩
    buffer := b.1
    nextWalFile := s.nextWalFile + 1
    nextRow := b.2
    fileOf := fun number => if number < s.nextRow then s.fileOf number else s.nextWalFile }

/-- `snapshot` asks the tracker, and freezes the windows before the marker if one is due. -/
def step (cfg : Config) (limit : Nat) (columns : List String) (s : State) : Action cfg → Option State
  | .flush contents => some (s.flushed limit contents)
  | .snapshot force => some <| match s.tracker.snapshot cfg force with
    | none => s
    | some (d, tracker) => { s with tracker := tracker, buffer := s.buffer.snapshot columns d.endTimeMarker }

/-- No buffered row lies within one gen1 duration before the start of the newest period's window,
unless that period reaches at least one gen1 duration above zero or the snapshot is forced. -/
def Clear (cfg : Config) (s : State) : Action cfg → Prop
  | .flush _ => True
  | .snapshot force => force = true ∨ ∀ newest ∈ s.tracker.walPeriods.getLast?, cfg.gen1Duration ≤ newest.maxTime ∨
      ∀ e ∈ s.buffer.liveRows, e.2.time ≤ cfg.chunkTimeForTimestamp newest.maxTime - cfg.gen1Duration ∨
        cfg.chunkTimeForTimestamp newest.maxTime ≤ e.2.time

instance (cfg : Config) (s : State) : ∀ a : Action cfg, Decidable (s.Clear cfg a)
  | .flush _ => inferInstanceAs (Decidable True)
  | .snapshot _ => inferInstanceAs (Decidable (_ ∨ ∀ newest ∈ _, _ ∨ ∀ e ∈ s.buffer.liveRows, _ ∨ _))

/-- The buffered rows of the WAL files that the snapshot retires lie in windows before its marker. -/
def Covers (s : State) (d : SnapshotDetails) : Prop :=
  ∀ e ∈ s.buffer.liveRows, s.fileOf e.2.number ≤ d.lastWalSequenceNumber → e.1 < d.endTimeMarker

instance (s : State) (d : SnapshotDetails) : Decidable (s.Covers d) :=
  inferInstanceAs (Decidable (∀ e ∈ s.buffer.liveRows, _ → _))

structure Tracked (cfg : Config) (s : State) : Prop where
  increasing : Increasing WalPeriod.walFileNumber s.tracker.walPeriods
  below : ∀ p ∈ s.tracker.walPeriods, p.walFileNumber < s.nextWalFile
  sound : s.buffer.Sound
  placed : ∀ e ∈ s.buffer.liveRows, e.1 = cfg.chunkTimeForTimestamp e.2.time ∧ e.2.number < s.nextRow ∧
    ∃ p ∈ s.tracker.walPeriods, p.walFileNumber = s.fileOf e.2.number ∧ e.2.time ≤ p.maxTime

private theorem mem_liveRows_bufferChunks (limit : Nat)
    (chunks : List (Int × List TableBuffer.Row)) {b : TableBuffer × Nat} (h : b.1.Sound) :
    (chunks.foldl (bufferChunk limit) b).1.Sound ∧ b.2 ≤ (chunks.foldl (bufferChunk limit) b).2 ∧
    ∀ e ∈ (chunks.foldl (bufferChunk limit) b).1.liveRows, e ∈ b.1.liveRows ∨
      b.2 ≤ e.2.number ∧ e.2.number < (chunks.foldl (bufferChunk limit) b).2 ∧
      ∃ c ∈ chunks, e.1 = c.1 ∧ ∃ row ∈ c.2, e.2.time = row.time := by
  induction chunks generalizing b with
  | nil => exact ⟨h, le_rfl, fun e he => .inl he⟩
  | cons c chunks ih =>
    obtain ⟨hsound, hle, hrows⟩ := ih (b := bufferChunk limit b c) (h.bufferChunk limit c.1 b.2 c.2)
    have hcount : b.2 ≤ (bufferChunk limit b c).2 := Nat.le_add_right ..
    refine ⟨hsound, hcount.trans hle, fun e he => ?_⟩
    rcases hrows e he with hold | ⟨hfrom, hto, c', hc', hnew⟩
    · rcases h.mem_liveRows_bufferChunk hold with hold | ⟨hwindow, row, hrow, htime, hfrom, hto⟩
      · exact .inl hold
      · exact .inr ⟨hfrom, hto.trans_le hle, c, mem_cons_self, hwindow, row, hrow, htime⟩
    · exact .inr ⟨hcount.trans hfrom, hto, c', mem_cons_of_mem _ hc', hnew⟩

theorem Tracked.flushed (h : s.Tracked cfg) (contents : Contents cfg) : (s.flushed limit contents).Tracked cfg := by
  obtain ⟨hsound, hle, hrows⟩ := mem_liveRows_bufferChunks limit contents.chunks (b := (s.buffer, s.nextRow)) h.sound
  refine ⟨h.increasing.append_singleton h.below, fun p hp => ?_, hsound, fun e he => ?_⟩
  · rcases mem_snoc.mp hp with hp | rfl
    · exact (h.below p hp).trans (Nat.lt_succ_self _)
    · exact Nat.lt_succ_self _
  · rcases hrows e he with hold | ⟨hfrom, hto, c, hc, hwindow, row, hrow, htime⟩
    · obtain ⟨hplaced, hnumber, p, hp, hfile, hmax⟩ := h.placed e hold
      refine ⟨hplaced, hnumber.trans_le hle, p, mem_append_left _ hp, ?_, hmax⟩
      simp only [State.flushed, if_pos hnumber, hfile]
    · refine ⟨?_, hto, _, mem_append_right _ mem_cons_self, ?_, ?_⟩
      · rw [hwindow, htime, contents.placed c hc row hrow]
      · simp only [State.flushed, if_neg (Nat.not_lt.mpr hfrom)]
      · rw [htime]
        exact contents.bounded c hc row hrow

/-- A snapshot over a clear buffer covers the rows of the WAL files it retires. -/
theorem Tracked.covers (h : s.Tracked cfg) {force : Bool} (hclear : s.Clear cfg (.snapshot force))
    {d : SnapshotDetails} {t : SnapshotTracker} (hd : s.tracker.snapshot cfg force = some (d, t)) : s.Covers d := by
  intro e he hfile
  obtain ⟨hplaced, -, p, hp, hpfile, hmax⟩ := h.placed e he
  have hplanned : Planned cfg s.tracker.walPeriods d := ⟨_, force, t, hd⟩
  have hbefore := hmax.trans_lt (hplanned.maxTime_lt_marker h.increasing hp (hpfile ▸ hfile))
  rw [hplaced]
  cases SnapshotTracker.takes_of_snapshot hd with
  | all _ hnewest =>
    have hle := (List.max?_eq_some_iff.mp hnewest).2 _ (mem_map_of_mem hp)
    exact cfg.chunkTimeForTimestamp_lt_roundDown_add (hmax.trans hle)
  | inOrder hforce _ hnewest =>
    refine cfg.chunkTimeForTimestamp_lt_roundDown hbefore ?_
    rcases hclear.resolve_left (by simp [hforce]) _ hnewest with hpos | hrows
    · exact .inl hpos
    · exact .inr ((hrows e he).resolve_right (Int.not_le.mpr hbefore))

theorem Tracked.step {s' : State} {a : Action cfg} (h : s.Tracked cfg) (hclear : s.Clear cfg a)
    (hstep : step cfg limit columns s a = some s') : s'.Tracked cfg := by
  cases a with
  | flush contents =>
    cases hstep
    exact h.flushed contents
  | snapshot force =>
    simp only [State.step, some.injEq] at hstep
    cases hd : s.tracker.snapshot cfg force with
    | none =>
      simp only [hd] at hstep
      exact hstep ▸ h
    | some dt =>
      obtain ⟨d, t⟩ := dt
      simp only [hd] at hstep
      subst hstep
      have hsub : t.walPeriods ⊆ s.tracker.walPeriods := SnapshotTracker.snapshot_walPeriods_subset hd
      have hperiods := SnapshotTracker.snapshot_walPeriods hd h.increasing
      refine ⟨hperiods ▸ h.increasing.filter _, fun p hp => h.below p (hsub hp), h.sound.snapshot columns _,
        fun e he => ?_⟩
      -- A row that is left behind is in a window from the marker on, so its file is not retired.
      rw [(liveRows_snapshot_perm s.buffer columns d.endTimeMarker).1, mem_filter, decide_eq_true_eq] at he
      obtain ⟨hplaced, hnumber, p, hp, hfile, hmax⟩ := h.placed e he.1
      have hkept : d.lastWalSequenceNumber < p.walFileNumber := by
        rw [hfile]
        exact Nat.lt_of_not_le fun hle => he.2 (h.covers hclear hd e he.1 hle)
      exact ⟨hplaced, hnumber, p, hperiods ▸ mem_filter.mpr ⟨hp, decide_eq_true hkept⟩, hfile, hmax⟩

/-- In a run whose snapshots are taken over a clear buffer, each of them freezes every buffered row
of the WAL files it retires. -/
theorem snapshot_covers_retired_files {as : List (Action cfg)} {s : State} {force : Bool} {d : SnapshotDetails}
    {t : SnapshotTracker} (hrun : run (step cfg limit columns) .new as = some s)
    (hclear : Guarded (step cfg limit columns) (Clear cfg) .new as) (hlast : s.Clear cfg (.snapshot force))
    (hd : s.tracker.snapshot cfg force = some (d, t)) :
    s.Covers d ∧ ∀ e ∈ (s.buffer.snapshot columns d.endTimeMarker).liveRows,
      d.lastWalSequenceNumber < s.fileOf e.2.number := by
  have h : s.Tracked cfg := invariant Tracked.step
    (by exact ⟨.nil, by simp [State.new], .new, by simp [State.new, TableBuffer.new, TableBuffer.liveRows]⟩) hclear hrun
  have hcovers := h.covers hlast hd
  refine ⟨hcovers, fun e he => ?_⟩
  rw [(liveRows_snapshot_perm s.buffer columns d.endTimeMarker).1, mem_filter, decide_eq_true_eq] at he
  exact Nat.lt_of_not_le fun hle => he.2 (hcovers e he.1 hle)

private def single (cfg : Config) (time : Int) : Contents cfg where
  maxTimestamp := time
  chunks := [(cfg.chunkTimeForTimestamp time, [.ofTime time])]
  placed := by simp [Row.ofTime]
  bounded := by simp [Row.ofTime]

private def tenMinutes : Config := { Config.serverDefault with snapshotSize := 1 }

/-- Rows of three windows: the first file is retired and its row is frozen, the second stays. -/
theorem snapshot_covers_hour_old_file :
    ∃ s d t, run (step tenMinutes 1000 []) .new [.flush (single tenMinutes 1), .snapshot false,
        .flush (single tenMinutes 3600000000000)] = some s ∧
      s.tracker.snapshot tenMinutes false = some (d, t) ∧ d.lastWalSequenceNumber = 1 ∧ s.Covers d := by
  simp only [exists_and_left]
  refine exists_of_decide (fun s => s.Clear tenMinutes (.snapshot false) ∧ ∃ d t,
    s.tracker.snapshot tenMinutes false = some (d, t) ∧ d.lastWalSequenceNumber = 1) (by decide +kernel)
    fun s hrun ⟨hclear, d, t, hd, hnumber⟩ => ?_
  exact ⟨d, t, hd, hnumber, (snapshot_covers_retired_files hrun (by decide +kernel) hclear hd).1⟩

/-- A row at -1 ns and a later one at 5 ns: both are in the window 0, which is the marker of the
snapshot that retires the first row's file. -/
theorem negative_row_left_behind :
    ∃ s d t, run (step tenMinutes 1000 []) .new [.flush (single tenMinutes (-1)), .flush (single tenMinutes 5)] =
      some s ∧ s.tracker.snapshot tenMinutes false = some (d, t) ∧ d.endTimeMarker = 0 ∧ d.lastWalSequenceNumber = 1 ∧
      s.buffer.liveRows.map (fun e => (e.1, e.2.time, s.fileOf e.2.number)) = [(0, -1, 1), (0, 5, 2)] ∧
        ¬ s.Covers d := by
  simp only [exists_and_left]
  decide +kernel

end State
end SnapshotMarker
end VarveDB.Wal
