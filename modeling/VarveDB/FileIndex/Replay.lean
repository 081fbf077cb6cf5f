import VarveDB.Library.Numbered
import VarveDB.FileIndex.Basic

/-! Indexes and rollups that are replays of a prefix of a numbered log. -/
namespace VarveDB.FileIndex
open Library List

abbrev NumberedLog (log : List FileIndexLogEntry) : Prop := Numbered FileIndexLogEntry.sequence log

/-- The index holds exactly what the log holds up to the index's own position. -/
def IsReplay (log : List FileIndexLogEntry) (ix : FileIndex) : Prop :=
  ix.sequence ≤ log.length ∧ ix = replay (log.take ix.sequence)

def IsRollup (log : List FileIndexLogEntry) (snapshot : FileIndexSnapshot) : Prop :=
  ∃ ix, IsReplay log ix ∧ snapshot = ix.toSnapshot

structure IsStretch (log entries : List FileIndexLogEntry) (start : Nat) : Prop where
  logged : ∀ e ∈ entries, e ∈ log
  consecutive : Consecutive (entries.map FileIndexLogEntry.sequence)
  head_le : ∀ e ∈ entries.head?, e.sequence ≤ start

variable {log log' entries : List FileIndexLogEntry} {ix : FileIndex} {snapshot : FileIndexSnapshot}
  {e : FileIndexLogEntry} {p : Nat}

theorem sequence_replay_take (h : NumberedLog log) (hp : p ≤ log.length) : (replay (log.take p)).sequence = p := by
  induction p with
  | zero => rfl
  | succ p ih =>
    obtain ⟨e, he, hseq⟩ := h.exists_mem (q := p + 1) (by omega) hp
    have htake := h.take_number he
    rw [hseq, Nat.add_sub_cancel] at htake
    rw [htake, replay_append_singleton, sequence_apply, ih (by omega), hseq]
    omega

theorem isReplay_take (h : NumberedLog log) (hp : p ≤ log.length) : IsReplay log (replay (log.take p)) := by
  have hseq := sequence_replay_take h hp
  exact ⟨hseq.symm ▸ hp, by rw [hseq]⟩

theorem isReplay_new (log : List FileIndexLogEntry) : IsReplay log new := ⟨Nat.zero_le _, rfl⟩

theorem IsReplay.mono (h : IsReplay log ix) (hlog : log <+: log') : IsReplay log' ix := by
  obtain ⟨extra, rfl⟩ := hlog
  refine ⟨h.1.trans (by simp), ?_⟩
  rw [take_append_of_le_length h.1]
  exact h.2

/-- The next entry of the log, or one already covered, extends a replay. -/
theorem IsReplay.apply (h : IsReplay log ix) (hlog : NumberedLog log)
    (he : e ∈ log) (hnext : e.sequence ≤ ix.sequence + 1) : IsReplay log (ix.apply e) := by
  rcases Nat.lt_or_ge ix.sequence e.sequence with hlt | hle
  · have hseq : e.sequence - 1 = ix.sequence := by omega
    have htake := hlog.take_number he
    rw [hseq] at htake
    have happly : ix.apply e = replay (log.take e.sequence) := by
      rw [htake, replay_append_singleton, ← h.2]
    rw [happly]
    exact isReplay_take hlog (hlog.number_le he)
  · rw [apply_of_le hle]
    exact h

/-- Entries at or below an index's position do nothing to it, in any order. -/
theorem foldl_apply_of_le {es : List FileIndexLogEntry} (h : ∀ e ∈ es, e.sequence ≤ ix.sequence) :
    es.foldl FileIndex.apply ix = ix := by
  induction es with
  | nil => rfl
  | cons e es ih =>
    rw [foldl_cons, apply_of_le (h e mem_cons_self)]
    exact ih fun e' he' => h e' (mem_cons_of_mem _ he')

/-- Applying the whole log to a replay of a prefix of it replays the log. -/
theorem IsReplay.foldl_apply (h : IsReplay log ix) (hlog : NumberedLog log) :
    log.foldl FileIndex.apply ix = replay log := by
  have hcovered : ∀ e ∈ log.take ix.sequence, e.sequence ≤ ix.sequence := fun e he => by
    rw [← hlog.filter_le] at he
    simpa using (mem_filter.mp he).2
  conv_lhs => rw [← take_append_drop ix.sequence log]
  rw [foldl_append, foldl_apply_of_le hcovered]
  nth_rewrite 1 [h.2]
  rw [replay, ← foldl_append, take_append_drop]
  rfl

theorem sequence_replay (hlog : NumberedLog log) : (replay log).sequence = log.length := by
  have h := sequence_replay_take hlog le_rfl
  rwa [take_length] at h

theorem isReplay_replay (hlog : NumberedLog log) : IsReplay log (replay log) := by
  have h := isReplay_take hlog le_rfl
  rwa [take_length] at h

theorem IsReplay.isRollup (h : IsReplay log ix) : IsRollup log ix.toSnapshot := ⟨ix, h, rfl⟩

theorem IsRollup.mono (h : IsRollup log snapshot) (hlog : log <+: log') : IsRollup log' snapshot := by
  obtain ⟨ix, hix, rfl⟩ := h
  exact (hix.mono hlog).isRollup

/-- A rollup restored into an empty index is a replay to the rollup's position. -/
theorem IsRollup.restore (h : IsRollup log snapshot) :
    IsReplay log (new.restore snapshot) ∧ (new.restore snapshot).sequence = snapshot.sequence := by
  obtain ⟨ix, hix, rfl⟩ := h
  rw [restore_toSnapshot]
  exact ⟨hix, rfl⟩

theorem IsStretch.mono {start start' : Nat}
    (h : IsStretch log entries start) (hlog : log <+: log') (hstart : start ≤ start') : IsStretch log' entries start' :=
  ⟨fun e he => hlog.subset (h.logged e he), h.consecutive, fun e he => (h.head_le e he).trans hstart⟩

theorem IsStretch.tail {start : Nat} (h : IsStretch log (e :: entries) start) :
    IsStretch log entries (e.sequence + 1) := by
  refine ⟨fun x hx => h.logged x (mem_cons_of_mem _ hx), List.IsChain.tail h.consecutive, ?_⟩
  cases entries with
  | nil => simp
  | cons x xs =>
    rintro y ⟨⟩
    exact Nat.le_of_eq (isChain_cons_cons.mp h.consecutive).1

end VarveDB.FileIndex
