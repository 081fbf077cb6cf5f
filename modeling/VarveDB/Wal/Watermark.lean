import VarveDB.Wal.SnapshotNumbers

/-! The WAL watermark: what a restart no longer replays is in Parquet files that durable manifests list. -/
namespace VarveDB.Wal
open Library Runs List Process

namespace Node

def Listed (s : Node) (r : Row) : Prop := ∃ m ∈ s.manifests, r ∈ m.rows

/-- The rows of every WAL file at or below the watermark, and of every deleted one, are listed; and a
restart finds each acknowledged row, in a listed file or in a WAL file it replays. -/
structure WatermarkDurable (s : Node) : Prop where
  persisted : ∀ p, s.process = some p → ∀ w ∈ s.written, w.walFileNumber ≤ p.lastPersistedWalSequenceNumber →
    ∀ r ∈ w.rows, s.Listed r
  deleted : ∀ w ∈ s.written, w ∉ s.store → ∀ r ∈ w.rows, s.Listed r
  acknowledged : ∀ r ∈ s.acknowledged,
    s.Listed r ∨ ∃ w ∈ s.store, s.lastWalSequenceNumber < w.walFileNumber ∧ r ∈ w.rows

def Safe (cfg : Config) (s : Node) (a : Action) : Prop := s.Orderly cfg a ∧ NonNegative a

instance (cfg : Config) (s : Node) (a : Action) : Decidable (s.Safe cfg a) :=
  inferInstanceAs (Decidable (s.Orderly cfg a ∧ NonNegative a))

end Node

def Dated (w : WalContents) : Prop := ∀ r ∈ w.rows, 0 ≤ r.time ∧ r.time ≤ w.maxTimestamp

/-- Every row the process has been notified of is in its buffer or with the persist task, which has all that its
snapshot covers. -/
structure Buffered (s : Node) (p : Process) : Prop where
  pending : ∀ r ∈ p.walBuffer, 0 ≤ r.time
  dated : ∀ w ∈ p.flushing, Dated w
  above : ∀ w ∈ p.flushing, watermark s.manifests < w.walFileNumber
  stored : ∀ w ∈ p.stored, w ∈ s.written
  buffered : ∀ w ∈ s.written, w ∉ p.stored → w ∉ p.remaining → ∀ r ∈ w.rows,
    s.Listed r ∨ r ∈ p.buffer ∨ ∃ d rows, p.persisting = some (d, rows) ∧ r ∈ rows
  persisting : ∀ d rows, p.persisting = some (d, rows) → ∀ w ∈ s.written, w.walFileNumber ≤ d.lastWalSequenceNumber →
    ∀ r ∈ w.rows, s.Listed r ∨ r ∈ rows

structure Covered (cfg : Config) (s : Node) : Prop where
  invariant : Invariant cfg s
  dated : ∀ w ∈ s.written, Dated w
  listed : ∀ w ∈ s.written, w.walFileNumber ≤ watermark s.manifests → ∀ r ∈ w.rows, s.Listed r
  acknowledged : ∀ r ∈ s.acknowledged, ∃ w ∈ s.written, r ∈ w.rows
  buffered : ∀ p, s.process = some p → Buffered s p

section
variable {cfg : Config} {s : Node} {p p' : Process} {seen : List WalContents} {w : WalContents} {d : SnapshotDetails}

variable {rows : List Row} {m : Manifest} {r : Row}

theorem dated_intoWalContents (hrows : ∀ r ∈ rows, 0 ≤ r.time) (n : Nat) (now : Int) :
    Dated (intoWalContents n rows now) := by
  intro r hr
  have hne : rows ≠ [] := ne_nil_of_mem hr
  refine ⟨hrows r hr, ?_⟩
  simp only [intoWalContents, hne, if_false]
  exact ((foldl_max_le rows).mp le_rfl).2 r hr

theorem Buffered.flush_ok (h : Buffered s p) (halive : Alive cfg s p seen) {f : WalContents} {tracker : SnapshotTracker}
    {permit : Option SnapshotDetails} (hf : f.walFileNumber = p.walFileNumber) (hdated : Dated f) :
    Buffered s { p with
      walBuffer := [], walFileNumber := p.walFileNumber + 1, tracker, permit, flushing := p.flushing ++ [f] } := by
  refine { h with pending := fun r hr => (nomatch hr), dated := ?_, above := ?_ }
  · exact forall_mem_snoc.mpr ⟨h.dated, hdated⟩
  · intro w hw
    rcases mem_snoc.mp hw with hw | rfl
    · exact h.above w hw
    · rw [hf]
      exact halive.mark_lt

theorem Alive.last_lt_flushing (h : Alive cfg s p seen) (hj : p.persisting = some (d, rows)) (hw : w ∈ p.flushing) :
    d.lastWalSequenceNumber < w.walFileNumber := by
  obtain ⟨-, hfl, f, hf, hfd, hd⟩ := h.persisting_untaken hj
  have hrec := h.recorded
  have hmem : f ∈ seen ++ p.remaining := mem_append_left _ hf
  have hlast := (hrec.last_bounds hmem hfd hd).2
  rw [h.split] at hrec hmem
  rcases mem_append.mp hmem with hfw | hfw
  · exact Nat.lt_of_le_of_lt hlast (hrec.increasing.lt_of_append hfw hw)
  · rw [hfl f (mem_append_right _ hfw)] at hfd
    cases hfd

private theorem Covered.put_ok (h : Covered cfg s) (hp : s.process = some p) (hw : w ∈ p.flushing)
    (inv : Invariant cfg { s with
      store := s.store ++ [w], written := s.written ++ [w]
      process := some { p with flushing := p.flushing.erase w, stored := p.stored ++ [w] } }) :
    Covered cfg { s with
      store := s.store ++ [w], written := s.written ++ [w]
      process := some { p with flushing := p.flushing.erase w, stored := p.stored ++ [w] } } := by
  have hbuf := h.buffered p hp
  obtain ⟨seen, halive⟩ := h.invariant.alive p hp
  refine ⟨inv, ?_, ?_, ?_, ?_⟩
  · intro w' hw'
    rcases mem_append.mp hw' with hw' | hw'
    · exact h.dated w' hw'
    · exact mem_singleton.mp hw' ▸ hbuf.dated w hw
  · intro w' hw' hle
    rcases mem_append.mp hw' with hw' | hw'
    · exact h.listed w' hw' hle
    · rw [mem_singleton.mp hw'] at hle
      exact absurd (hbuf.above w hw) (Nat.not_lt.mpr hle)
  · intro r hr
    obtain ⟨w', hw', hr'⟩ := h.acknowledged r hr
    exact ⟨w', mem_append_left _ hw', hr'⟩
  · rintro p' ⟨⟩
    refine ⟨hbuf.pending, fun w' hw' => hbuf.dated w' (mem_of_mem_erase hw'),
      fun w' hw' => hbuf.above w' (mem_of_mem_erase hw'), ?_, ?_, ?_⟩
    · intro w' hw'
      rcases mem_append.mp hw' with hw' | hw'
      · exact mem_append_left _ (hbuf.stored w' hw')
      · exact mem_append_right _ hw'
    · intro w' hw' hns hnr
      rcases mem_append.mp hw' with hw' | hw'
      · exact hbuf.buffered w' hw' (fun hs => hns (mem_append_left _ hs)) hnr
      · exact absurd (mem_append_right _ hw') hns
    · intro d rows hj w' hw' hle
      rcases mem_append.mp hw' with hw' | hw'
      · exact hbuf.persisting d rows hj w' hw' hle
      · rw [mem_singleton.mp hw'] at hle
        exact absurd (halive.last_lt_flushing hj hw) (Nat.not_lt.mpr hle)

theorem covers_of_planned {files : List WalContents} {f g : WalContents} (hrec : Recorded cfg s.manifests files)
    (hf : f ∈ files) (hfd : f.snapshot = some d) (hd : ¬ Taken s.manifests d) (hg : g ∈ files) (hdated : Dated g)
    (hlow : watermark s.manifests < g.walFileNumber) (hle : g.walFileNumber ≤ d.lastWalSequenceNumber)
    (hr : r ∈ g.rows) : covers cfg d r = true := by
  have hmem := period_mem_periodsUpTo hg hlow (Nat.le_trans hle (hrec.last_bounds hf hfd hd).2)
  have hmax : g.maxTimestamp < d.endTimeMarker :=
    (hrec.planned f hf d hfd hd).maxTime_lt_marker (increasing_periodsUpTo hrec.increasing) hmem hle
  obtain ⟨hpos, htime⟩ := hdated r hr
  have hround := cfg.roundDown_le hpos
  simp only [covers, decide_eq_true_eq]
  omega

theorem Buffered.bufferAndPersist_ok {q : Process} (hpending : ∀ r ∈ q.walBuffer, 0 ≤ r.time)
    (hdated : ∀ w ∈ q.flushing, Dated w) (habove : ∀ w ∈ q.flushing, watermark s.manifests < w.walFileNumber)
    (hstored : ∀ w ∈ q.stored, w ∈ s.written)
    (hall : ∀ g ∈ s.written, g ∉ q.stored → g ∉ q.remaining → ∀ r ∈ g.rows, s.Listed r ∨ r ∈ q.buffer ++ rows)
    (hcovers : ∀ g ∈ s.written, g.walFileNumber ≤ d.lastWalSequenceNumber → ∀ r ∈ g.rows,
      s.Listed r ∨ (g ∉ q.stored ∧ g ∉ q.remaining ∧ covers cfg d r = true)) :
    Buffered s (q.bufferAndPersist cfg rows d) := by
  refine ⟨hpending, hdated, habove, hstored, ?_, ?_⟩
  · intro g hg hgs hgr r hr
    rcases hall g hg hgs hgr r hr with hl | hmem
    · exact Or.inl hl
    · rcases hc : covers cfg d r with _ | _
      · exact Or.inr (Or.inl (mem_filter.mpr ⟨hmem, by simp [hc]⟩))
      · exact Or.inr (Or.inr ⟨d, _, rfl, mem_filter.mpr ⟨hmem, hc⟩⟩)
  · rintro d' rows' ⟨⟩ g hg hle r hr
    rcases hcovers g hg hle r hr with hl | ⟨hgs, hgr, hc⟩
    · exact Or.inl hl
    · exact (hall g hg hgs hgr r hr).imp_right fun hmem => mem_filter.mpr ⟨hmem, hc⟩

private theorem Covered.notify_ok (h : Covered cfg s) (hp : s.process = some p) (hw : w ∈ p.stored) :
    Buffered s (p.notify cfg w) := by
  have hbuf := h.buffered p hp
  obtain ⟨seen, halive⟩ := h.invariant.alive p hp
  obtain ⟨hstored, hflushing⟩ := halive.of_stored hw
  have hrem := halive.running (halive.running_of_flight (mem_append_left _ hw))
  have hnotified : ∀ g ∈ s.written, ∀ r ∈ g.rows, s.Listed r ∨ r ∈ p.buffer ++ w.rows ∨
      ∃ d rows, p.persisting = some (d, rows) ∧ r ∈ rows := by
    intro g hg r hr
    by_cases hgw : g = w
    · exact Or.inr (Or.inl (mem_append_right _ (hgw ▸ hr)))
    · have hgs : g ∉ p.stored := by
        rw [hstored]
        simpa using hgw
      exact (hbuf.buffered g hg hgs (by simp [hrem]) r hr).imp_right (Or.imp_left (mem_append_left _))
  unfold notify
  rcases hwd : w.snapshot with _ | d
  · exact { hbuf with
      stored := fun g hg => hbuf.stored g (mem_of_mem_erase hg), buffered := fun g hg _ _ => hnotified g hg }
  · obtain ⟨-, hj, -, hws, hd⟩ := halive.stored_untaken hw hwd
    refine Buffered.bufferAndPersist_ok hbuf.pending hbuf.dated hbuf.above
      (fun g hg => hbuf.stored g (mem_of_mem_erase hg)) ?_ ?_
    · intro g hg _ _ r hr
      rcases hnotified g hg r hr with hl | hmem | ⟨_, _, hj', -⟩
      · exact Or.inl hl
      · exact Or.inr hmem
      · rw [hj] at hj'
        cases hj'
    · intro g hg hle r hr
      rcases Nat.lt_or_ge (watermark s.manifests) g.walFileNumber with hlow | hlow
      · refine Or.inr ⟨by simp [hstored], by simp [hrem], ?_⟩
        have hgs : g ∈ seen ++ p.remaining := halive.split ▸ mem_append_left _ hg
        exact covers_of_planned halive.recorded (mem_append_left _ hws) hwd hd hgs (h.dated g hg) hlow hle hr
      · exact Or.inl (h.listed g hg hlow r hr)

private theorem Covered.replayFile_ok (h : Covered cfg s) (hp : s.process = some p) {n : Nat} {rest : List WalContents}
    (hrep : p.replaying = some n) (hrem : p.remaining = w :: rest) (hj : p.persisting = none) :
    Buffered s (p.replayFile cfg n w rest) := by
  have hbuf := h.buffered p hp
  obtain ⟨seen, halive⟩ := h.invariant.alive p hp
  have hflight := (halive.replaying (by simp [hrep])).1
  obtain ⟨hstored, hflushing⟩ := append_eq_nil_iff.mp hflight
  have hmem : w ∈ p.remaining := by simp [hrem]
  have hreplayed : ∀ g ∈ s.written, g ∉ rest → ∀ r ∈ g.rows, s.Listed r ∨ r ∈ p.buffer ++ w.rows := by
    intro g hg hgr r hr
    by_cases hgw : g = w
    · exact Or.inr (mem_append_right _ (hgw ▸ hr))
    · rcases hbuf.buffered g hg (by simp [hstored]) (by simp [hrem, hgw, hgr]) r hr with hl | hb | ⟨_, _, hj', -⟩
      · exact Or.inl hl
      · exact Or.inr (mem_append_left _ hb)
      · rw [hj] at hj'
        cases hj'
  have hplain : ∀ {tracker : SnapshotTracker} {permit : Option SnapshotDetails} {cleanup : Cleanup}, Buffered s { p with
      remaining := rest, walFileNumber := w.walFileNumber + 1, tracker, permit, buffer := p.buffer ++ w.rows,
        cleanup } :=
    { hbuf with
      buffered := fun g hg _ hgr r hr => (hreplayed g hg hgr r hr).imp_right Or.inl
      persisting := fun d rows hj' => by rw [show p.persisting = some (d, rows) from hj'] at hj; cases hj }
  rcases hwd : w.snapshot with _ | d
  · simp only [replayFile, hwd]
    exact hplain
  · by_cases hle : d.snapshotSequenceNumber ≤ n
    · simp only [replayFile, hwd, hle, if_true]
      split
      · exact hplain
      · exact hplain
    · have hws : w ∈ seen ++ p.remaining := mem_append_right _ hmem
      have hd : ¬ Taken s.manifests d := by
        rcases halive.replay n hrep w hmem d hwd with ⟨-, hle'⟩ | ⟨hd, -, -⟩
        · exact absurd hle' hle
        · exact hd
      have hinc := halive.recorded.increasing
      rw [hrem, ← singleton_append, ← append_assoc] at hinc
      have hrows : ∀ {tracker : SnapshotTracker} {permit : Option SnapshotDetails}, Buffered s (bufferAndPersist cfg
          { p with remaining := rest, walFileNumber := w.walFileNumber + 1, tracker, permit } w.rows d) := by
        refine Buffered.bufferAndPersist_ok hbuf.pending hbuf.dated hbuf.above hbuf.stored
          (fun g hg _ hgr => hreplayed g hg hgr) ?_
        intro g hg hlast r hr
        rcases Nat.lt_or_ge (watermark s.manifests) g.walFileNumber with hlow | hlow
        · refine Or.inr ⟨by simp [hstored], fun hgr => ?_, ?_⟩
          · have hlt := hinc.lt_of_append (mem_append_right seen (mem_singleton_self w)) hgr
            have hbound := (halive.recorded.last_bounds hws hwd hd).2
            omega
          · have hgs : g ∈ seen ++ p.remaining := halive.split ▸ mem_append_left _ hg
            exact covers_of_planned halive.recorded hws hwd hd hgs (h.dated g hg) hlow hlast hr
        · exact Or.inl (h.listed g hg hlow r hr)
      simp only [replayFile, hwd, hle, if_false]
      split
      · exact hrows
      · exact hrows

private theorem Listed.mono (h : s.Listed r) : Node.Listed { s with manifests := s.manifests ++ [m] } r :=
  h.imp fun _ hm => ⟨mem_append_left _ hm.1, hm.2⟩

section
variable (h : Covered cfg s)
include h

private theorem Covered.put_fresh (hm : ∀ m' ∈ s.manifests, m'.snapshotSequenceNumber ≠ m.snapshotSequenceNumber)
    (inv : Invariant cfg { s.putManifest m with process := some p' })
    (hlisted : ∀ w ∈ s.written, w.walFileNumber ≤ m.walFileSequenceNumber → ∀ r ∈ w.rows, s.Listed r ∨ r ∈ m.rows)
    (hbuf : Buffered { s with manifests := s.manifests ++ [m] } p') :
    Covered cfg { s.putManifest m with process := some p' } := by
  rw [putManifest_of_fresh hm] at inv ⊢
  refine ⟨inv, h.dated, ?_, h.acknowledged, ?_⟩
  · intro w hw hle r hr
    rw [show watermark (s.manifests ++ [m]) = _ from watermark_append_singleton _ _] at hle
    rcases le_max_iff.mp hle with hle | hle
    · exact Listed.mono (h.listed w hw hle r hr)
    · rcases hlisted w hw hle r hr with hl | hr'
      · exact Listed.mono hl
      · exact ⟨m, by simp, hr'⟩
  · rintro p'' ⟨⟩
    exact { hbuf with }

private theorem Covered.persistSnapshot_ok (hp : s.process = some p) (hj : p.persisting = some (d, rows))
    (inv : Invariant cfg { s.putManifest ⟨d.snapshotSequenceNumber, d.lastWalSequenceNumber, rows⟩ with
      process := some { p with persisting := none }.snapshotDone }) :
    Covered cfg { s.putManifest ⟨d.snapshotSequenceNumber, d.lastWalSequenceNumber, rows⟩ with
      process := some { p with persisting := none }.snapshotDone } := by
  have hbuf := h.buffered p hp
  obtain ⟨seen, halive⟩ := h.invariant.alive p hp
  obtain ⟨-, -, f, hf, hfd, hd⟩ := halive.persisting_untaken hj
  have hmark := (halive.recorded.take (m := ⟨d.snapshotSequenceNumber, d.lastWalSequenceNumber, rows⟩)
    (mem_append_left _ hf) hfd hd rfl rfl).2
  refine h.put_fresh (fun m hm he => hd ⟨m, hm, he⟩) inv (hbuf.persisting d rows hj)
    ⟨hbuf.pending, hbuf.dated, ?_, hbuf.stored, ?_, ?_⟩
  · intro w hw
    exact lt_of_eq_of_lt hmark (halive.last_lt_flushing hj hw)
  · intro w hw hws hwr r hr
    rcases hbuf.buffered w hw hws hwr r hr with hl | hb | ⟨d', rows', hj', hr'⟩
    · exact Or.inl (Listed.mono hl)
    · exact Or.inr (Or.inl hb)
    · rw [hj] at hj'
      obtain ⟨-, rfl⟩ := Prod.mk.inj (some.inj hj')
      exact Or.inl ⟨⟨d.snapshotSequenceNumber, d.lastWalSequenceNumber, rows⟩, by simp, hr'⟩
  · exact fun d' rows' hne => nomatch hne

private theorem Covered.persistCompaction_ok (hp : s.process = some p) {n walNumber : Nat}
    (hx : (n, walNumber) ∈ p.stamped) (inv : Invariant cfg { s.putManifest ⟨n, walNumber, rows⟩ with
      process := some { p with stamped := p.stamped.erase (n, walNumber) } }) :
    Covered cfg { s.putManifest ⟨n, walNumber, rows⟩ with
      process := some { p with stamped := p.stamped.erase (n, walNumber) } } := by
  have hbuf := h.buffered p hp
  obtain ⟨seen, halive⟩ := h.invariant.alive p hp
  have hle := halive.bounded.stamped _ hx
  have hmark : watermark (s.manifests ++ [⟨n, walNumber, rows⟩]) = watermark s.manifests := by
    rw [watermark_append_singleton]
    exact max_eq_left hle
  have hn : n ∈ p.compactions := mem_append_right _ (mem_map_of_mem hx)
  refine h.put_fresh (halive.counted.unwritten n hn) inv ?_ ⟨hbuf.pending, hbuf.dated, ?_, hbuf.stored, ?_, ?_⟩
  · exact fun w hw hw' r hr => Or.inl (h.listed w hw (Nat.le_trans hw' hle) r hr)
  · exact fun w hw => lt_of_eq_of_lt hmark (hbuf.above w hw)
  · exact fun w hw hws hwr r hr => (hbuf.buffered w hw hws hwr r hr).imp_left Listed.mono
  · exact fun d rows' hj w hw hle r hr => (hbuf.persisting d rows' hj w hw hle r hr).imp_left Listed.mono

private theorem Covered.restart_ok (hsafe : s.Orderly cfg .restart) : Buffered s (new s) := by
  refine ⟨nofun, nofun, nofun, nofun, ?_,
    nofun⟩
  intro w hw _ hwr r hr
  rw [(h.invariant.remaining_new hsafe).2, mem_above] at hwr
  exact Or.inl (h.listed w hw (Nat.not_lt.mp fun hlt => hwr ⟨hw, hlt⟩) r hr)

private theorem Covered.of_process (inv : Invariant cfg { s with process := some p' }) (hbuf : Buffered s p')
    : Covered cfg { s with process := some p' } :=
  { h with invariant := inv, buffered := by rintro p'' ⟨⟩; exact { hbuf with } }

theorem Covered.step {s' : Node} {a : Action} (hsafe : s.Safe cfg a) (hstep : s.step cfg a = some s') :
    Covered cfg s' := by
  have inv := h.invariant.step hsafe.1 hstep
  cases Node.stepped_of_step hstep with
  | write hp hrun =>
    refine h.of_process inv { h.buffered _ hp with pending := fun r hr => ?_ }
    rcases mem_append.mp hr with hr | hr
    · exact (h.buffered _ hp).pending r hr
    · exact hsafe.2 r hr
  | flushPlain hp hrun =>
    obtain ⟨seen, halive⟩ := h.invariant.alive _ hp
    have hbuf := h.buffered _ hp
    exact h.of_process inv (hbuf.flush_ok halive rfl (dated_intoWalContents hbuf.pending _ _))
  | @flushSnapshot p _ now _ _ hp hrun hpermit hsnap =>
    obtain ⟨seen, halive⟩ := h.invariant.alive _ hp
    have hbuf := h.buffered _ hp
    exact h.of_process inv (hbuf.flush_ok halive rfl (dated_intoWalContents hbuf.pending p.walFileNumber now))
  | put hp hw => exact h.put_ok hp hw inv
  | giveUp => exact hsafe.1.elim
  | notify hp hw =>
    refine { h with invariant := inv, acknowledged := ?_, buffered := ?_ }
    · intro r hr
      rcases mem_append.mp hr with hr | hr
      · exact h.acknowledged r hr
      · exact ⟨_, (h.buffered _ hp).stored _ hw, hr⟩
    · rintro p' ⟨⟩
      exact { h.notify_ok hp hw with }
  | persistSnapshot hp hj => exact h.persistSnapshot_ok hp hj inv
  | @beginCleanup p info hp hc hpermit =>
    refine h.of_process inv ?_
    unfold beginCleanup
    simp only
    split
    · exact { h.buffered _ hp with }
    · exact { h.buffered _ hp with }
  | deleteNext hp hc hlt =>
    refine { h with invariant := inv, buffered := ?_ }
    rintro p' ⟨⟩
    exact { h.buffered _ hp with }
  | endCleanup hp hc => exact h.of_process inv { h.buffered _ hp with }
  | reserve hp hrun => exact h.of_process inv { h.buffered _ hp with }
  | stamp hp hn => exact h.of_process inv { h.buffered _ hp with }
  | persistCompaction hp hx => exact h.persistCompaction_ok hp hx inv
  | failCompaction hp hx => exact h.of_process inv { h.buffered _ hp with }
  | crash => exact { h with invariant := inv, buffered := fun _ hne => nomatch hne }
  | restart => exact h.of_process inv (h.restart_ok hsafe.1)
  | replayFile hp hrep hrem hj hc => exact h.of_process inv (h.replayFile_ok hp hrep hrem hj)
  | finishReplay hp hrem => exact h.of_process inv { h.buffered _ hp with }

end

private theorem Covered.watermarkDurable (h : Covered cfg s) : s.WatermarkDurable := by
  have hstore : ∀ w ∈ s.written, watermark s.manifests < w.walFileNumber → w ∈ s.store := by
    intro w hw hlt
    have hmem : w ∈ above (watermark s.manifests) s.store := h.invariant.stored ▸ mem_above.mpr ⟨hw, hlt⟩
    exact (mem_above.mp hmem).1
  refine ⟨?_, ?_, ?_⟩
  · intro p hp w hw hle
    obtain ⟨seen, halive⟩ := h.invariant.alive p hp
    exact h.listed w hw (Nat.le_trans hle halive.bounded.persisted)
  · intro w hw hns
    exact h.listed w hw (Nat.not_lt.mp fun hlt => hns (hstore w hw hlt))
  · intro r hr
    obtain ⟨w, hw, hwr⟩ := h.acknowledged r hr
    rcases Nat.lt_or_ge (watermark s.manifests) w.walFileNumber with hlt | hle
    · exact Or.inr ⟨w, hstore w hw hlt, Nat.lt_of_le_of_lt lastWal_le hlt, hwr⟩
    · exact Or.inl (h.listed w hw hle r hwr)

end

/-- In every safe run of a node the watermark and the clean-up stay behind what manifests list, and no
acknowledged row is lost to a restart. -/
theorem watermark_durable_of_safe (cfg : Config) {as : List Action} {s : Node}
    (hsafe : Guarded (Node.step cfg) (Node.Safe cfg) .empty as) (hrun : run (Node.step cfg) .empty as = some s) :
    s.WatermarkDurable :=
  (invariant (Covered.step ·) (by exact ⟨.empty, nofun, nofun, nofun, nofun⟩) hsafe hrun).watermarkDurable

private def keepNone : Config := ⟨600, 60, 0, by decide⟩

private def deleteThenReplay : List Action :=
  let first : WalContents := ⟨1, 5, [⟨0, 5⟩], some ⟨1, 60, 1, 1, true⟩⟩
  let second : WalContents := ⟨2, 7, [⟨0, 7⟩], some ⟨3, 60, 2, 2, true⟩⟩
  [.restart, .finishReplay, .write first.rows, .flush true 0, .put first, .notify first, .persistSnapshot,
    .beginCleanup,
    .reserve, .stamp 2, .persistCompaction 2 1 [⟨0, 5⟩], .write second.rows, .flush true 0, .put second, .notify second,
    .crash, .restart, .replayFile, .persistSnapshot, .beginCleanup, .deleteNext, .endCleanup, .finishReplay]

theorem delete_then_replay_durable : ∃ s, run (Node.step keepNone) .empty deleteThenReplay = some s ∧
    s.store.map WalContents.walFileNumber = [2] ∧ s.acknowledged = [⟨0, 5⟩, ⟨0, 7⟩] ∧ s.WatermarkDurable := by
  exact exists_and_and (by decide) fun s hs _ _ => watermark_durable_of_safe keepNone (by decide) hs

/-- After a crash the replay takes the snapshot under a durable compaction for taken, yet its clean-up moves the
watermark over the WAL file, and no restart finds the acknowledged row again. -/
theorem compaction_above_snapshot_loses_row : ∃ as s, run (Node.step .serverDefault) .empty as = some s ∧
    ¬ s.WatermarkDurable := by
  let w : WalContents := ⟨1, 5, [⟨0, 5⟩], some ⟨1, 600000000000, 1, 1, true⟩⟩
  refine ⟨[.restart, .finishReplay, .write w.rows, .flush true 0, .put w, .notify w, .reserve, .stamp 2,
    .persistCompaction 2 0 [], .crash, .restart, .replayFile, .beginCleanup, .finishReplay, .reserve, .stamp 4,
    .persistCompaction 4 1 [], .crash], exists_of_decide (fun s => (⟨0, 5⟩ : Row) ∈ s.acknowledged ∧
      (∀ m ∈ s.manifests, (⟨0, 5⟩ : Row) ∉ m.rows) ∧ ∀ w ∈ s.store, w.walFileNumber ≤ s.lastWalSequenceNumber)
    (by decide) fun s _ ⟨hacked, hmanifests, hstore⟩ hdurable => ?_⟩
  rcases hdurable.acknowledged ⟨0, 5⟩ hacked with ⟨m, hm, hr⟩ | ⟨w', hw', hlt, -⟩
  · exact hmanifests m hm hr
  · exact absurd (hstore w' hw') (Nat.not_le.mpr hlt)

end VarveDB.Wal
