import VarveDB.Cluster.Served

/-! When a reader may skip a peer's buffer by time. -/
namespace VarveDB.Cluster
open Library Runs FileIndex Compaction Compactor Query Publisher List PersistedSnapshot

def publishedFiles (log : List FileIndexLogEntry) (n : String) : List ParquetFile :=
  (ownDeltas n log).flatMap FileIndexDelta.added

variable {f : ParquetFile}

theorem mem_publishedFiles {log : List FileIndexLogEntry} {n : String} :
    f ∈ publishedFiles log n ↔ ∃ k, Published log n k f := by
  simp only [publishedFiles, ownDeltas, logDeltas, mem_flatMap, mem_filter, decide_eq_true_eq]
  constructor
  · rintro ⟨d, ⟨⟨entry, hentry, hd⟩, hnode⟩, hf⟩
    exact ⟨_, entry, hentry, d, hd, hnode, rfl, hf⟩
  · rintro ⟨k, entry, hentry, d, hd, hnode, -, hf⟩
    exact ⟨d, ⟨⟨entry, hentry, hd⟩, hnode⟩, hf⟩

/-- The time is after everything the node has persisted or is persisting: its frozen chunks, the
files of its manifests and those the log has of it. -/
def State.After (s : State) (n : String) (t : Int) : Prop :=
  (∀ c ∈ (s.nodes n).snapshotting, c.timestampMinMax.2 < t) ∧
    (∀ m ∈ (s.nodes n).manifests, ∀ f ∈ m.files, f.maxTime < t) ∧ ∀ f ∈ publishedFiles s.log n, f.maxTime < t

instance (s : State) (n : String) (t : Int) : Decidable (s.After n t) := inferInstanceAs (Decidable (_ ∧ _ ∧ _))

/-- Rows written to the node are later than everything it has persisted or is persisting. -/
def WritesInOrder (n : String) (s : State) : String × NodeAction → Prop
  | (n', .write rows _ _) => n' = n → ∀ w ∈ rows, s.After n w.2.2.time
  | _ => True

instance (n : String) (s : State) (a : String × NodeAction) : Decidable (WritesInOrder n s a) := by
  rcases a with ⟨_, _ | _⟩ <;> dsimp only [WritesInOrder] <;> infer_instance

variable {m : PersistedSnapshot}

namespace Node
variable {cfg : Config} {n : String} {log : List FileIndexLogEntry} {contents : Contents} {x : Node} {a : NodeAction}
  {e : Effect}

def settled (x : Node) : List PersistedSnapshot := x.applying.filterMap Applying.manifest ++ x.durable

theorem mem_settled : m ∈ x.settled ↔ (∃ d ∈ x.applying, d.manifest = some m) ∨ m ∈ x.durable := by
  simp [settled]

/-- While chunks are frozen, only merges settle new files. -/
theorem mem_settled_of_stepped (h : Stepped cfg n log contents x a e) (hfrozen : e.node.snapshotting ≠ [])
    (hm : m ∈ e.node.settled) : m ∈ x.settled ∨
      ∃ d ∈ x.applying, ∀ k, m.addedTo k = if d.table = k then [d.merged] else [] := by
  rw [mem_settled] at hm ⊢
  cases h with
  | persistSnapshot _ hdone => exact absurd hdone hfrozen
  | compact =>
    rcases hm with ⟨d, hd, hm⟩ | hm
    · rcases mem_applyMerge hd with hd | ⟨-, -, hnone, -⟩
      · exact .inl (.inl ⟨d, hd, hm⟩)
      · cases hnone.symm.trans hm
    · exact .inl (.inr hm)
  | @reserve d hd =>
    rcases hm with ⟨d', hd', hm⟩ | hm
    · obtain ⟨d₀, hd₀, rfl⟩ := mem_map.mp hd'
      split at hm
      · cases hm
        exact .inr ⟨d, hd, addedTo_compactionSnapshot⟩
      · exact .inl (.inl ⟨d₀, hd₀, hm⟩)
    · exact .inl (.inr hm)
  | @persistCompaction d m₀ stored hd hm₀ =>
    rcases hm with ⟨d', hd', hm⟩ | hm
    · exact .inl (.inl ⟨d', mem_of_mem_filter hd', hm⟩)
    · simp only at hm
      split at hm
      · rcases mem_putSnapshot.mp hm with ⟨hm, -⟩ | rfl
        · exact .inl (.inr hm)
        · exact .inl (.inl ⟨d, hd, hm₀⟩)
      · exact .inl (.inr hm)
  | _ => exact .inl hm

end Node

structure State.Behind (cfg : Config) (n : String) (s : State) : Prop where
  recorded : s.Recorded cfg
  merged : ∀ d ∈ (s.nodes n).applying, ∃ f ∈ publishedFiles s.log n, d.merged.maxTime ≤ f.maxTime
  live : ∀ b ∈ (s.nodes n).live, s.After n b.point.row.time
  frozen : ∀ c ∈ (s.nodes n).snapshotting, ∀ p ∈ c.rows,
    (∀ m ∈ (s.nodes n).settled, ∀ f ∈ m.files, f.maxTime < p.row.time) ∧
      ∀ f ∈ publishedFiles s.log n, f.maxTime < p.row.time

namespace State
variable {cfg : Config} {n : String} {s s' : State} {a : NodeAction} {e : Effect} {t : Int}

theorem mem_publishedFiles_after (h : Recorded cfg s) {node : String}
    (hstepped : Node.Stepped cfg node s.log s.contents (s.nodes node) a e)
    (hf : f ∈ publishedFiles (s.after node e).log n) :
    f ∈ publishedFiles s.log n ∨ node = n ∧ ∃ m ∈ (s.nodes n).durable, f ∈ m.files := by
  obtain ⟨k, hf⟩ := mem_publishedFiles.mp hf
  rcases published_after hstepped hf with hold | ⟨m, hm, hnode, hadded⟩
  · exact .inl (mem_publishedFiles.mpr ⟨k, hold⟩)
  · obtain rfl : node = n := ((h.nodes node).owned m (Node.mem_manifests.mpr (.inr (.inr hm)))).symm.trans hnode
    exact .inr ⟨rfl, m, hm, mem_files.mpr ⟨k, hadded⟩⟩

theorem publishedFiles_subset (node : String) (e : Effect)
    (hf : f ∈ publishedFiles s.log n) : f ∈ publishedFiles (s.after node e).log n := by
  obtain ⟨k, entry, hentry, hd⟩ := mem_publishedFiles.mp hf
  exact mem_publishedFiles.mpr ⟨k, entry, mem_append_left _ hentry, hd⟩

section
variable (h : s.Behind cfg n)
include h

private theorem Behind.merged_lt {d : Applying} (hd : d ∈ (s.nodes n).applying)
    (hadded : ∀ k, m.addedTo k = if d.table = k then [d.merged] else [])
    (ht : ∀ f ∈ publishedFiles s.log n, f.maxTime < t) : ∀ f ∈ m.files, f.maxTime < t := by
  intro f hf
  obtain ⟨k, hf⟩ := mem_files.mp hf
  rw [hadded k, mem_ite_nil_right, mem_singleton] at hf
  obtain ⟨g, hg, hle⟩ := h.merged d hd
  exact hf.2 ▸ hle.trans_lt (ht g hg)

theorem Behind.after_step (hstepped : Node.Stepped cfg n s.log s.contents (s.nodes n) a e) (ht : s.After n t)
    (hfrozen : ∀ c ∈ e.node.snapshotting, c.timestampMinMax.2 < t) : (s.after n e).After n t := by
  obtain ⟨hchunks, hmanifests, hpublished⟩ := ht
  have hnode : (s.after n e).nodes n = e.node := by simp [after]
  refine ⟨hnode ▸ hfrozen, hnode ▸ fun m hm => ?_, fun f hf => ?_⟩
  · rcases Node.mem_manifests_of_stepped hstepped hm with hm | ⟨-, hnone⟩ | ⟨m₀, c, file, -, hm₀, hjob, rfl⟩ |
      ⟨-, d, hd, hadded⟩
    · exact hmanifests m hm
    · intro f hf
      obtain ⟨k, hf⟩ := mem_files.mp hf
      simp [(hnone k).1] at hf
    · intro f hf
      obtain ⟨k, hf⟩ := mem_files.mp hf
      rw [addedTo_addParquetFile, mem_append, mem_ite_nil_right, mem_singleton] at hf
      rcases hf with hf | ⟨-, rfl⟩
      · exact hmanifests m₀ (Node.mem_manifests.mpr (.inl hm₀)) f (mem_files.mpr ⟨k, hf⟩)
      · obtain ⟨hchunk, m₁, -, hfile⟩ := (h.recorded.nodes n).jobs _ hjob
        have hmax : f.maxTime = c.timestampMinMax.2 := congrArg Prod.snd hfile.range
        exact hmax ▸ hchunks c hchunk
    · exact h.merged_lt hd (fun k => (hadded k).1) hpublished
  · rcases mem_publishedFiles_after h.recorded hstepped hf with hf | ⟨-, m, hm, hf⟩
    · exact hpublished f hf
    · exact hmanifests m (Node.mem_manifests.mpr (.inr (.inr hm))) f hf

theorem Behind.after_of_written {rows : List WrittenRow} (hrows : ∀ w ∈ rows, s.After n w.2.2.time) {b : BufferedRow}
    (hb : b ∈ (rows.foldl (bufferRow n) ((s.nodes n).live, (s.nodes n).writes)).1) : s.After n b.point.row.time := by
  rcases mem_foldl_bufferRow hb with ⟨b₀, hb₀, -, hpoint, -⟩ | ⟨-, w, hw, -, hrow⟩
  · exact hpoint ▸ h.live b₀ hb₀
  · exact hrow ▸ hrows w hw

section
variable (hstepped : Node.Stepped cfg n s.log s.contents (s.nodes n) a e)
include hstepped

private theorem Behind.live_step (hwrites : WritesInOrder n s (n, a)) :
    ∀ b ∈ e.node.live, (s.after n e).After n b.point.row.time := by
  have hafter := hstepped
  cases hstepped with
  | write =>
    intro b hb
    have ht := h.after_of_written (hwrites rfl) hb
    exact h.after_step hafter ht ht.1
  | freeze =>
    intro b hb
    obtain ⟨hb, hkept⟩ := mem_filter.mp hb
    refine h.after_step hafter (h.after_of_written (hwrites rfl) hb) fun c hc => ?_
    -- what stays live is of a later window than what is frozen
    by_contra hle
    have hwindow := cfg.roundDown_mono (not_lt.mp hle)
    have hmarker := roundDown_max_of_mem_snapshotChunks hc
    simp only [decide_eq_true_eq] at hkept
    omega
  | handOver =>
    exact fun b hb => h.after_step hafter (h.live b hb) fun c hc => (h.live b hb).1 c (mem_of_mem_erase hc)
  | _ => exact fun b hb => h.after_step hafter (h.live b hb) (h.live b hb).1

private theorem Behind.frozen_step (hwrites : WritesInOrder n s (n, a)) :
    ∀ c ∈ e.node.snapshotting, ∀ p ∈ c.rows, (∀ m ∈ e.node.settled, ∀ f ∈ m.files, f.maxTime < p.row.time) ∧
      ∀ f ∈ publishedFiles (s.after n e).log n, f.maxTime < p.row.time := by
  intro c hc p hp
  -- frozen before the action, or live and frozen by it
  have hold : (∀ m ∈ (s.nodes n).settled, ∀ f ∈ m.files, f.maxTime < p.row.time) ∧
      ∀ f ∈ publishedFiles s.log n, f.maxTime < p.row.time := by
    have hlive {b : BufferedRow} (hb : s.After n b.point.row.time) (hbp : b.point = p) :
        (∀ m ∈ (s.nodes n).settled, ∀ f ∈ m.files, f.maxTime < p.row.time) ∧
          ∀ f ∈ publishedFiles s.log n, f.maxTime < p.row.time :=
      hbp ▸ ⟨fun m hm => hb.2.1 m (Node.mem_manifests.mpr (.inr (Node.mem_settled.mp hm))), hb.2.2⟩
    cases hstepped with
    | freeze =>
      obtain ⟨b, hb, -, hbp, -, -⟩ := exists_live_of_mem_snapshotChunks hc hp
      exact hlive (h.after_of_written (hwrites rfl) hb) hbp
    | handOver => exact h.frozen c (mem_of_mem_erase hc) p hp
    | _ => exact h.frozen c hc p hp
  refine ⟨fun m hm => ?_, fun f hf => ?_⟩
  · rcases Node.mem_settled_of_stepped hstepped (ne_nil_of_mem hc) hm with hm | ⟨d, hd, hadded⟩
    · exact hold.1 m hm
    · exact h.merged_lt hd hadded hold.2
  · rcases mem_publishedFiles_after h.recorded hstepped hf with hf | ⟨-, m, hm, hf⟩
    · exact hold.2 f hf
    · exact hold.1 m (Node.mem_settled.mpr (.inr hm)) f hf

private theorem Behind.merged_step :
    ∀ d ∈ e.node.applying, ∃ f ∈ publishedFiles (s.after n e).log n, d.merged.maxTime ≤ f.maxTime := by
  have hold {d : Applying} (hd : d ∈ (s.nodes n).applying) :
      ∃ f ∈ publishedFiles (s.after n e).log n, d.merged.maxTime ≤ f.maxTime := by
    obtain ⟨f, hf, hle⟩ := h.merged d hd
    exact ⟨f, publishedFiles_subset n e hf, hle⟩
  cases hstepped with
  | @compact position coldBefore config group path sizeBytes hinputs hne =>
    intro d hd
    rcases Node.mem_applyMerge hd with hd | ⟨-, hmerged, -⟩
    · exact hold hd
    · obtain ⟨f, hf, hmax⟩ := MergeGroup.exists_maxTime hne
      exact ⟨f, publishedFiles_subset n _
        (mem_publishedFiles.mpr ⟨_, (published_of_mem_filesForTable (hinputs f hf)).of_take⟩),
        by rw [hmerged]; exact hmax.ge⟩
  | reserve =>
    intro d hd
    obtain ⟨d₀, hd₀, rfl⟩ := mem_map.mp hd
    obtain ⟨f, hf, hle⟩ := hold hd₀
    refine ⟨f, hf, ?_⟩
    split <;> exact hle
  | persistCompaction => exact fun d hd => hold (mem_of_mem_filter hd)
  | _ => exact fun d => hold

end

theorem Behind.step {a : String × NodeAction} (hwrites : WritesInOrder n s a) (hstep : s.step cfg a = some s') :
    s'.Behind cfg n := by
  have hrecorded := h.recorded.step hstep
  obtain ⟨node, action⟩ := a
  obtain ⟨e, hstepped, rfl⟩ := stepped_of_step hstep
  by_cases hn : node = n
  · subst hn
    refine ⟨hrecorded, ?_, ?_, ?_⟩ <;> simp only [after, Function.update_self]
    · exact h.merged_step hstepped
    · exact h.live_step hstepped hwrites
    · exact h.frozen_step hstepped hwrites
  · have hnodes : (s.after node e).nodes n = s.nodes n := by simp [after, Ne.symm hn]
    have hpublished {f : ParquetFile} (hf : f ∈ publishedFiles (s.after node e).log n) : f ∈ publishedFiles s.log n :=
      (mem_publishedFiles_after h.recorded hstepped hf).resolve_right fun hsame => hn hsame.1
    refine ⟨hrecorded, ?_, ?_, ?_⟩
    · rw [hnodes]
      intro d hd
      obtain ⟨f, hf, hle⟩ := h.merged d hd
      exact ⟨f, publishedFiles_subset node e hf, hle⟩
    · simp only [After, hnodes]
      exact fun b hb => ⟨(h.live b hb).1, (h.live b hb).2.1, fun f hf => (h.live b hb).2.2 f (hpublished hf)⟩
    · rw [hnodes]
      exact fun c hc p hp => ⟨(h.frozen c hc p hp).1, fun f hf => (h.frozen c hc p hp).2 f (hpublished hf)⟩

end

end State

/-- In a run that writes to the peer in the order of time, a reader that skips the peer's buffer misses no row within
the query's upper bound. -/
theorem skip_misses_no_row {cfg : Config} {n : String} {as : List (String × NodeAction)} {s : State}
    (hrun : run (State.step cfg) .empty as = some s)
    (hwrites : Guarded (State.step cfg) (WritesInOrder n) .empty as) (position : Nat) (filter : ChunkFilter)
    (hskip : ClusterWriteBuffer.predatesWatermark (replay (s.log.take position)) n filter = true) :
    ∃ upper, filter.timeUpperBoundNs = some upper ∧ (∀ b ∈ (s.nodes n).live, ¬b.point.row.time ≤ upper) ∧
      ∀ c ∈ (s.nodes n).snapshotting, ∀ p ∈ c.rows, ¬p.row.time ≤ upper := by
  have h : s.Behind cfg n := invariant (State.Behind.step ·)
    (by exact ⟨.empty cfg, nofun, nofun, nofun⟩) hwrites hrun
  simp only [ClusterWriteBuffer.predatesWatermark] at hskip
  split at hskip
  · rename_i upper watermark hupper hmark
    obtain ⟨entry, hentry, d, hd, hnode, f, hf, rfl⟩ := exists_file_of_persistedMaxTime hmark
    have hpublished : f ∈ publishedFiles s.log n := mem_publishedFiles.mpr ⟨_, entry, hentry, d, hd, hnode, rfl, hf⟩
    have hle := of_decide_eq_true hskip
    refine ⟨upper, hupper, fun b hb => ?_, fun c hc p hp => ?_⟩
    · have := (h.live b hb).2.2 f hpublished
      omega
    · have := (h.frozen c hc p hp).2 f hpublished
      omega
  · cases hskip

private def onTime : List (String × NodeAction) :=
  samplePersist (0, 1) 0 [3, 5] (3, 5) ++ [sampleWrite "a" (0, 1) [6, 15] false]

theorem skip_of_on_time_writes : ∃ s, run (State.step sampleConfig) .empty onTime = some s ∧
    ClusterWriteBuffer.predatesWatermark (replay (s.log.take 1)) "a" ⟨none, some 5⟩ = true ∧
    (s.nodes "a").live ≠ [] ∧ ∀ b ∈ (s.nodes "a").live, ¬b.point.row.time ≤ 5 := by
  refine exists_of_decide
    (fun s => ClusterWriteBuffer.predatesWatermark (replay (s.log.take 1)) "a" ⟨none, some 5⟩ = true ∧
    (s.nodes "a").live ≠ []) (by decide) fun s hrun ⟨hskip, hlive⟩ => ?_
  obtain ⟨upper, hupper, hrows, -⟩ := skip_misses_no_row hrun (by decide) 1 _ hskip
  exact ⟨hskip, hlive, some.inj hupper ▸ hrows⟩

private def lateWrite : List (String × NodeAction) :=
  samplePersist (0, 1) 0 [5] (5, 5) ++ [sampleWrite "a" (0, 1) [3] false]

/-- The peer is skipped although its buffer holds a row that was written late. -/
theorem late_row_skipped : ∃ s, run (State.step sampleConfig) .empty lateWrite = some s ∧
    ClusterWriteBuffer.predatesWatermark (replay (s.log.take 1)) "a" ⟨none, some 4⟩ = true ∧
    ∃ b ∈ (s.nodes "a").live, b.table = (0, 1) ∧ b.superseded = false ∧ b.point.row.time ≤ 4 := by
  decide

end VarveDB.Cluster
