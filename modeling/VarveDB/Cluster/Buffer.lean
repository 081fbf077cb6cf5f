import VarveDB.Cluster.Node

/-! What a node's buffer keeps: of the rows of one key in a table only the last written counts. -/
namespace VarveDB.Cluster
open Library Runs Query List

variable {b : BufferedRow}

section Live
variable {nodeId : String} {live : List BufferedRow} {writes : Nat}

/-- Rows are numbered as they are written to the node, and of two rows with one key the earlier
one is masked. -/
structure Buffered (nodeId : String) (live : List BufferedRow) (writes : Nat) : Prop where
  written : ∀ b ∈ live, b.point.node = nodeId ∧ b.point.written < writes
  masked : live.Pairwise fun b b' => b.table = b'.table → b.point.row = b'.point.row →
    b.superseded = true ∧ b.point.written < b'.point.written

theorem Buffered.filter (h : Buffered nodeId live writes) (p : BufferedRow → Bool) :
    Buffered nodeId (live.filter p) writes :=
  ⟨fun b hb => h.written b (mem_of_mem_filter hb), h.masked.filter p⟩

theorem Buffered.bufferRow (h : Buffered nodeId live writes) (w : WrittenRow) :
    Buffered nodeId (bufferRow nodeId (live, writes) w).1 (writes + 1) := by
  constructor
  · intro b hb
    rcases mem_snoc.mp hb with hb | rfl
    · obtain ⟨b₀, hb₀, rfl⟩ := mem_map.mp hb
      exact ⟨(h.written b₀ hb₀).1, Nat.lt_succ_of_lt (h.written b₀ hb₀).2⟩
    · exact ⟨rfl, Nat.lt_succ_self _⟩
  · refine pairwise_append.mpr ⟨pairwise_map.mpr (h.masked.imp fun hb htable hrow => ?_), by simp, ?_⟩
    · exact ⟨by simp [BufferedRow.maskedBy, (hb htable hrow).1], (hb htable hrow).2⟩
    · intro b hb b' hb' htable hrow
      obtain ⟨b₀, hb₀, rfl⟩ := mem_map.mp hb
      obtain rfl := mem_singleton.mp hb'
      have hmask : b₀.table = w.1 ∧ b₀.point.row = w.2.2 := ⟨htable, hrow⟩
      exact ⟨by simp [BufferedRow.maskedBy, hmask], (h.written b₀ hb₀).2⟩

theorem Buffered.foldl (h : Buffered nodeId live writes) (rows : List WrittenRow) :
    Buffered nodeId (rows.foldl (Cluster.bufferRow nodeId) (live, writes)).1
      (rows.foldl (Cluster.bufferRow nodeId) (live, writes)).2 := by
  induction rows generalizing live writes with
  | nil => exact h
  | cons w rows ih => exact ih (h.bufferRow w)

/-- A row after some writes is an earlier one, perhaps masked by now, or was written by them. -/
theorem mem_foldl_bufferRow {rows : List WrittenRow} (hb : b ∈ (rows.foldl (bufferRow nodeId) (live, writes)).1) :
    (∃ b₀ ∈ live, b₀.table = b.table ∧ b₀.point = b.point ∧ (b.superseded = false → b₀.superseded = false)) ∨
      writes ≤ b.point.written ∧ ∃ w ∈ rows, w.1 = b.table ∧ w.2.2 = b.point.row := by
  induction rows generalizing live writes with
  | nil => exact .inl ⟨b, hb, rfl, rfl, id⟩
  | cons w rows ih =>
    rcases ih hb with ⟨b₁, hb₁, htable, hpoint, hkept⟩ | ⟨hle, w', hw', hrow⟩
    · rcases mem_snoc.mp hb₁ with hb₁ | rfl
      · obtain ⟨b₀, hb₀, rfl⟩ := mem_map.mp hb₁
        exact .inl ⟨b₀, hb₀, htable, hpoint, fun hfalse => (Bool.or_eq_false_iff.mp (hkept hfalse)).1⟩
      · exact .inr ⟨hpoint ▸ le_rfl, w, mem_cons_self, htable, hpoint ▸ rfl⟩
    · exact .inr ⟨Nat.le_of_succ_le hle, w', mem_cons_of_mem _ hw', hrow⟩

theorem le_foldl_bufferRow (rows : List WrittenRow) (buffer : List BufferedRow × Nat) :
    buffer.2 ≤ (rows.foldl (bufferRow nodeId) buffer).2 := by
  induction rows generalizing buffer with
  | nil => exact le_rfl
  | cons w rows ih => exact (Nat.le_succ _).trans (ih (bufferRow nodeId buffer w))

/-- Rows that count have distinct keys within their table. -/
theorem Buffered.eq_of_row (h : Buffered nodeId live writes) {b' : BufferedRow} (hb : b ∈ live) (hb' : b' ∈ live)
    (hkept : b.superseded = false) (hkept' : b'.superseded = false) (htable : b.table = b'.table)
    (hrow : b.point.row = b'.point.row) : b = b' := by
  by_contra hne
  let Masked (a a' : BufferedRow) : Prop :=
    a.table = a'.table → a.point.row = a'.point.row → a.superseded = true ∨ a'.superseded = true
  have hpair : live.Pairwise Masked := h.masked.imp fun haa htable hrow => .inl (haa htable hrow).1
  have : Std.Symm Masked := ⟨fun a a' haa htable hrow => (haa htable.symm hrow.symm).symm⟩
  have := hpair.forall hb hb' hne htable hrow
  simp [hkept, hkept'] at this

end Live

variable {p : Point} {rows : List Point}

theorem timestampMinMax_covers (hp : p ∈ rows) :
    (timestampMinMax rows).1 ≤ p.row.time ∧ p.row.time ≤ (timestampMinMax rows).2 := by
  have hmem : p.row.time ∈ rows.map fun p => p.row.time := mem_map_of_mem hp
  constructor
  · cases hmin : (rows.map fun p => p.row.time).min? with
    | none => exact absurd hmem (List.min?_eq_none_iff.mp hmin ▸ not_mem_nil)
    | some t => simpa [timestampMinMax, hmin] using (List.min?_eq_some_iff.mp hmin).2 _ hmem
  · cases hmax : (rows.map fun p => p.row.time).max? with
    | none => exact absurd hmem (List.max?_eq_none_iff.mp hmax ▸ not_mem_nil)
    | some t => simpa [timestampMinMax, hmax] using (List.max?_eq_some_iff.mp hmax).2 _ hmem

private theorem exists_time_eq_max (hne : rows ≠ []) : ∃ p ∈ rows, p.row.time = (timestampMinMax rows).2 := by
  obtain ⟨p, hp⟩ := exists_mem_of_ne_nil _ hne
  obtain ⟨t, hmax⟩ := Option.isSome_iff_exists.mp
    (isSome_max?_of_mem (mem_map_of_mem (f := fun p : Point => p.row.time) hp))
  obtain ⟨q, hq, hqt⟩ := mem_map.mp (List.max?_mem hmax)
  exact ⟨q, hq, by simp [timestampMinMax, hmax, hqt]⟩

theorem mem_chunkRows {cfg : Config} {live : List BufferedRow} {k : ChunkKey} :
    b ∈ chunkRows cfg live k ↔ b ∈ live ∧ b.chunk cfg = k := by simp [chunkRows]

theorem mem_batchRows {rows : List BufferedRow} :
    p ∈ batchRows rows ↔ ∃ b ∈ rows, b.superseded = false ∧ b.point = p := by simp [batchRows, and_assoc]

section Snapshot
variable {cfg : Config} {nodeId : String} {live : List BufferedRow} {writes : Nat} {marker : Int}

variable {c : SnapshotChunk}

theorem mem_snapshotChunks : c ∈ snapshotChunks cfg marker live ↔
    ∃ k ∈ chunkKeys cfg live, k.2.1 < marker ∧ batchRows (chunkRows cfg live k) ≠ [] ∧
      c = ⟨k.1, k.2.1, k.2.2, timestampMinMax ((chunkRows cfg live k).map BufferedRow.point),
        batchRows (chunkRows cfg live k)⟩ := by
  simp only [snapshotChunks, mem_filterMap, mem_filter, decide_eq_true_eq, Option.ite_none_left_eq_some,
    Option.some.injEq, and_assoc, ne_eq, @eq_comm _ c]

structure SnapshotChunk.Valid (cfg : Config) (nodeId : String) (c : SnapshotChunk) : Prop where
  range : c.timestampMinMax.1 ≤ c.timestampMinMax.2
  rows : ∀ p ∈ c.rows, p.node = nodeId ∧ cfg.roundDown p.row.time = c.chunkTime ∧
    c.timestampMinMax.1 ≤ p.row.time ∧ p.row.time ≤ c.timestampMinMax.2
  keys : (c.rows.map Point.row).Nodup

structure Frozen (cfg : Config) (nodeId : String) (chunks : List SnapshotChunk) : Prop where
  valid : ∀ c ∈ chunks, c.Valid cfg nodeId
  apart : chunks.Pairwise fun c c' => c.table = c'.table → ¬ShareKey c.rows c'.rows

section
variable (hc : c ∈ snapshotChunks cfg marker live)
include hc

/-- Where a row of a snapshot's chunk comes from. -/
theorem exists_live_of_mem_snapshotChunks (hp : p ∈ c.rows) : ∃ b ∈ live, b.superseded = false ∧ b.point = p ∧
      b.chunk cfg = (c.table, c.chunkTime, c.chunkOrdinal) ∧ cfg.roundDown p.row.time < marker := by
  obtain ⟨k, -, hmarker, -, rfl⟩ := mem_snapshotChunks.mp hc
  obtain ⟨b, hchunk, hkept, rfl⟩ := mem_batchRows.mp hp
  obtain ⟨hb, rfl⟩ := mem_chunkRows.mp hchunk
  exact ⟨b, hb, hkept, rfl, rfl, hmarker⟩

/-- The last time of a frozen chunk is of its window, which is before the marker. -/
theorem roundDown_max_of_mem_snapshotChunks : cfg.roundDown c.timestampMinMax.2 < marker := by
  obtain ⟨k, hk, hmarker, -, rfl⟩ := mem_snapshotChunks.mp hc
  obtain ⟨b₀, hb₀, hchunk₀⟩ := mem_map.mp (mem_dedup.mp hk)
  obtain ⟨p, hp, htime⟩ := exists_time_eq_max (ne_nil_of_mem
    (mem_map_of_mem (f := BufferedRow.point) (mem_chunkRows.mpr ⟨hb₀, hchunk₀⟩)))
  obtain ⟨b, hb, rfl⟩ := mem_map.mp hp
  rw [← htime]
  exact (congrArg (fun k : ChunkKey => k.2.1) (mem_chunkRows.mp hb).2).trans_lt hmarker

end

/-- What a snapshot freezes. -/
theorem Buffered.frozen (h : Buffered nodeId live writes) : Frozen cfg nodeId (snapshotChunks cfg marker live) := by
  constructor
  · intro c hc
    obtain ⟨k, -, -, hne, rfl⟩ := mem_snapshotChunks.mp hc
    have hcovers {p : Point} (hp : p ∈ batchRows (chunkRows cfg live k)) :
        (timestampMinMax ((chunkRows cfg live k).map BufferedRow.point)).1 ≤ p.row.time ∧
          p.row.time ≤ (timestampMinMax ((chunkRows cfg live k).map BufferedRow.point)).2 := by
      obtain ⟨b, hb, -, rfl⟩ := mem_batchRows.mp hp
      exact timestampMinMax_covers (mem_map_of_mem hb)
    refine ⟨?_, fun p hp => ?_, ?_⟩
    · obtain ⟨p, hp⟩ := exists_mem_of_ne_nil _ hne
      exact (hcovers hp).1.trans (hcovers hp).2
    · obtain ⟨b, hchunk, -, rfl⟩ := mem_batchRows.mp hp
      obtain ⟨hb, rfl⟩ := mem_chunkRows.mp hchunk
      exact ⟨(h.written b hb).1, rfl, hcovers hp⟩
    · refine pairwise_map.mpr (pairwise_map.mpr ?_)
      refine ((h.masked.filter _).filter _).imp_of_mem fun {b b'} hb hb' hmasked hrow => ?_
      obtain ⟨hb, hkept⟩ := mem_filter.mp hb
      have htable : b.table = b'.table := congrArg Prod.fst
        ((mem_chunkRows.mp hb).2.trans (mem_chunkRows.mp (mem_of_mem_filter hb')).2.symm)
      simp [(hmasked htable hrow).1] at hkept
  · refine pairwise_filterMap.mpr (((nodup_dedup _).filter _).imp fun {k k'} hne => ?_)
    simp only [Option.ite_none_left_eq_some, Option.some.injEq]
    rintro c ⟨-, rfl⟩ c' ⟨-, rfl⟩ htable ⟨p, hp, q, hq, hrow⟩
    obtain ⟨b, hchunk, hkept, rfl⟩ := mem_batchRows.mp hp
    obtain ⟨b', hchunk', hkept', rfl⟩ := mem_batchRows.mp hq
    obtain ⟨hb, rfl⟩ := mem_chunkRows.mp hchunk
    obtain ⟨hb', rfl⟩ := mem_chunkRows.mp hchunk'
    exact hne (congrArg _ (h.eq_of_row hb hb' hkept hkept' htable hrow))

end Snapshot
end VarveDB.Cluster
