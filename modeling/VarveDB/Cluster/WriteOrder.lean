import VarveDB.Cluster.Records

/-! The order of writes along a table's files, on a node that does not merge them. -/
namespace VarveDB.Cluster
open Library Runs FileIndex Compaction Compactor Query Publisher List PersistedFiles

/-- Leaves the files of one table of one node unmerged. -/
def Spares (n : String) (k : TableKey) (_ : State) : String × NodeAction → Prop
  | (n', .compact _ _ _ group _ _) => n' = n → Node.table group ≠ k
  | _ => True

instance (n : String) (k : TableKey) (s : State) (a : String × NodeAction) : Decidable (Spares n k s a) := by
  rcases a with ⟨_, _ | _⟩ <;> dsimp only [Spares] <;> infer_instance

def Named (cfg : Config) (n : String) (k : TableKey) (f : ParquetFile) (w : Nat) : Prop :=
  ∃ ordinal, f.path = parquetFilePath cfg.dateString n k f.chunkTime w ordinal

def Earlier (cfg : Config) (n : String) (k : TableKey) (rows : ParquetFile → List Point) (bound : Nat)
    (f g : ParquetFile) : Prop :=
  ∀ p ∈ rows f, ∀ q ∈ rows g, p.row = q.row → p.written < q.written ∧ f.id < g.id ∧
    ∃ w w', Named cfg n k f w ∧ Named cfg n k g w' ∧ w < w' ∧ w' < bound

structure Node.Periods (x : Node) : Prop where
  increasing : Increasing Wal.WalPeriod.walFileNumber x.tracker.walPeriods
  below : ∀ p ∈ x.tracker.walPeriods, p.walFileNumber < x.walFileNumber
  snapshot : ∀ m, x.snapshot = some m → m.walFileSequenceNumber < x.walFileNumber ∧
    ∀ p ∈ x.tracker.walPeriods, m.walFileSequenceNumber < p.walFileNumber
  number : ∀ m, x.snapshot = some m → m.snapshotSequenceNumber ≤ x.tracker.lastSnapshotSequenceNumber

structure Filed (cfg : Config) (n : String) (k : TableKey) (x : Node) (points : List Point) (f : ParquetFile) :
    Prop where
  named : ∃ w, Named cfg n k f w ∧ w < x.walFileNumber ∧ ∀ p ∈ x.tracker.walPeriods, w < p.walFileNumber
  windows : ∀ p ∈ points, cfg.roundDown p.row.time = f.chunkTime
  keys : (points.map Point.row).Nodup
  written : ∀ p ∈ points, p.written < x.writes
  id : f.id < x.nextFileId
  live : ∀ b ∈ x.live, b.table = k → ∀ p ∈ points, p.row = b.point.row → p.written < b.point.written

/-- The writes of one table, from its files through the frozen chunks to the live rows.
`attributed f q` says that the file is recorded under the snapshot number. -/
structure Ordered (cfg : Config) (n : String) (k : TableKey) (rows : ParquetFile → List Point)
    (attributed : ParquetFile → Nat → Prop) (x : Node) : Prop where
  periods : x.Periods
  applying : ∀ d ∈ x.applying, d.table ≠ k
  files : ∀ f ∈ x.persistedFiles.files k, Filed cfg n k x (rows f) f
  written : ∀ c ∈ x.snapshotting, ∀ p ∈ c.rows, p.written < x.writes
  ids : ∀ job ∈ x.persisted, job.2.id < x.nextFileId
  live : ∀ b ∈ x.live, b.table = k → ∀ c ∈ x.snapshotting, c.table = k → ∀ p ∈ c.rows, p.row = b.point.row →
    p.written < b.point.written
  frozen : ∀ c ∈ x.snapshotting, c.table = k → ∀ f ∈ x.persistedFiles.files k, ∀ p ∈ rows f, ∀ q ∈ c.rows,
    p.row = q.row → p.written < q.written ∧
      (∃ w, Named cfg n k f w ∧ ∀ m, x.snapshot = some m → w < m.walFileSequenceNumber) ∧
      ∀ g, (c, g) ∈ x.persisted → f.id < g.id
  order : (x.persistedFiles.files k).Pairwise (Earlier cfg n k rows x.walFileNumber)
  attributed_listed : ∀ f q, attributed f q → f ∈ x.persistedFiles.files k ∧ q ≤ x.tracker.lastSnapshotSequenceNumber
  attributed_snapshot : ∀ m, x.snapshot = some m → ∀ f q, attributed f q → q < m.snapshotSequenceNumber ∨
    q = m.snapshotSequenceNumber ∧ ∀ c ∈ x.snapshotting, c.table = k → ¬ShareKey (rows f) c.rows
  attributed_order : ∀ f q g q', attributed f q → attributed g q' → q < q' →
    Earlier cfg n k rows x.walFileNumber f g
  attributed_apart : ∀ f q g, attributed f q → attributed g q → f ≠ g → ¬ShareKey (rows f) (rows g)

variable {f file g : ParquetFile} {q : Nat}

section
variable {cfg : Config} {n : String} {k : TableKey} {rows rows' : ParquetFile → List Point}
  {attributed attributed' : ParquetFile → Nat → Prop} {x : Node} {log : List FileIndexLogEntry} {contents : Contents}
  {chunk : SnapshotChunk}

theorem Earlier.mono {bound bound' : Nat} (h : Earlier cfg n k rows bound f g)
    (hle : bound ≤ bound') : Earlier cfg n k rows bound' f g := by
  intro p hp q hq hrow
  obtain ⟨hwritten, hid, w, w', hw, hw', hlt, hbound⟩ := h p hp q hq hrow
  exact ⟨hwritten, hid, w, w', hw, hw', hlt, hbound.trans_le hle⟩

theorem Earlier.congr {bound : Nat} (h : Earlier cfg n k rows bound f g) (hf : rows' f = rows f)
    (hg : rows' g = rows g) : Earlier cfg n k rows' bound f g := by
  intro p hp q hq
  exact h p (hf ▸ hp) q (hg ▸ hq)

/-- Only the rows of the listed files matter. -/
theorem Ordered.congr (h : Ordered cfg n k rows attributed x)
    (hrows : ∀ f ∈ x.persistedFiles.files k, rows' f = rows f) : Ordered cfg n k rows' attributed x where
  __ := h
  files f hf := hrows f hf ▸ h.files f hf
  frozen c hc hk f hf := hrows f hf ▸ h.frozen c hc hk f hf
  order := h.order.imp_of_mem fun hf hg hfg => hfg.congr (hrows _ hf) (hrows _ hg)
  attributed_snapshot m hm f q hf := by
    rw [hrows f (h.attributed_listed f q hf).1]
    exact h.attributed_snapshot m hm f q hf
  attributed_order f q g q' hf hg hlt := (h.attributed_order f q g q' hf hg hlt).congr
    (hrows f (h.attributed_listed f q hf).1) (hrows g (h.attributed_listed g q' hg).1)
  attributed_apart f q g hf hg := by
    rw [hrows f (h.attributed_listed f q hf).1, hrows g (h.attributed_listed g q hg).1]
    exact h.attributed_apart f q g hf hg

/-- Fewer attributions. -/
theorem Ordered.attribute (h : Ordered cfg n k rows attributed x) (hsub : ∀ f q, attributed' f q → attributed f q) :
    Ordered cfg n k rows attributed' x :=
  { h with
    attributed_listed := fun f q hf => h.attributed_listed f q (hsub f q hf)
    attributed_snapshot := fun m hm f q hf => h.attributed_snapshot m hm f q (hsub f q hf)
    attributed_order := fun f q g q' hf hg => h.attributed_order f q g q' (hsub f q hf) (hsub g q' hg)
    attributed_apart := fun f q g hf hg => h.attributed_apart f q g (hsub f q hf) (hsub g q hg) }

def Node.flushed (nodeId : String) (x : Node) (written : List WrittenRow) (now : Int) : Node :=
  { x with
    walFileNumber := x.walFileNumber + 1
    tracker := x.tracker.addWalPeriod (x.walPeriod written now)
    live := (written.foldl (bufferRow nodeId) (x.live, x.writes)).1
    writes := (written.foldl (bufferRow nodeId) (x.live, x.writes)).2 }

theorem Node.mem_walPeriods_flushed {nodeId : String} {written : List WrittenRow} {now : Int} {p : Wal.WalPeriod}
    (hp : p ∈ (x.flushed nodeId written now).tracker.walPeriods) :
    p ∈ x.tracker.walPeriods ∨ p.walFileNumber = x.walFileNumber := by
  rcases mem_append.mp hp with hp | hp
  · exact .inl hp
  · exact .inr (mem_singleton.mp hp ▸ rfl)

private theorem Node.Periods.flushed (h : x.Periods) (nodeId : String) (written : List WrittenRow) (now : Int) :
    (x.flushed nodeId written now).Periods where
  increasing := h.increasing.append_singleton fun p hp => h.below p hp
  below p hp := by
    rcases mem_walPeriods_flushed hp with hp | hp
    · exact Nat.lt_succ_of_lt (h.below p hp)
    · exact hp ▸ Nat.lt_succ_self _
  snapshot m hm := by
    obtain ⟨hlt, hbefore⟩ := h.snapshot m hm
    refine ⟨Nat.lt_succ_of_lt hlt, fun p hp => ?_⟩
    rcases mem_walPeriods_flushed hp with hp | hp
    · exact hbefore p hp
    · exact hp ▸ hlt
  number := h.number

section
variable (h : Ordered cfg n k rows attributed x)
include h

private theorem Ordered.flushed (written : List WrittenRow) (now : Int) :
    Ordered cfg n k rows attributed (x.flushed n written now) where
  __ := h
  periods := h.periods.flushed n written now
  files f hf := by
    obtain ⟨w, hw, hlt, hbefore⟩ := (h.files f hf).named
    refine { h.files f hf with
      named := ⟨w, hw, Nat.lt_succ_of_lt hlt, fun p hp => ?_⟩
      written := fun p hp => ((h.files f hf).written p hp).trans_le (le_foldl_bufferRow written (x.live, x.writes))
      live := fun b hb hk => ?_ }
    · rcases Node.mem_walPeriods_flushed hp with hp | hp
      · exact hbefore p hp
      · exact hp ▸ hlt
    · rcases mem_foldl_bufferRow hb with ⟨b₀, hb₀, htable, hpoint, -⟩ | ⟨hle, -⟩
      · exact hpoint ▸ (h.files f hf).live b₀ hb₀ (htable.trans hk)
      · exact fun p hp _ => ((h.files f hf).written p hp).trans_le hle
  written c hc p hp := (h.written c hc p hp).trans_le (le_foldl_bufferRow written (x.live, x.writes))
  live b hb hk := by
    rcases mem_foldl_bufferRow hb with ⟨b₀, hb₀, htable, hpoint, -⟩ | ⟨hle, -⟩
    · exact hpoint ▸ h.live b₀ hb₀ (htable.trans hk)
    · exact fun c hc _ p hp _ => (h.written c hc p hp).trans_le hle
  order := h.order.imp fun hfg => hfg.mono (Nat.le_succ _)
  attributed_order f q g q' hf hg hlt := (h.attributed_order f q g q' hf hg hlt).mono (Nat.le_succ _)

/-- A snapshot freezes whole windows, so no live row has the key of a frozen one. -/
theorem Ordered.freeze {details : Wal.SnapshotDetails} {tracker : Wal.SnapshotTracker} {force : Bool}
    {nodeId : String} {nextFileId : Nat} (hidle : x.persisted = []) (hbuffered : Buffered n x.live x.writes)
    (hdue : x.tracker.snapshot cfg.toConfig force = some (details, tracker)) : Ordered cfg n k rows attributed { x with
      tracker
      live := x.live.filter fun b => ¬cfg.roundDown b.point.row.time < details.endTimeMarker
      snapshotting := snapshotChunks cfg details.endTimeMarker x.live
      snapshot := some (.new nodeId details.snapshotSequenceNumber details.lastWalSequenceNumber 0 nextFileId) } := by
  have hperiods := Wal.SnapshotTracker.snapshot_walPeriods hdue h.periods.increasing
  have hnumber := Wal.SnapshotTracker.snapshot_number hdue
  have hplanned : Wal.Planned cfg.toConfig x.tracker.walPeriods details := ⟨_, _, _, hdue⟩
  obtain ⟨last, hlast, hlastNumber⟩ := hplanned.last_mem
  have hremaining (p : Wal.WalPeriod) (hp : p ∈ tracker.walPeriods) :
      p ∈ x.tracker.walPeriods ∧ details.lastWalSequenceNumber < p.walFileNumber := by
    rw [hperiods] at hp
    simpa using hp
  have hfrozen (c : SnapshotChunk) (hc : c ∈ snapshotChunks cfg details.endTimeMarker x.live) (q : Point)
      (hq : q ∈ c.rows) : ∃ b ∈ x.live, b.point = q ∧ b.table = c.table := by
    obtain ⟨b, hb, -, hpoint, hchunk, -⟩ := exists_live_of_mem_snapshotChunks hc hq
    exact ⟨b, hb, hpoint, congrArg Prod.fst hchunk⟩
  refine { h with
    periods := ⟨?_, ?_, ?_, ?_⟩
    files := ?_
    written := ?_
    live := ?_
    frozen := ?_
    attributed_listed := ?_
    attributed_snapshot := ?_ }
  · exact hperiods ▸ h.periods.increasing.filter _
  · exact fun p hp => h.periods.below p (hremaining p hp).1
  · rintro _ ⟨⟩
    exact ⟨hlastNumber ▸ h.periods.below last hlast, fun p hp => (hremaining p hp).2⟩
  · rintro _ ⟨⟩
    exact Nat.le_of_eq (hnumber.1.trans hnumber.2.symm)
  · intro f hf
    obtain ⟨w, hw, hlt, hbefore⟩ := (h.files f hf).named
    exact { h.files f hf with
      named := ⟨w, hw, hlt, fun p hp => hbefore p (hremaining p hp).1⟩
      live := fun b hb => (h.files f hf).live b (mem_filter.mp hb).1 }
  · intro c hc p hp
    obtain ⟨b, hb, rfl, -⟩ := hfrozen c hc p hp
    exact (hbuffered.written b hb).2
  · intro b hb hk
    obtain ⟨hb, hlate⟩ := mem_filter.mp hb
    intro c hc _ p hp hrow
    obtain ⟨-, -, -, -, -, hearly⟩ := exists_live_of_mem_snapshotChunks hc hp
    exact absurd (hrow ▸ hearly) (by simpa using hlate)
  · intro c hc hk f hf p hp q hq hrow
    obtain ⟨b, hb, rfl, htable⟩ := hfrozen c hc q hq
    obtain ⟨w, hw, -, hbefore⟩ := (h.files f hf).named
    refine ⟨(h.files f hf).live b hb (htable.trans hk) p hp hrow, ⟨w, hw, ?_⟩, fun g hg => ?_⟩
    · rintro _ ⟨⟩
      exact hlastNumber ▸ hbefore last hlast
    · simp [hidle] at hg
  · intro f q hf
    obtain ⟨hlisted, hle⟩ := h.attributed_listed f q hf
    exact ⟨hlisted, hle.trans (hnumber.2 ▸ Nat.le_succ _)⟩
  · rintro _ ⟨⟩ f q hf
    exact .inl (hnumber.1 ▸ Nat.lt_succ_of_le (h.attributed_listed f q hf).2)

theorem Ordered.persistChunk (hid : file.id = x.nextFileId) : Ordered cfg n k rows attributed
      { x with nextFileId := x.nextFileId + 1, persisted := x.persisted ++ [(chunk, file)] } := by
  refine { h with
    periods := ⟨h.periods.increasing, h.periods.below, h.periods.snapshot, h.periods.number⟩
    files := fun f hf => { h.files f hf with id := Nat.lt_succ_of_lt (h.files f hf).id }
    ids := fun job hjob => ?_
    frozen := ?_ }
  · rcases mem_snoc.mp hjob with hjob | rfl
    · exact Nat.lt_succ_of_lt (h.ids job hjob)
    · rw [hid]
      exact Nat.lt_succ_self _
  · intro c hc hk f hf p hp q hq hrow
    obtain ⟨hwritten, hw, hjobs⟩ := h.frozen c hc hk f hf p hp q hq hrow
    refine ⟨hwritten, hw, fun g hg => ?_⟩
    rcases mem_snoc.mp hg with hg | hg
    · exact hjobs g hg
    · cases hg
      exact hid ▸ (h.files f hf).id

end

private theorem Frozen.apart_of_mem_erase {chunks : List SnapshotChunk} (h : Frozen cfg n chunks) {c c' : SnapshotChunk}
    (hc : c ∈ chunks) (hc' : c' ∈ chunks.erase c) (htable : c.table = c'.table) : ¬ShareKey c.rows c'.rows := by
  have hsymm {c c' : SnapshotChunk} (hcc : c.table = c'.table → ¬ShareKey c.rows c'.rows)
      (htable : c'.table = c.table) :
      ¬ShareKey c'.rows c.rows := fun ⟨p, hp, q, hq, hrow⟩ => hcc htable.symm ⟨q, hq, p, hp, hrow.symm⟩
  have hperm := ((perm_cons_erase hc).pairwise_iff hsymm).mp h.apart
  exact (pairwise_cons.mp hperm).1 c' hc' htable

section
variable {m : PersistedSnapshot} (hfile : Node.IsFileOf cfg n contents m chunk file)
include hfile

private theorem Node.IsFileOf.rowsAt_eq : rowsAt contents file = lastOfKey chunk.rows := by
  rw [rowsAt, hfile.object, Option.getD_some]

private theorem Node.IsFileOf.mem_rows {p : Point} (hp : p ∈ rowsAt contents file) : p ∈ chunk.rows :=
  (pwFilter_sublist _).subset (hfile.rowsAt_eq ▸ hp)

private theorem Node.IsFileOf.named (hk : k = chunk.table) : Named cfg n k file m.walFileSequenceNumber :=
  ⟨chunk.chunkOrdinal, by rw [hfile.path, hfile.chunkTime, hk]; rfl⟩

variable (h : Ordered cfg n k (rowsAt contents) attributed x) (hm : x.snapshot = some m)
  (hchunk : chunk ∈ x.snapshotting) (hk : k = chunk.table)
include h hm hchunk hk

private theorem Node.IsFileOf.filed (hfrozen : Frozen cfg n x.snapshotting) (hjob : (chunk, file) ∈ x.persisted) :
    Filed cfg n k x (rowsAt contents file) file where
  named := ⟨_, hfile.named hk, h.periods.snapshot m hm⟩
  windows p hp := ((hfrozen.valid chunk hchunk).rows p (hfile.mem_rows hp)).2.1.trans hfile.chunkTime.symm
  keys := hfile.rowsAt_eq ▸ nodup_lastOfKey _
  written p hp := h.written chunk hchunk p (hfile.mem_rows hp)
  id := h.ids _ hjob
  live b hb hk' p hp := h.live b hb hk' chunk hchunk hk.symm p (hfile.mem_rows hp)

private theorem Node.IsFileOf.earlier (hjob : (chunk, file) ∈ x.persisted) (hf : f ∈ x.persistedFiles.files k) :
    Earlier cfg n k (rowsAt contents) x.walFileNumber f file := by
  intro p hp q hq hrow
  obtain ⟨hwritten, ⟨w, hw, hlt⟩, hid⟩ := h.frozen chunk hchunk hk.symm f hf p hp q (hfile.mem_rows hq) hrow
  exact ⟨hwritten, hid file hjob, w, _, hw, hfile.named hk, hlt m hm, (h.periods.snapshot m hm).1⟩

/-- What was handed over in the snapshot before shares no key with the chunks that are left. -/
private theorem Node.IsFileOf.apart (hf : attributed f m.snapshotSequenceNumber) :
    ¬ShareKey (rowsAt contents f) (rowsAt contents file) := by
  rintro ⟨p, hp, r, hr, hrow⟩
  rcases h.attributed_snapshot m hm f _ hf with hlt | ⟨-, hnone⟩
  · omega
  · exact hnone chunk hchunk hk.symm ⟨p, hp, r, hfile.mem_rows hr, hrow⟩

end

private theorem Ordered.handOver
    (h : Ordered cfg n k (rowsAt contents) attributed x) (hwf : x.WellFormed cfg n contents)
    (hjob : (chunk, file) ∈ x.persisted) (hattributed : ∀ f q, attributed' f q → attributed f q ∨
      chunk.table = k ∧ f = file ∧ ∃ m, x.snapshot = some m ∧ q = m.snapshotSequenceNumber) :
    Ordered cfg n k (rowsAt contents) attributed' (x.handOver chunk file) := by
  obtain ⟨hchunk, m, hm, hfile⟩ := hwf.jobs _ hjob
  have hmem {c : SnapshotChunk} (hc : c ∈ x.snapshotting.erase chunk) : c ∈ x.snapshotting := mem_of_mem_erase hc
  have hlisted {f : ParquetFile} (hf : f ∈ (x.handOver chunk file).persistedFiles.files k) :
      f ∈ x.persistedFiles.files k ∨ k = chunk.table ∧ f = file := mem_addPersistedFile hf
  have hsnapshot {m' : PersistedSnapshot} (hm' : (x.handOver chunk file).snapshot = some m') :
      m'.walFileSequenceNumber = m.walFileSequenceNumber ∧ m'.snapshotSequenceNumber = m.snapshotSequenceNumber := by
    obtain ⟨m₀, hm₀, rfl⟩ := map_eq_some_iff.mp hm'
    obtain rfl := some.inj (hm.symm.trans hm₀)
    exact ⟨rfl, rfl⟩
  have hapart {c : SnapshotChunk} (hc : c ∈ x.snapshotting.erase chunk) (hk : k = chunk.table) (hk' : c.table = k) :
      ¬ShareKey (rowsAt contents file) c.rows := by
    rintro ⟨p, hp, q, hq, hrow⟩
    exact hwf.frozen.apart_of_mem_erase hchunk hc (hk.symm.trans hk'.symm) ⟨p, hfile.mem_rows hp, q, hq, hrow⟩
  have hnew {f : ParquetFile} {q : Nat} (hf : attributed' f q) : attributed f q ∨
      k = chunk.table ∧ f = file ∧ q = m.snapshotSequenceNumber := by
    refine (hattributed f q hf).imp id ?_
    rintro ⟨hk, hfile, m', hm', hq⟩
    refine ⟨hk.symm, hfile, ?_⟩
    rw [hq, some.inj (hm.symm.trans hm')]
  refine {
    periods := ⟨h.periods.increasing, h.periods.below, fun m' hm' => ?_, fun m' hm' => ?_⟩
    applying := h.applying
    files := fun f hf => ?_
    written := fun c hc => h.written c (hmem hc)
    ids := fun job hjob => h.ids job (mem_of_mem_erase hjob)
    live := fun b hb hk c hc => h.live b hb hk c (hmem hc)
    frozen := fun c hc hk f hf => ?_
    order := ?_
    attributed_listed := fun f q hf => ?_
    attributed_snapshot := fun m' hm' f q hf => ?_
    attributed_order := fun f q g q' hf hg hlt => ?_
    attributed_apart := fun f q g hf hg hne => ?_ }
  · exact (hsnapshot hm').1 ▸ h.periods.snapshot m hm
  · exact (hsnapshot hm').2 ▸ h.periods.number m hm
  · rcases hlisted hf with hf | ⟨hk, rfl⟩
    · exact { h.files f hf with }
    · exact { hfile.filed h hm hchunk hk hwf.frozen hjob with }
  · rcases hlisted hf with hf | ⟨hk', rfl⟩
    · intro p hp q hq hrow
      obtain ⟨hwritten, ⟨w, hw, hlt⟩, hid⟩ := h.frozen c (hmem hc) hk f hf p hp q hq hrow
      exact ⟨hwritten, ⟨w, hw, fun m' hm' => (hsnapshot hm').1 ▸ hlt m hm⟩,
        fun g hg => hid g (mem_of_mem_erase hg)⟩
    · exact fun p hp q hq hrow => absurd ⟨p, hp, q, hq, hrow⟩ (hapart hc hk' hk)
  · rcases files_addPersistedFile x.persistedFiles chunk.table k file with heq | ⟨hk, heq⟩
    · exact heq.symm ▸ h.order
    · refine heq.symm ▸ pairwise_append.mpr ⟨h.order, pairwise_singleton _ _, fun f hf g hg => ?_⟩
      exact mem_singleton.mp hg ▸ hfile.earlier h hm hchunk hk hjob hf
  · rcases hnew hf with hf | ⟨rfl, rfl, rfl⟩
    · exact ⟨mem_addPersistedFile_of_mem (h.attributed_listed f q hf).1, (h.attributed_listed f q hf).2⟩
    · exact ⟨mem_addPersistedFile_self _ _ _, h.periods.number m hm⟩
  · rw [(hsnapshot hm').2]
    rcases hnew hf with hf | ⟨hk, rfl, rfl⟩
    · exact (h.attributed_snapshot m hm f q hf).imp id (.imp_right fun hnone c hc => hnone c (hmem hc))
    · exact .inr ⟨rfl, fun c hc hk' => hapart hc hk hk'⟩
  · rcases hnew hf with hf | ⟨hk, rfl, rfl⟩ <;> rcases hnew hg with hg | ⟨hk', rfl, rfl⟩
    · exact h.attributed_order f q g q' hf hg hlt
    · have hearlier := hfile.earlier h hm hchunk hk' hjob (h.attributed_listed f q hf).1
      exact hearlier
    · rcases h.attributed_snapshot m hm g q' hg with hq | ⟨hq, -⟩ <;> omega
    · omega
  · rcases hnew hf with hf | ⟨hk, rfl, rfl⟩ <;> rcases hnew hg with hg | ⟨hk', rfl, hq⟩
    · exact h.attributed_apart f q g hf hg hne
    · exact hfile.apart h hm hchunk hk' (hq ▸ hf)
    · exact fun ⟨p, hp, r, hr, hrow⟩ => hfile.apart h hm hchunk hk hg ⟨r, hr, p, hp, hrow.symm⟩
    · exact absurd rfl hne

theorem Ordered.frame (h : Ordered cfg n k rows attributed x) {tracker : Wal.SnapshotTracker}
    {snapshot : Option PersistedSnapshot} {persistedFiles : PersistedFiles} {nextFileId : Nat}
    {applying : List Applying} {durable : List PersistedSnapshot} (hperiods : tracker.walPeriods = x.tracker.walPeriods)
    (hlast : x.tracker.lastSnapshotSequenceNumber ≤ tracker.lastSnapshotSequenceNumber)
    (hsnapshot : ∀ m, snapshot = some m → x.snapshot = some m)
    (hfiles : persistedFiles.files k = x.persistedFiles.files k)
    (hnext : x.nextFileId ≤ nextFileId) (happlying : ∀ d ∈ applying, d.table ≠ k) : Ordered cfg n k rows attributed
      { x with tracker, snapshot, persistedFiles, nextFileId, applying, durable } where
  periods :=
    { increasing := hperiods ▸ h.periods.increasing
      below := hperiods ▸ h.periods.below
      snapshot := fun m hm => hperiods ▸ h.periods.snapshot m (hsnapshot m hm)
      number := fun m hm => (h.periods.number m (hsnapshot m hm)).trans hlast }
  applying := happlying
  files f hf := by
    have hfiled := h.files f (hfiles ▸ hf)
    exact { hfiled with named := hperiods ▸ hfiled.named, id := hfiled.id.trans_le hnext }
  written := h.written
  ids job hjob := (h.ids job hjob).trans_le hnext
  live := h.live
  frozen c hc hk f hf p hp q hq hrow := by
    obtain ⟨hwritten, ⟨w, hw, hlt⟩, hid⟩ := h.frozen c hc hk f (hfiles ▸ hf) p hp q hq hrow
    exact ⟨hwritten, ⟨w, hw, fun m hm => hlt m (hsnapshot m hm)⟩, hid⟩
  order := hfiles ▸ h.order
  attributed_listed f q hf := ⟨hfiles ▸ (h.attributed_listed f q hf).1, (h.attributed_listed f q hf).2.trans hlast⟩
  attributed_snapshot m hm := h.attributed_snapshot m (hsnapshot m hm)
  attributed_order := h.attributed_order
  attributed_apart := h.attributed_apart

end

def State.Attributed (s : State) (n : String) (k : TableKey) (f : ParquetFile) (q : Nat) : Prop :=
  (∃ m ∈ (s.nodes n).manifests, m.snapshotSequenceNumber = q ∧ f ∈ m.addedTo k) ∨
    ∃ entry ∈ s.log, ∃ d ∈ entry.deltas, Adds d n k f ∧ d.snapshotSequence = q

namespace State
variable {cfg : Config} {s s' : State} {n : String} {k : TableKey} {e : Effect} {a : NodeAction}

private theorem attributed_after (hstepped : Node.Stepped cfg n s.log s.contents (s.nodes n) a e)
    (happlying : ∀ d ∈ (s.nodes n).applying, d.table ≠ k) (hf : (s.after n e).Attributed n k f q) :
    s.Attributed n k f q ∨ ∃ c, a = .handOver c ∧ c.table = k ∧ (c, f) ∈ (s.nodes n).persisted ∧
        ∃ m, (s.nodes n).snapshot = some m ∧ q = m.snapshotSequenceNumber := by
  rcases hf with ⟨m, hm, rfl, hf⟩ | ⟨entry, hentry, d, hd, hadds, rfl⟩
  · have hm : m ∈ e.node.manifests := by simpa [after] using hm
    rcases Node.mem_manifests_of_stepped hstepped hm with hm | ⟨-, hnone⟩ | ⟨m₀, c, file, rfl, hm₀, hjob, rfl⟩ |
      ⟨-, d, hd, hadded⟩
    · exact .inl (.inl ⟨m, hm, rfl, hf⟩)
    · exact absurd hf (by simp [(hnone k).1])
    · rw [PersistedSnapshot.addedTo_addParquetFile] at hf
      rcases mem_append.mp hf with hf | hf
      · exact .inl (.inl ⟨m₀, Node.mem_manifests.mpr (.inl hm₀), rfl, hf⟩)
      · split at hf
        · rename_i htable
          exact .inr ⟨c, rfl, htable, mem_singleton.mp hf ▸ hjob, m₀, hm₀, rfl⟩
        · cases hf
    · exact absurd hf (by simp [(hadded k).1, happlying d hd])
  · left
    rcases delta_after hstepped hentry hd with hentry | ⟨m, hm, hdm⟩
    · exact .inr ⟨entry, hentry, d, hd, hadds, rfl⟩
    · exact .inl ⟨m, Node.mem_manifests.mpr (.inr (.inr hm)), (snapshotSequence_of_mem hdm).1.symm,
        (mem_addedTo_of_adds hdm hadds).2⟩

private theorem Recorded.attributed_after_of_ne (h : Recorded cfg s) {n' : String} (hne : n' ≠ n)
    (hstepped : Node.Stepped cfg n' s.log s.contents (s.nodes n') a e)
    (hf : (s.after n' e).Attributed n k f q) : s.Attributed n k f q := by
  rcases hf with ⟨m, hm, hf⟩ | ⟨entry, hentry, d, hd, hadds, rfl⟩
  · exact .inl ⟨m, by simpa [after, hne.symm] using hm, hf⟩
  · rcases delta_after hstepped hentry hd with hentry | ⟨m, hm, hdm⟩
    · exact .inr ⟨entry, hentry, d, hd, hadds, rfl⟩
    · have howned := (h.nodes n').owned m (Node.mem_manifests.mpr (.inr (.inr hm)))
      exact absurd (howned.symm.trans (mem_addedTo_of_adds hdm hadds).1) hne

structure InWriteOrder (cfg : Config) (n : String) (k : TableKey) (s : State) : Prop where
  recorded : s.Recorded cfg
  ordered : Ordered cfg n k (rowsAt s.contents) (s.Attributed n k) (s.nodes n)

private theorem files_applyMerge {x : Node} {k' : TableKey} {merged : ParquetFile} {paths : List String} (hk : k' ≠ k) :
    (x.applyMerge k' merged paths).persistedFiles.files k = x.persistedFiles.files k := by
  simp only [Node.applyMerge, applyCompaction, foldl_cons, foldl_nil,
    removeFilesByPath, addCompactedFile]
  split <;> simp [hk.symm]

private theorem InWriteOrder.own_step (h : InWriteOrder cfg n k s)
    (hstepped : Node.Stepped cfg n s.log s.contents (s.nodes n) a e) (hspares : Spares n k s (n, a)) :
    Ordered cfg n k (rowsAt s.contents) ((s.after n e).Attributed n k) e.node := by
  have hord := h.ordered
  have hwf := h.recorded.nodes n
  have hatt {f : ParquetFile} {q : Nat} (hf : (s.after n e).Attributed n k f q) :=
    attributed_after hstepped hord.applying hf
  have hold (hmove : ∀ c, a ≠ .handOver c) (f : ParquetFile) (q : Nat) (hf : (s.after n e).Attributed n k f q) :
      s.Attributed n k f q := (hatt hf).resolve_right fun ⟨c, hc, _⟩ => hmove c hc
  have hframe {x' : Node} (hmove : ∀ c, a ≠ .handOver c)
      (hx' : Ordered cfg n k (rowsAt s.contents) (s.Attributed n k) x') :
      Ordered cfg n k (rowsAt s.contents) ((s.after n e).Attributed n k) x' := hx'.attribute (hold hmove)
  cases hstepped with
  | write => exact hframe nofun (hord.flushed _ _)
  | @freeze written force now details tracker hfree hdue =>
    have hidle := eq_nil_iff_forall_not_mem.mpr fun job hjob =>
      not_mem_nil (hwf.idle hfree ▸ (hwf.jobs job hjob).1)
    exact hframe nofun ((hord.flushed written now).freeze hidle (hwf.buffered.foldl written) hdue)
  | persistChunk => exact hframe nofun (hord.persistChunk rfl)
  | @handOver chunk file hjob =>
    refine hord.handOver hwf hjob fun f q hf => (hatt hf).imp id ?_
    rintro ⟨c, ⟨⟩, htable, hjob', m, hm⟩
    have hfile := congrArg Prod.snd (inj_on_of_nodup_map hwf.once hjob' hjob rfl)
    exact ⟨htable, hfile, m, hm⟩
  | persistSnapshot hm hdone =>
    exact hframe nofun (hord.frame rfl le_rfl nofun rfl le_rfl hord.applying)
  | @compact position coldBefore config group path sizeBytes =>
    have hk : Node.table group ≠ k := hspares rfl
    refine hframe nofun (hord.frame rfl le_rfl (fun _ h => h) (files_applyMerge hk) (Nat.le_succ _)
      fun d hd => ?_)
    rcases Node.mem_applyMerge hd with hd | ⟨htable, -⟩
    · exact hord.applying d hd
    · exact htable ▸ hk
  | reserve =>
    refine hframe nofun (hord.frame rfl (Nat.le_succ _) (fun _ h => h) rfl le_rfl fun d hd => ?_)
    obtain ⟨d₀, hd₀, rfl⟩ := mem_map.mp hd
    split <;> exact hord.applying d₀ hd₀
  | persistCompaction =>
    exact hframe nofun (hord.frame rfl le_rfl (fun _ h => h) rfl le_rfl
      fun d hd => hord.applying d (mem_of_mem_filter hd))
  | publish => exact hframe nofun hord

theorem InWriteOrder.step {a : String × NodeAction} (h : InWriteOrder cfg n k s) (hspares : Spares n k s a)
    (hstep : s.step cfg a = some s') : InWriteOrder cfg n k s' := by
  refine ⟨h.recorded.step hstep, ?_⟩
  obtain ⟨e, hstepped, rfl⟩ := stepped_of_step hstep
  obtain ⟨n', action⟩ := a
  have hrows {f : ParquetFile} (hf : f ∈ (s.nodes n).persistedFiles.files k) :
      rowsAt (s.after n' e).contents f = rowsAt s.contents f :=
    rowsAt_eq (extends_after hstepped) (h.recorded.stored n k f (.inl (.listed hf))).object
  by_cases hn : n' = n
  · subst hn
    have hord := h.own_step hstepped hspares
    have hnode : (s.after n' e).nodes n' = e.node := by simp [after]
    rw [hnode]
    refine hord.congr fun f hf => ?_
    cases hstepped with
    | persistChunk => exact hrows hf
    | compact => exact hrows (files_applyMerge (hspares rfl) ▸ hf)
    | _ => rfl
  · have hnode : (s.after n' e).nodes n = s.nodes n := by simp [after, Ne.symm hn]
    rw [hnode]
    exact (h.ordered.attribute fun f q => h.recorded.attributed_after_of_ne hn hstepped).congr fun f hf => hrows hf

theorem InWriteOrder.empty (cfg : Config) (n : String) (k : TableKey) : InWriteOrder cfg n k .empty := by
  have hatt {f : ParquetFile} {q : Nat} : ¬State.empty.Attributed n k f q := by
    rintro (⟨m, hm, -⟩ | ⟨entry, hentry, -⟩)
    · cases hm
    · cases hentry
  exact ⟨.empty cfg, {
    periods := ⟨.nil, nofun, nofun, nofun⟩
    applying := nofun
    files := nofun
    written := nofun
    ids := nofun
    live := nofun
    frozen := nofun
    order := .nil
    attributed_listed := fun _ _ h => absurd h hatt
    attributed_snapshot := nofun
    attributed_order := fun _ _ _ _ h => absurd h hatt
    attributed_apart := fun _ _ _ h => absurd h hatt }⟩

end State
end VarveDB.Cluster
