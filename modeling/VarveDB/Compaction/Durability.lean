import VarveDB.Compaction.Apply

/-! When an acknowledged compaction is durably recorded. -/
namespace VarveDB.Compaction
open Library Runs PersistedFiles PersistedSnapshot List Process

/-- A durable manifest adds the merged file, and the files rebuilt from the manifests name
none of the paths it replaces. -/
def Recorded (durable : List PersistedSnapshot) (notice : CompactionNotice) : Prop :=
  (∃ m ∈ durable, ∃ f ∈ m.addedTo notice.table, f.path = notice.mergedPath) ∧
  ∀ f ∈ (newFromPersistedSnapshots durable).files notice.table, f.path ∉ notice.removedPaths

def AcknowledgedRecorded (s : Node) : Prop := ∀ notice ∈ s.acknowledged, Recorded s.durable notice

/-- A manifest's allocator position lies beyond every id of the manifests numbered up to it. -/
def NextIdsAbove (durable : List PersistedSnapshot) : Prop :=
  ∀ m ∈ durable, ∀ d ∈ durable, d.snapshotSequenceNumber ≤ m.snapshotSequenceNumber →
    ∀ id, d.Mentions id → id < m.nextFileId

structure Initial (s : Node) : Prop where
  consistent : Consistent s.durable
  nextIds : NextIdsAbove s.durable
  stopped : s.process = none
  delivered : s.delivered = []
  acknowledged : s.acknowledged = []

/-- No delivery in progress writes a path this notice replaces, the file list and the manifests agree on its files,
and no notice so far replaces the merged path. -/
def Settled (s : Node) (p : Process) (notice : CompactionNotice) : Prop :=
  (∀ c ∈ p.deliveries.entries, c.notice.table = notice.table → c.notice.mergedPath ∉ notice.removedPaths) ∧
  (∀ f ∈ p.persistedFiles.files notice.table, f.path ∈ notice.mergedPath :: notice.removedPaths →
    f ∈ (newFromPersistedSnapshots s.durable).files notice.table) ∧
  (∀ f ∈ (newFromPersistedSnapshots s.durable).files notice.table, f.path ∈ notice.mergedPath :: notice.removedPaths →
    f ∈ p.persistedFiles.files notice.table) ∧
  ∀ y ∈ s.delivered ++ [notice], y.table = notice.table → notice.mergedPath ∉ y.removedPaths

instance (s : Node) (p : Process) (notice : CompactionNotice) : Decidable (Settled s p notice) :=
  inferInstanceAs (Decidable (_ ∧ _ ∧ _ ∧ _))

def Safe (s : Node) : Action → Prop
  | .deliver notice => notice.nodeId = s.nodeId → ∀ p ∈ s.process, Settled s p notice
  | _ => True

instance (s : Node) (a : Action) : Decidable (Safe s a) := by
  cases a <;> dsimp only [Safe] <;> infer_instance

structure DeliveryOk (durable : List PersistedSnapshot) (delivered : List CompactionNotice)
    (counter nextFileId : Nat) (c : Delivery) : Prop where
  known : c.notice ∈ delivered
  separate : ∀ y ∈ delivered, y.table = c.notice.table → c.notice.mergedPath ∉ y.removedPaths
  covers : ∀ f ∈ (newFromPersistedSnapshots durable).files c.notice.table,
    f.path ∈ c.notice.removedPaths → f ∈ c.removed
  source : ∀ f ∈ c.removed, ∃ d ∈ durable, f ∈ d.addedTo c.notice.table ∧
    ∀ q ∈ c.sequence, d.snapshotSequenceNumber < q
  minted : c.mergedId < nextFileId
  fresh : ∀ d ∈ durable, ¬ d.Mentions c.mergedId
  reserved : ∀ q ∈ c.sequence, q ≤ counter ∧ (∀ d ∈ durable, d.snapshotSequenceNumber ≠ q) ∧
    ∀ d ∈ durable, q < d.snapshotSequenceNumber → c.mergedId < d.nextFileId
  manifest : ∀ m, c.stage = .persisting m →
    (∃ nodeId wal catalog, m = compactionSnapshot nodeId m.snapshotSequenceNumber wal catalog m.nextFileId
      c.notice.table c.merged c.removed) ∧ c.mergedId < m.nextFileId ∧
    ∀ d ∈ durable, d.snapshotSequenceNumber < m.snapshotSequenceNumber → ∀ id, d.Mentions id → id < m.nextFileId

def Apart (c c' : Delivery) : Prop :=
  (∀ q ∈ c.sequence, q ∉ c'.sequence) ∧
  ∀ m, c'.stage = .persisting m → ∀ q ∈ c.sequence, q < m.snapshotSequenceNumber → c.mergedId < m.nextFileId

structure ProcessOk (s : Node) (p : Process) : Prop where
  counter : ∀ d ∈ s.durable, d.snapshotSequenceNumber ≤ p.lastSnapshotSequenceNumber
  nextId : ∀ d ∈ s.durable, ∀ id, d.Mentions id → id < p.nextFileId
  deliveries : ∀ c ∈ p.deliveries, DeliveryOk s.durable s.delivered p.lastSnapshotSequenceNumber p.nextFileId c
  apart : ∀ c ∈ p.deliveries, ∀ c' ∈ p.deliveries, c.mergedId ≠ c'.mergedId → Apart c c'

structure Invariant (s : Node) : Prop where
  consistent : Consistent s.durable
  nextIds : NextIdsAbove s.durable
  process : ∀ p ∈ s.process, ProcessOk s p
  known : ∀ notice ∈ s.acknowledged, notice ∈ s.delivered
  recorded : AcknowledgedRecorded s

theorem Invariant.withProcess {s : Node} {p : Process} (h : Invariant s) (hp : ProcessOk s p) :
    Invariant { s with process := some p } := by
  refine { h with process := ?_ }
  rintro _ ⟨⟩
  exact { hp with }

theorem Initial.invariant {s : Node} (h : Initial s) : Invariant s :=
  ⟨h.consistent, h.nextIds, by simp [h.stopped], by simp [h.acknowledged],
    by simp [AcknowledgedRecorded, h.acknowledged]⟩

private theorem applyCompaction_single (inner : PersistedFiles) (k : TableKey) (merged : ParquetFile)
    {paths : List String} (h : merged.path ∉ paths) :
    ((inner.applyCompaction k [merged] paths).1 = 0 ↔ ∃ f ∈ inner.files k, f.path = merged.path) ∧
    (inner.applyCompaction k [merged] paths).2.1 = (inner.files k).filter fun f => f.path ∈ paths := by
  by_cases hany : (inner.files k).any (fun f => f.path = merged.path) = true
  · simp only [applyCompaction, foldl_cons, foldl_nil, addCompactedFile, hany, if_true,
      removeFilesByPath, Bool.false_eq_true, if_false, true_iff, and_true]
    simpa using hany
  · simp only [applyCompaction, foldl_cons, foldl_nil, addCompactedFile, hany, removeFilesByPath]
    exact ⟨by simpa using hany, by simp [h]⟩

section Persist
variable {durable : List PersistedSnapshot} {delivered : List CompactionNotice} {counter nextFileId : Nat}
  {c : Delivery} {m : PersistedSnapshot} (hdurable : Consistent durable)
  (hc : DeliveryOk durable delivered counter nextFileId c) (hstage : c.stage = .persisting m)
include hc hstage

omit hc in
theorem sequence_mem : m.snapshotSequenceNumber ∈ c.sequence := by simp [Delivery.sequence, hstage]

theorem manifest_added (k : TableKey) : m.addedTo k = if c.notice.table = k then [c.merged] else [] := by
  obtain ⟨⟨nodeId, wal, catalog, hm⟩, -⟩ := hc.manifest m hstage
  rw [hm, addedTo_compactionSnapshot]

theorem manifest_removed (k : TableKey) : m.removedFrom k = if c.notice.table = k then c.removed else [] := by
  obtain ⟨⟨nodeId, wal, catalog, hm⟩, -⟩ := hc.manifest m hstage
  rw [hm, removedFrom_compactionSnapshot]

theorem manifest_mentions {id : Nat} (h : m.Mentions id) : id = c.mergedId ∨
    ∃ d ∈ durable, d.snapshotSequenceNumber < m.snapshotSequenceNumber ∧ d.Mentions id := by
  obtain ⟨k, ⟨f, hf, rfl⟩ | ⟨f, hf, rfl⟩⟩ := h
  · rw [manifest_added hc hstage, mem_ite_nil_right, mem_singleton] at hf
    exact .inl (congrArg ParquetFile.id hf.2)
  · rw [manifest_removed hc hstage, mem_ite_nil_right] at hf
    obtain ⟨d, hd, hfd, hlt⟩ := hc.source f hf.2
    exact .inr ⟨d, hd, hlt _ (sequence_mem hstage), mentions_added hfd⟩

theorem manifest_fresh : ∀ d ∈ durable, d.snapshotSequenceNumber ≠ m.snapshotSequenceNumber :=
  (hc.reserved _ (sequence_mem hstage)).2.1

include hdurable

theorem consistent_append : Consistent (durable ++ [m]) := by
  refine hdurable.append (manifest_fresh hc hstage) (fun k => ?_) (fun k f hf d hd => ?_) (fun k f hf => ?_)
  · rw [manifest_added hc hstage]
    split <;> simp
  · rw [manifest_added hc hstage, mem_ite_nil_right, mem_singleton] at hf
    exact hf.2 ▸ hc.fresh d hd
  · rw [manifest_removed hc hstage, mem_ite_nil_right] at hf
    obtain ⟨d, hd, hfd, hlt⟩ := hc.source f hf.2
    exact ⟨d, hd, hf.1 ▸ hfd, hlt _ (sequence_mem hstage)⟩

omit hdurable in
private theorem nextIds_append (hnext : NextIdsAbove durable) : NextIdsAbove (durable ++ [m]) := by
  obtain ⟨-, hown, hbelow⟩ := hc.manifest m hstage
  simp only [NextIdsAbove, mem_append, mem_singleton]
  rintro a (ha | rfl) d (hd | rfl) hle id hid
  · exact hnext a ha d hd hle id hid
  · have hne := manifest_fresh hc hstage a ha
    rcases manifest_mentions hc hstage hid with rfl | ⟨b, hb, hlt, hbid⟩
    · exact (hc.reserved _ (sequence_mem hstage)).2.2 a ha (by omega)
    · exact hnext a ha b hb (by omega) id hbid
  · exact hbelow d hd (lt_of_le_of_ne hle (manifest_fresh hc hstage d hd)) id hid
  · rcases manifest_mentions hc hstage hid with rfl | ⟨b, hb, hlt, hbid⟩
    · exact hown
    · exact hbelow b hb hlt id hbid

theorem rebuilt_append {k : TableKey} {f : ParquetFile}
    (hf : f ∈ (newFromPersistedSnapshots (durable ++ [m])).files k) :
    f ∈ (newFromPersistedSnapshots durable).files k ∨ k = c.notice.table ∧ f.path = c.notice.mergedPath := by
  refine (mem_newFromPersistedSnapshots_append hdurable (consistent_append hdurable hc hstage) hf).1.imp_right ?_
  intro hadd
  rw [manifest_added hc hstage, mem_ite_nil_right, mem_singleton] at hadd
  exact ⟨hadd.1.symm, congrArg ParquetFile.path hadd.2⟩

private theorem recorded_append {notice : CompactionNotice} (hknown : notice ∈ delivered)
    (h : Recorded durable notice) : Recorded (durable ++ [m]) notice := by
  obtain ⟨⟨a, ha, hadd⟩, hgone⟩ := h
  refine ⟨⟨a, mem_append_left _ ha, hadd⟩, fun f hf hpath => ?_⟩
  rcases rebuilt_append hdurable hc hstage hf with hf | ⟨htable, hmerged⟩
  · exact hgone f hf hpath
  · exact hc.separate notice hknown htable (hmerged ▸ hpath)

private theorem recorded_self : Recorded (durable ++ [m]) c.notice := by
  refine ⟨⟨m, by simp, c.merged, by simp [manifest_added hc hstage], rfl⟩, fun f hf hpath => ?_⟩
  have hkept := (mem_newFromPersistedSnapshots_append hdurable (consistent_append hdurable hc hstage) hf).2
  rcases rebuilt_append hdurable hc hstage hf with hold | ⟨-, hmerged⟩
  · refine hkept (mem_map_of_mem ?_)
    rw [manifest_removed hc hstage, if_pos rfl]
    exact hc.covers f hold hpath
  · exact hc.separate c.notice hc.known rfl (hmerged ▸ hpath)

private theorem other_append {c' : Delivery} (hc' : DeliveryOk durable delivered counter nextFileId c')
    (hne : c'.mergedId ≠ c.mergedId) (hapart : Apart c c') (hapart' : Apart c' c) :
    DeliveryOk (durable ++ [m]) delivered counter nextFileId c' where
  known := hc'.known
  separate := hc'.separate
  covers f hf hpath := by
    rcases rebuilt_append hdurable hc hstage hf with hf | ⟨htable, hmerged⟩
    · exact hc'.covers f hf hpath
    · exact absurd (hmerged ▸ hpath) (hc.separate c'.notice hc'.known htable)
  source f hf := by
    obtain ⟨d, hd, hrest⟩ := hc'.source f hf
    exact ⟨d, mem_append_left _ hd, hrest⟩
  minted := hc'.minted
  fresh := by
    simp only [mem_append, mem_singleton]
    rintro d (hd | rfl) hid
    · exact hc'.fresh d hd hid
    · rcases manifest_mentions hc hstage hid with heq | ⟨b, hb, -, hbid⟩
      · exact hne heq
      · exact hc'.fresh b hb hbid
  reserved q hq := by
    obtain ⟨hle, hneq, hnext⟩ := hc'.reserved q hq
    refine ⟨hle, ?_, ?_⟩ <;> simp only [mem_append, mem_singleton]
    · rintro d (hd | rfl) heq
      · exact hneq d hd heq
      · exact hapart'.1 q hq (heq ▸ sequence_mem hstage)
    · rintro d (hd | rfl) hlt
      · exact hnext d hd hlt
      · exact hapart'.2 d hstage q hq hlt
  manifest m' hm' := by
    obtain ⟨hform, hown, hbelow⟩ := hc'.manifest m' hm'
    refine ⟨hform, hown, ?_⟩
    simp only [mem_append, mem_singleton]
    rintro d (hd | rfl) hlt id hid
    · exact hbelow d hd hlt id hid
    · rcases manifest_mentions hc hstage hid with rfl | ⟨b, hb, hblt, hbid⟩
      · exact hapart.2 m' hm' _ (sequence_mem hstage) hlt
      · exact hbelow b hb (hblt.trans hlt) id hbid

end Persist

section Steps
variable {s : Node} {p : Process} {c : Delivery} {m : PersistedSnapshot}

theorem ProcessOk.finish (h : ProcessOk s p) (id : Nat) : ProcessOk s (p.finish id) :=
  ⟨h.counter, h.nextId, fun c hc => h.deliveries c (mem_finish.mp hc).1,
    fun c hc c' hc' hne => h.apart c (mem_finish.mp hc).1 c' (mem_finish.mp hc').1 hne⟩

private theorem finish_append (hs : Consistent s.durable) (h : ProcessOk s p)
    (hc : c ∈ p.deliveries) (hstage : c.stage = .persisting m) :
    ProcessOk { s with durable := s.durable ++ [m] } (p.finish c.mergedId) := by
  have hok := h.deliveries c hc
  refine ⟨?_, ?_, fun c' hc' => ?_, (h.finish c.mergedId).apart⟩
  · exact forall_mem_snoc.mpr ⟨h.counter, (hok.reserved _ (sequence_mem hstage)).1⟩
  · simp only [mem_append, mem_singleton]
    rintro d (hd | rfl) id hid
    · exact h.nextId d hd id hid
    · rcases manifest_mentions hok hstage hid with rfl | ⟨b, hb, -, hbid⟩
      · exact hok.minted
      · exact h.nextId b hb id hbid
  · obtain ⟨hc', hne⟩ := mem_finish.mp hc'
    exact other_append hs hok hstage (h.deliveries c' hc') hne (h.apart c hc c' hc' (Ne.symm hne))
      (h.apart c' hc' c hc hne)

theorem persist_ok (h : Invariant s) (hp : p ∈ s.process)
    (hc : c ∈ p.deliveries) (hstage : c.stage = .persisting m) (result : PutResult) :
    Invariant (s.persist p c m result) := by
  have hproc := h.process p hp
  have hok := hproc.deliveries c hc
  have hput : putSnapshot s.durable m = s.durable ++ [m] := by
    rw [putSnapshot, filter_eq_self.mpr fun d hd => by simpa using manifest_fresh hok hstage d hd]
  have hkept (notice : CompactionNotice) (hn : notice ∈ s.acknowledged) : Recorded (s.durable ++ [m]) notice :=
    recorded_append h.consistent hok hstage (h.known notice hn) (h.recorded notice hn)
  have hfinish := finish_append h.consistent hproc hc hstage
  cases result with
  | failed => exact h.withProcess (hproc.finish _)
  | unacknowledged =>
    simp only [Node.persist, hput]
    refine ⟨consistent_append h.consistent hok hstage, nextIds_append hok hstage h.nextIds, ?_, h.known, hkept⟩
    rintro _ ⟨⟩
    exact { hfinish with }
  | ok =>
    simp only [Node.persist, hput]
    refine ⟨consistent_append h.consistent hok hstage, nextIds_append hok hstage h.nextIds, ?_, ?_, ?_⟩
    · rintro _ ⟨⟩
      exact { hfinish with }
    · exact forall_mem_snoc.mpr ⟨h.known, hok.known⟩
    · exact forall_mem_snoc.mpr ⟨hkept, recorded_self h.consistent hok hstage⟩

/-- Moving a delivery on keeps a process in order if its new stage stands apart from the other deliveries. -/
theorem ProcessOk.advance {stage : Stage} (h : ProcessOk s p)
    (hok : DeliveryOk s.durable s.delivered p.lastSnapshotSequenceNumber p.nextFileId { c with stage := stage })
    (hapart : ∀ a ∈ p.deliveries, a.mergedId ≠ c.mergedId →
      Apart a { c with stage := stage } ∧ Apart { c with stage := stage } a) : ProcessOk s (p.advance c stage) := by
  refine ⟨h.counter, h.nextId, fun c' hc' => ?_, fun a ha b hb hne => ?_⟩
  · rcases mem_advance.mp hc' with ⟨hc', -⟩ | rfl
    · exact h.deliveries c' hc'
    · exact hok
  · rcases mem_advance.mp ha with ⟨ha, hane⟩ | rfl <;> rcases mem_advance.mp hb with ⟨hb, hbne⟩ | rfl
    · exact h.apart a ha b hb hne
    · exact (hapart a ha hane).1
    · exact (hapart b hb hbne).2
    · exact absurd rfl hne

theorem reserve_ok (h : ProcessOk s p) (hc : c ∈ p.deliveries) :
    ProcessOk s { p.advance c (.stamping (p.lastSnapshotSequenceNumber + 1)) with
      lastSnapshotSequenceNumber := p.lastSnapshotSequenceNumber + 1 } := by
  have hok := h.deliveries c hc
  have hcounted : ProcessOk s { p with lastSnapshotSequenceNumber := p.lastSnapshotSequenceNumber + 1 } := by
    refine { h with counter := fun d hd => (h.counter d hd).trans (Nat.le_succ _), deliveries := fun c' hc' => ?_ }
    have hok' := h.deliveries c' hc'
    exact { hok' with reserved := fun q hq => ⟨(hok'.reserved q hq).1.trans (Nat.le_succ _), (hok'.reserved q hq).2⟩ }
  refine hcounted.advance { hok with source := fun f hf => ?_, reserved := ?_, manifest := by simp } fun a ha _ => ?_
  · obtain ⟨d, hd, hfd, -⟩ := hok.source f hf
    refine ⟨d, hd, hfd, ?_⟩
    rintro _ ⟨⟩
    exact Nat.lt_succ_of_le (h.counter d hd)
  · rintro _ ⟨⟩
    refine ⟨le_rfl, fun d hd => ?_, fun d hd hlt => ?_⟩ <;> have := h.counter d hd <;> omega
  · have hbelow {q : Nat} (hq : q ∈ a.sequence) : q ≤ p.lastSnapshotSequenceNumber :=
      ((h.deliveries a ha).reserved q hq).1
    refine ⟨⟨fun q hq => ?_, by simp⟩, ?_, ?_⟩
    · rintro ⟨⟩
      exact absurd (hbelow hq) (by omega)
    · rintro _ ⟨⟩ hq
      exact absurd (hbelow hq) (by omega)
    · rintro m hm _ ⟨⟩ hlt
      exact absurd (hbelow (sequence_mem hm)) (by omega)

theorem stamp_ok {q : Nat} (catalog : Nat) (h : ProcessOk s p) (hc : c ∈ p.deliveries)
    (hstage : c.stage = .stamping q) :
    ProcessOk s (p.advance c (.persisting (compactionSnapshot s.nodeId q p.lastPersistedWalSequenceNumber
      catalog p.nextFileId c.notice.table c.merged c.removed))) := by
  have hok := h.deliveries c hc
  have hq : q ∈ c.sequence := by simp [Delivery.sequence, hstage]
  refine h.advance { hok with source := fun f hf => ?_, reserved := ?_, manifest := ?_ } fun a ha hne =>
    ⟨⟨?_, ?_⟩, ?_, ?_⟩
  · obtain ⟨d, hd, hfd, hlt⟩ := hok.source f hf
    refine ⟨d, hd, hfd, ?_⟩
    rintro _ ⟨⟩
    exact hlt q hq
  · rintro _ ⟨⟩
    exact hok.reserved q hq
  · rintro _ ⟨⟩
    exact ⟨⟨_, _, _, rfl⟩, hok.minted, fun d hd _ id hid => h.nextId d hd id hid⟩
  · rintro r hr ⟨⟩
    exact (h.apart a ha c hc hne).1 q hr hq
  · rintro _ ⟨⟩ _ _ _
    exact (h.deliveries a ha).minted
  · rintro _ ⟨⟩ hr
    exact (h.apart c hc a ha hne.symm).1 q hq hr
  · rintro m hm _ ⟨⟩ hlt
    exact (h.apart c hc a ha hne.symm).2 m hm q hq hlt

variable {notice : CompactionNotice}

private theorem deliver_others (h : ProcessOk s p) (hsettled : Settled s p notice) (hc : c ∈ p.deliveries) :
    DeliveryOk s.durable (s.delivered ++ [notice]) p.lastSnapshotSequenceNumber (p.nextFileId + 1) c := by
  have hok := h.deliveries c hc
  refine { hok with known := mem_append_left _ hok.known, separate := ?_,
                    minted := hok.minted.trans (Nat.lt_succ_self _) }
  exact forall_mem_snoc.mpr ⟨hok.separate, fun htable => hsettled.1 c hc htable.symm⟩

private theorem deliver_new (h : ProcessOk s p) (hs : Consistent s.durable) (hsettled : Settled s p notice) :
    DeliveryOk s.durable (s.delivered ++ [notice]) p.lastSnapshotSequenceNumber (p.nextFileId + 1)
      ⟨notice, p.nextFileId, (p.persistedFiles.files notice.table).filter fun f => f.path ∈ notice.removedPaths,
        .reserving⟩ := by
  obtain ⟨-, hdurable, hmemory, hmerged⟩ := hsettled
  refine ⟨by simp, hmerged, fun f hf hpath => ?_, fun f hf => ?_, Nat.lt_succ_self _, fun d hd hid => ?_,
    by simp [Delivery.sequence], by simp⟩
  · simp only [mem_filter, decide_eq_true_eq]
    exact ⟨hmemory f hf (mem_cons_of_mem _ hpath), hpath⟩
  · simp only [mem_filter, decide_eq_true_eq] at hf
    have hrebuilt := hdurable f hf.1 (mem_cons_of_mem _ hf.2)
    obtain ⟨⟨d, hd, hfd⟩, -⟩ := (mem_newFromPersistedSnapshots hs).mp hrebuilt
    exact ⟨d, hd, hfd, by simp [Delivery.sequence]⟩
  · exact absurd (h.nextId d hd _ hid) (Nat.lt_irrefl _)

/-- A notice that changes nothing in memory is already recorded, as memory and manifests agree on it. -/
theorem redelivered_recorded (hs : Consistent s.durable) (hsettled : Settled s p notice)
    (hmerged : ∃ f ∈ p.persistedFiles.files notice.table, f.path = notice.mergedPath)
    (hremoved : (p.persistedFiles.files notice.table).filter (fun f => f.path ∈ notice.removedPaths) = []) :
    Recorded s.durable notice := by
  obtain ⟨-, hdurable, hmemory, -⟩ := hsettled
  obtain ⟨f, hf, hpath⟩ := hmerged
  obtain ⟨⟨d, hd, hfd⟩, -⟩ := (mem_newFromPersistedSnapshots hs).mp (hdurable f hf (by simp [hpath]))
  refine ⟨⟨d, hd, f, hfd, hpath⟩, fun g hg hgone => ?_⟩
  have hmem := hmemory g hg (mem_cons_of_mem _ hgone)
  exact absurd hgone (by simpa using filter_eq_nil_iff.mp hremoved g hmem)

theorem deliver_ok (h : Invariant s) (hp : p ∈ s.process) (hsettled : Settled s p notice) :
    Invariant (s.deliver p notice) := by
  have hproc := h.process p hp
  have hown : notice.mergedPath ∉ notice.removedPaths := hsettled.2.2.2 notice (by simp) rfl
  obtain ⟨hadded, hremoved⟩ := applyCompaction_single p.persistedFiles notice.table
    (notice.mergedFile p.nextFileId) hown
  have hknown (x : CompactionNotice) (hx : x ∈ s.acknowledged) : x ∈ s.delivered ++ [notice] :=
    mem_append_left _ (h.known x hx)
  have hids (d : PersistedSnapshot) (hd : d ∈ s.durable) (id : Nat) (hid : d.Mentions id) : id < p.nextFileId + 1 :=
    (hproc.nextId d hd id hid).trans (Nat.lt_succ_self _)
  simp only [Node.deliver, hremoved]
  split
  · next hnothing =>
    refine ⟨h.consistent, h.nextIds, ?_, ?_, ?_⟩
    · rintro _ ⟨⟩
      exact ⟨hproc.counter, hids, fun c hc => deliver_others hproc hsettled hc, hproc.apart⟩
    · exact forall_mem_snoc.mpr ⟨hknown, by simp⟩
    · exact forall_mem_snoc.mpr
        ⟨h.recorded, redelivered_recorded (s := s) h.consistent hsettled (hadded.mp hnothing.1) hnothing.2⟩
  · refine ⟨h.consistent, h.nextIds, ?_, hknown, h.recorded⟩
    rintro _ ⟨⟩
    refine ⟨hproc.counter, hids, fun c hc => ?_, fun a ha b hb hne => ?_⟩
    · rcases KeyedList.mem_insertNew.mp hc with hc | ⟨rfl, -⟩
      · exact deliver_others hproc hsettled hc
      · exact deliver_new hproc h.consistent hsettled
    · rcases KeyedList.mem_insertNew.mp ha with ha | ⟨rfl, -⟩ <;>
        rcases KeyedList.mem_insertNew.mp hb with hb | ⟨rfl, -⟩
      · exact hproc.apart a ha b hb hne
      · exact ⟨by simp [Delivery.sequence], by simp⟩
      · exact ⟨by simp [Delivery.sequence], by simp [Delivery.sequence]⟩
      · exact absurd rfl hne

theorem restart_ok (hnext : NextIdsAbove s.durable) : ProcessOk s (restart s.durable) := by
  have hempty : ∀ c, c ∉ (restart s.durable).deliveries := by simp [restart]
  refine ⟨fun d hd => ?_, fun d hd id hid => ?_, fun c hc => absurd hc (hempty c), fun c hc => absurd hc (hempty c)⟩
  all_goals
    cases hnew : newestSnapshot s.durable with
    | none => rw [newestSnapshot_eq_none hnew] at hd; cases hd
    | some m => ?_
  · simpa [restart, hnew] using newestSnapshot_max hnew hd
  · simpa [restart, hnew] using hnext m (newestSnapshot_mem hnew) d hd (newestSnapshot_max hnew hd) id hid

end Steps

/-- A safe step keeps the invariant. -/
theorem Invariant.step {s s' : Node} {a : Action} (h : Invariant s) (hsafe : Safe s a)
    (hstep : step s a = some s') : Invariant s' := by
  cases a
  case crash =>
    cases hstep
    exact { h with process := nofun }
  case restart =>
    rw [Compaction.step] at hstep
    split at hstep <;> cases hstep
    exact h.withProcess (restart_ok h.nextIds)
  all_goals simp only [Compaction.step, bind_eq_bind, bind_eq_some_iff] at hstep
  case deliver notice =>
    obtain ⟨p, hp, hstep⟩ := hstep
    split at hstep
    · cases hstep
      exact h
    · next hnode =>
      cases hstep
      exact deliver_ok h hp (hsafe (not_not.mp hnode) p hp)
  case reserve id =>
    obtain ⟨p, hp, c, hc, hstep⟩ := hstep
    split at hstep <;> cases hstep
    exact h.withProcess (reserve_ok (h.process p hp) (mem_of_find hc))
  case stamp id catalog =>
    obtain ⟨p, hp, c, hc, hstep⟩ := hstep
    split at hstep <;> cases hstep
    rename_i hstage
    exact h.withProcess (stamp_ok catalog (h.process p hp) (mem_of_find hc) hstage)
  case persist id result =>
    obtain ⟨p, hp, c, hc, hstep⟩ := hstep
    split at hstep <;> cases hstep
    rename_i hstage
    exact persist_ok h hp (mem_of_find hc) hstage result

/-- In every run whose deliveries are all settled, every compaction answered with success is
durably recorded in every state reached. -/
theorem acknowledged_recorded_of_safe {s₀ s : Node} {as : List Action} (hinit : Initial s₀)
    (hsafe : Guarded step Safe s₀ as) (hrun : run step s₀ as = some s) : AcknowledgedRecorded s :=
  (invariant Invariant.step hinit.invariant hsafe hrun).recorded

def firstSnapshot : PersistedSnapshot :=
  ⟨"ingest-01", 2, 1, 1, 1, 2, 2, 0, 1,
    [((0, 0), [⟨0, "a.parquet", 1, 1, 0, 0, 0⟩, ⟨1, "b.parquet", 1, 1, 0, 1, 1⟩])], []⟩

def mergeNotice : CompactionNotice :=
  ⟨"ingest-01", 0, 0, "ab.parquet", 2, 2, 0, 0, 1, ["a.parquet", "b.parquet"]⟩

def stoppedNode : Node := ⟨"ingest-01", [firstSnapshot], none, [], []⟩

private theorem initial_stoppedNode : Initial stoppedNode := by
  have hadded (k : TableKey) : firstSnapshot.addedTo k =
      if (0, 0) = k then [⟨0, "a.parquet", 1, 1, 0, 0, 0⟩, ⟨1, "b.parquet", 1, 1, 0, 1, 1⟩] else [] := by
    simp [addedTo, firstSnapshot, filesOf]
  have hempty : Consistent ([] : List PersistedSnapshot) := ⟨by simp, by simp, by simp⟩
  refine ⟨hempty.append (m := firstSnapshot) (by simp) (fun k => ?_) (by simp) (fun k f hf => ?_), ?_, rfl, rfl, rfl⟩
  · rw [hadded]
    split <;> simp
  · simp [removedFrom, firstSnapshot, filesOf] at hf
  · simp only [NextIdsAbove, stoppedNode, mem_singleton]
    rintro _ rfl _ rfl _ id ⟨k, ⟨f, hf, rfl⟩ | ⟨f, hf, rfl⟩⟩
    · simp only [hadded, mem_ite_nil_right, mem_cons, not_mem_nil, or_false] at hf
      rcases hf.2 with rfl | rfl <;> decide
    · simp [removedFrom, firstSnapshot, filesOf] at hf

def deliveredTwice : List Action :=
  [.restart, .deliver mergeNotice, .reserve 2, .stamp 2 1, .persist 2 .ok, .deliver mergeNotice, .crash, .restart]

theorem delivered_twice_recorded : ∃ s, run step stoppedNode deliveredTwice = some s ∧
    s.acknowledged = [mergeNotice, mergeNotice] ∧ AcknowledgedRecorded s := by
  exact exists_and (by decide) fun s hs _ => acknowledged_recorded_of_safe initial_stoppedNode (by decide) hs

def redeliveredAfterFailure : List Action :=
  [.restart, .deliver mergeNotice, .reserve 2, .stamp 2 1, .persist 2 .failed, .deliver mergeNotice]

theorem redelivery_after_failure_unrecorded : Initial stoppedNode ∧
    ∃ s, run step stoppedNode redeliveredAfterFailure = some s ∧
      s.acknowledged = [mergeNotice] ∧ s.durable = [firstSnapshot] ∧ ¬ AcknowledgedRecorded s := by
  refine ⟨initial_stoppedNode, exists_and_and (by decide) fun s _ hack hdurable h => ?_⟩
  have hrec := (h mergeNotice (by simp [hack])).1
  rw [hdurable] at hrec
  exact absurd hrec (by decide)

end VarveDB.Compaction
