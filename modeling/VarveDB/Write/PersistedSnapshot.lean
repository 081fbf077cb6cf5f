import VarveDB.Library.Ledger
import VarveDB.Write.ParquetFile

/-! Snapshot manifests: which files a node added and removed under one snapshot
sequence number. -/
namespace VarveDB
open Library List

abbrev TableKey := Nat × Nat

instance TableKey.lawfulBEq : LawfulBEq TableKey := inferInstance

instance TableKey.lawfulBEqFile : LawfulBEq (TableKey × ParquetFile) := inferInstance

def filesOf (tables : List (TableKey × List ParquetFile)) (k : TableKey) : List ParquetFile :=
  tables.flatMap fun p => if p.1 = k then p.2 else []

theorem filesOf_cons (table : TableKey × List ParquetFile) (tables : List (TableKey × List ParquetFile))
    (k : TableKey) : filesOf (table :: tables) k = (if table.1 = k then table.2 else []) ++ filesOf tables k := rfl

structure PersistedSnapshot where
  nodeId : String
  nextFileId : Nat
  snapshotSequenceNumber : Nat
  walFileSequenceNumber : Nat
  catalogSequenceNumber : Nat
  parquetSizeBytes : Nat
  rowCount : Nat
  minTime : Int
  maxTime : Int
  databases : List (TableKey × List ParquetFile)
  removedFiles : List (TableKey × List ParquetFile)
  deriving DecidableEq

variable {f : ParquetFile}

namespace PersistedSnapshot

def new (nodeId : String) (sequence walSequence catalogSequence nextFileId : Nat) : PersistedSnapshot where
  nodeId := nodeId
  nextFileId := nextFileId
  snapshotSequenceNumber := sequence
  walFileSequenceNumber := walSequence
  catalogSequenceNumber := catalogSequence
  parquetSizeBytes := 0
  rowCount := 0
  minTime := 2 ^ 63 - 1
  maxTime := -2 ^ 63
  databases := []
  removedFiles := []

variable (m : PersistedSnapshot) (k : TableKey) (nextFileId : Nat)

def addParquetFile (k : TableKey) (file : ParquetFile) : PersistedSnapshot :=
  { m with
    nextFileId := nextFileId
    parquetSizeBytes := m.parquetSizeBytes + file.sizeBytes
    rowCount := m.rowCount + file.rowCount
    minTime := min m.minTime file.minTime
    maxTime := max m.maxTime file.maxTime
    databases := m.databases ++ [(k, [file])] }

def addedTo : List ParquetFile := filesOf m.databases k

def files : List ParquetFile := m.databases.flatMap Prod.snd

theorem mem_files {m : PersistedSnapshot} : f ∈ m.files ↔ ∃ k, f ∈ m.addedTo k := by
  simp only [files, addedTo, filesOf, mem_flatMap, mem_ite_nil_right]
  constructor
  · rintro ⟨table, hmem, hf⟩
    exact ⟨table.1, table, hmem, rfl, hf⟩
  · rintro ⟨k, table, hmem, -, hf⟩
    exact ⟨table, hmem, hf⟩

def removedFrom : List ParquetFile := filesOf m.removedFiles k

theorem addedTo_addParquetFile (table : TableKey) (file : ParquetFile) (k : TableKey) :
    (m.addParquetFile nextFileId table file).addedTo k = m.addedTo k ++ if table = k then [file] else [] := by
  simp [addParquetFile, addedTo, filesOf]

def batch (m : PersistedSnapshot) : Ledger.Batch ParquetFile Nat :=
  ⟨m.addedTo k, (m.removedFrom k).map ParquetFile.id⟩

def Mentions (id : Nat) : Prop :=
  ∃ k, (∃ f ∈ m.addedTo k, f.id = id) ∨ ∃ f ∈ m.removedFrom k, f.id = id

theorem mentions_added {m : PersistedSnapshot} {k : TableKey} (h : f ∈ m.addedTo k) :
    m.Mentions f.id := ⟨k, .inl ⟨f, h, rfl⟩⟩

end PersistedSnapshot

variable (snapshots : List PersistedSnapshot)

def orderedOldestFirst : List PersistedSnapshot :=
  snapshots.insertionSort fun a b => a.snapshotSequenceNumber ≤ b.snapshotSequenceNumber

def newestSnapshot : Option PersistedSnapshot :=
  (orderedOldestFirst snapshots).getLast?

def putSnapshot (durable : List PersistedSnapshot) (m : PersistedSnapshot) : List PersistedSnapshot :=
  durable.filter (fun d => d.snapshotSequenceNumber ≠ m.snapshotSequenceNumber) ++ [m]

/-- Sequence numbers and file ids are used once, and a removal never comes before the
addition it cancels. -/
structure Consistent (ms : List PersistedSnapshot) : Prop where
  sequences : (ms.map PersistedSnapshot.snapshotSequenceNumber).Nodup
  ids : ∀ k, ((ms.flatMap fun m => m.addedTo k).map ParquetFile.id).Nodup
  ordered : ∀ m ∈ ms, ∀ m' ∈ ms, m.snapshotSequenceNumber < m'.snapshotSequenceNumber →
    ∀ k, ∀ f ∈ m'.addedTo k, f.id ∉ (m.removedFrom k).map ParquetFile.id

variable {ms : List PersistedSnapshot} {m d : PersistedSnapshot}

theorem mem_orderedOldestFirst : m ∈ orderedOldestFirst ms ↔ m ∈ ms := mem_insertionSort _

theorem orderedOldestFirst_perm (ms : List PersistedSnapshot) : (orderedOldestFirst ms).Perm ms :=
  perm_insertionSort _ ms

theorem orderedOldestFirst_sorted (ms : List PersistedSnapshot) :
    (orderedOldestFirst ms).Pairwise fun a b => a.snapshotSequenceNumber ≤ b.snapshotSequenceNumber :=
  pairwise_insertionSort (fun a b : PersistedSnapshot => a.snapshotSequenceNumber ≤ b.snapshotSequenceNumber) ms

theorem newestSnapshot_mem (h : newestSnapshot ms = some m) : m ∈ ms :=
  mem_orderedOldestFirst.mp (mem_of_getLast? h)

theorem newestSnapshot_max (h : newestSnapshot ms = some m) (hd : d ∈ ms) :
    d.snapshotSequenceNumber ≤ m.snapshotSequenceNumber := by
  obtain ⟨init, hinit⟩ := List.getLast?_eq_some_iff.mp h
  have hsorted := orderedOldestFirst_sorted ms
  have hmem := mem_orderedOldestFirst.mpr hd
  rw [hinit] at hsorted hmem
  rcases mem_append.mp hmem with hmem | hmem
  · exact (pairwise_append.mp hsorted).2.2 d hmem m (by simp)
  · rw [mem_singleton.mp hmem]

theorem newestSnapshot_eq_none (h : newestSnapshot ms = none) : ms = [] := by
  have hnil : orderedOldestFirst ms = [] := List.getLast?_eq_none_iff.mp h
  exact (hnil ▸ orderedOldestFirst_perm ms).nil_eq.symm

theorem mem_putSnapshot {durable : List PersistedSnapshot} :
    d ∈ putSnapshot durable m ↔ d ∈ durable ∧ d.snapshotSequenceNumber ≠ m.snapshotSequenceNumber ∨ d = m := by
  simp [putSnapshot]

variable (h : Consistent ms)
include h

/-- A file id is added by one manifest only. -/
theorem Consistent.eq_of_id {m' : PersistedSnapshot} (hm : m ∈ ms) (hm' : m' ∈ ms) {k : TableKey}
    {f' : ParquetFile} (hf : f ∈ m.addedTo k) (hf' : f' ∈ m'.addedTo k) (hid : f.id = f'.id) : m = m' := by
  by_contra hne
  have hdisj := h.ids k
  rw [map_flatMap, nodup_flatMap] at hdisj
  have : Std.Symm (Function.onFun List.Disjoint fun a : PersistedSnapshot => (a.addedTo k).map ParquetFile.id) :=
    ⟨fun _ _ hab => List.Disjoint.symm hab⟩
  exact hdisj.2.forall hm hm' hne (mem_map_of_mem hf) (hid ▸ mem_map_of_mem hf')

/-- A manifest with a new number and new ids, whose removals name files of lower numbered
manifests, extends a consistent set, wherever its number falls. -/
theorem Consistent.append (hseq : ∀ d ∈ ms, d.snapshotSequenceNumber ≠ m.snapshotSequenceNumber)
    (hnodup : ∀ k, ((m.addedTo k).map ParquetFile.id).Nodup)
    (hfresh : ∀ k, ∀ f ∈ m.addedTo k, ∀ d ∈ ms, ¬ d.Mentions f.id) (hremoved : ∀ k, ∀ f ∈ m.removedFrom k,
      ∃ d ∈ ms, f ∈ d.addedTo k ∧ d.snapshotSequenceNumber < m.snapshotSequenceNumber) : Consistent (ms ++ [m]) := by
  refine ⟨?_, fun k => ?_, ?_⟩
  · rw [map_append, nodup_append]
    refine ⟨h.sequences, by simp, ?_⟩
    simp only [mem_map, map_cons, map_nil, mem_singleton]
    rintro _ ⟨d, hd, rfl⟩ _ rfl
    exact hseq d hd
  · rw [flatMap_append, map_append, nodup_append]
    refine ⟨h.ids k, by simpa using hnodup k, ?_⟩
    simp only [mem_map, mem_flatMap, flatMap_singleton]
    rintro _ ⟨f, ⟨d, hd, hf⟩, rfl⟩ _ ⟨f', hf', rfl⟩ heq
    exact hfresh k f' hf' d hd (heq ▸ PersistedSnapshot.mentions_added hf)
  · simp only [mem_append, mem_singleton]
    rintro a (ha | rfl) b (hb | rfl) hlt k f hf hid
    · exact h.ordered a ha b hb hlt k f hf hid
    · obtain ⟨r, hr, hrid⟩ := mem_map.mp hid
      exact hfresh k f hf a ha (hrid ▸ ⟨_, .inr ⟨_, hr, rfl⟩⟩)
    · obtain ⟨r, hr, hrid⟩ := mem_map.mp hid
      obtain ⟨d, hd, hrd, hdlt⟩ := hremoved k r hr
      obtain rfl := h.eq_of_id hd hb hrd hf hrid
      omega
    · omega

/-- Read oldest first, a consistent set of manifests is a well-formed history of each table. -/
theorem Consistent.wellFormed (k : TableKey) :
    Ledger.WellFormed ParquetFile.id ((orderedOldestFirst ms).map (PersistedSnapshot.batch k)) := by
  have hperm := orderedOldestFirst_perm ms
  constructor
  · refine (List.Perm.nodup_iff ?_).mpr (h.ids k)
    refine List.Perm.map _ ?_
    simpa [Ledger.addedBy, flatMap_map, PersistedSnapshot.batch] using hperm.flatMap_right _
  · rw [pairwise_map]
    have hdistinct : (orderedOldestFirst ms).Pairwise
        fun a b => a.snapshotSequenceNumber ≠ b.snapshotSequenceNumber :=
      pairwise_map.mp ((hperm.map _).nodup_iff.mpr h.sequences)
    refine ((orderedOldestFirst_sorted ms).and hdistinct).imp_of_mem fun {a b} ha hb hab f hf => ?_
    exact h.ordered a (mem_orderedOldestFirst.mp ha) b (mem_orderedOldestFirst.mp hb) (by omega) k f hf

end VarveDB
