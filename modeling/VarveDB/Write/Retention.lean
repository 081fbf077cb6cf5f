import VarveDB.Catalog.Retention
import VarveDB.Cluster.Chunks
import VarveDB.Write.FileIds

/-! Files past their retention period on one node. -/
namespace VarveDB.Retention
open Library Runs Catalog List

def retained (filter : ChunkFilter) : Option Int → ChunkFilter
  | none => filter
  | some cutoff => { filter with timeLowerBoundNs := filter.timeLowerBoundNs.map (max · cutoff) <|> some cutoff }

private theorem le_maxTime_of_retained {filter : ChunkFilter} {cutoff minTime maxTime : Int}
    (h : (retained filter (some cutoff)).testTimeStampMinMax minTime maxTime = true) : cutoff ≤ maxTime := by
  obtain ⟨lower, upper⟩ := filter
  cases lower <;> cases upper <;> simp [retained, ChunkFilter.testTimeStampMinMax] at h <;> omega

def getFilesFiltered (files : PersistedFiles) (k : TableKey) (filter : ChunkFilter) : List ParquetFile :=
  Cluster.Node.sortByMinTimeDesc ((files.files k).filter fun f => filter.testTimeStampMinMax f.minTime f.maxTime)

structure CoreTableIndex where
  files : List ParquetFile
  latestSnapshotSequenceNumber : Nat

variable {f : ParquetFile} {index : CoreTableIndex} {k : TableKey} (m : PersistedSnapshot)

namespace CoreTableIndex

def empty : CoreTableIndex := ⟨[], 0⟩

def newerSnapshots (k : TableKey) (manifests : List PersistedSnapshot) (index : CoreTableIndex) :
    List PersistedSnapshot :=
  (orderedOldestFirst manifests).filter fun m => index.latestSnapshotSequenceNumber < m.snapshotSequenceNumber ∧
    (k ∈ m.databases.map Prod.fst ∨ k ∈ m.removedFiles.map Prod.fst)

def updateFromObjectStore (k : TableKey) (manifests : List PersistedSnapshot) (index : CoreTableIndex) :
    CoreTableIndex :=
  let newer := index.newerSnapshots k manifests
  let removed := newer.flatMap fun m => (m.removedFrom k).map ParquetFile.id
  { files := (index.files ∪ newer.flatMap fun m => m.addedTo k).filter fun f => f.id ∉ removed
    latestSnapshotSequenceNumber :=
      newer.foldl (fun _ m => m.snapshotSequenceNumber) index.latestSnapshotSequenceNumber }

private theorem mem_updateFromObjectStore {manifests : List PersistedSnapshot}
    (h : f ∈ (index.updateFromObjectStore k manifests).files) : f ∈ index.files ∨ ∃ m ∈ manifests, f ∈ m.addedTo k := by
  rcases mem_union_iff.mp (mem_filter.mp h).1 with h | h
  · exact .inl h
  · obtain ⟨m, hm, hf⟩ := mem_flatMap.mp h
    exact .inr ⟨m, mem_orderedOldestFirst.mp (mem_filter.mp hm).1, hf⟩

end CoreTableIndex

/-- `purge_expired` for one table: the files whose objects are still to be deleted, and the index that is
persisted after that. -/
structure Expiry where
  table : TableKey
  expired : List ParquetFile
  updated : CoreTableIndex

def purgeExpired (k : TableKey) (cutoff : Int) (index : CoreTableIndex) : Expiry where
  table := k
  expired := index.files.filter fun f => f.maxTime < cutoff
  updated := { index with files := index.files.filter fun f => ¬ f.maxTime < cutoff }

structure Pass where
  cutoffs : List (TableKey × Int)
  current : Option Expiry

structure Snapshot where
  manifest : PersistedSnapshot
  jobs : List FileIds.WrittenFile
  written : List FileIds.WrittenFile

structure Process where
  files : PersistedFiles
  snapshot : Option Snapshot
  deletions : List (TableKey × ParquetFile)
  pass : Option Pass

def added : List (TableKey × ParquetFile) := m.databases.flatMap fun t => t.2.map (t.1, ·)

theorem mem_added {m : PersistedSnapshot} : (k, f) ∈ added m ↔ f ∈ m.addedTo k := by
  simp only [added, PersistedSnapshot.addedTo, filesOf, mem_flatMap, mem_map, Prod.mk.injEq, mem_ite_nil_right]
  constructor
  · rintro ⟨t, ht, f', hf, hk, rfl⟩
    exact ⟨t, ht, hk, hf⟩
  · rintro ⟨t, ht, hk, hf⟩
    exact ⟨t, ht, f, hf, hk, rfl⟩

/-- A node with what is durable: objects by their paths, manifests and table indices. `named` are the files of
all manifests that were ever written. -/
structure State where
  now : Int
  databases : Repository DatabaseSchema
  objects : List String
  manifests : List PersistedSnapshot
  indices : TableKey → CoreTableIndex
  process : Option Process
  named : List (TableKey × ParquetFile)

inductive Action where
  | tick (duration : Nat)
  | change (r : RetentionChange)
  | snapshot (number walSequence catalogSequence nextFileId : Nat) (jobs : List FileIds.WrittenFile)
  | put (i : Nat)
  | handOver (i id : Nat)
  | persistSnapshot
  | delete (i : Nat)
  | giveUp (i : Nat)
  | startPass
  | loadTable
  | deleteExpired
  | finishTable
  | failTable
  | endPass
  | crash
  | restart

namespace State

variable (earliest : Int) (s : State)

def cutoffs : List (TableKey × Int) := retentionPeriodCutoffMap earliest s.now s.databases

def setProcess (p : Process) : State := { s with process := some p }

def deleteObject (path : String) : State := { s with objects := s.objects.filter (· ≠ path) }

/-- The files past retention go from the list and are to be deleted. New files have paths of their own. -/
def startSnapshot (p : Process) (manifest : PersistedSnapshot) (jobs : List FileIds.WrittenFile) : Option State :=
  if p.snapshot.isNone ∧ (jobs.map FileIds.WrittenFile.path).Nodup ∧
      ∀ job ∈ jobs, job.path ∉ s.named.map fun e => e.2.path then
    let (removed, files) := p.files.removeFilesForDeletion ((s.cutoffs earliest).map fun c => (c.1, some c.2))
    let manifest := { manifest with removedFiles := removed.map fun e => (e.1, [e.2]) }
    some (s.setProcess { p with files, deletions := p.deletions ++ removed, snapshot := some ⟨manifest, jobs, []⟩ })
  else none

def step (nodeId : String) (s : State) : Action → Option State
  | .tick duration => some { s with now := s.now + duration }
  | .change r => (r.apply s.databases).toOption.map fun databases => { s with databases }
  | .snapshot number walSequence catalogSequence nextFileId jobs => s.process.bind fun p =>
    s.startSnapshot earliest p (.new nodeId number walSequence catalogSequence nextFileId) jobs
  | .put i => s.process.bind fun p => p.snapshot.bind fun snapshot => snapshot.jobs[i]?.map fun job =>
    let snapshot := { snapshot with jobs := snapshot.jobs.eraseIdx i, written := snapshot.written ++ [job] }
    { s.setProcess { p with snapshot := some snapshot } with objects := s.objects ++ [job.path] }
  | .handOver i id => s.process.bind fun p => p.snapshot.bind fun snapshot => snapshot.written[i]?.map fun job =>
    let file := job.withId id
    let manifest := snapshot.manifest.addParquetFile (id + 1) job.table file
    let snapshot := { snapshot with manifest, written := snapshot.written.eraseIdx i }
    s.setProcess { p with files := p.files.addPersistedFile job.table file, snapshot := some snapshot }
  | .persistSnapshot => s.process.bind fun p => p.snapshot.bind fun snapshot =>
    if snapshot.jobs = [] ∧ snapshot.written = [] then
      some { s.setProcess { p with snapshot := none } with
        manifests := putSnapshot s.manifests snapshot.manifest, named := s.named ++ added snapshot.manifest }
    else none
  | .delete i => s.process.bind fun p => p.deletions[i]?.map fun e =>
    (s.deleteObject e.2.path).setProcess { p with deletions := p.deletions.eraseIdx i }
  | .giveUp i => s.process.map fun p => s.setProcess { p with deletions := p.deletions.eraseIdx i }
  | .startPass => s.process.bind fun p =>
    if p.pass.isNone then some (s.setProcess { p with pass := some ⟨s.cutoffs earliest, none⟩ }) else none
  | .loadTable => s.process.bind fun p => match p.pass with
    | some ⟨(k, cutoff) :: cutoffs, none⟩ =>
      let index := (s.indices k).updateFromObjectStore k s.manifests
      let expiry := purgeExpired k cutoff index
      let current := if expiry.expired = [] then none else some expiry
      some { s.setProcess { p with pass := some ⟨cutoffs, current⟩ } with indices := Function.update s.indices k index }
    | _ => none
  | .deleteExpired => s.process.bind fun p => match p.pass with
    | some ⟨cutoffs, some ⟨k, f :: expired, updated⟩⟩ =>
      some ((s.deleteObject f.path).setProcess { p with pass := some ⟨cutoffs, some ⟨k, expired, updated⟩⟩ })
    | _ => none
  | .finishTable => s.process.bind fun p => match p.pass with
    | some ⟨cutoffs, some ⟨k, [], updated⟩⟩ =>
      some { s.setProcess { p with pass := some ⟨cutoffs, none⟩ } with indices := Function.update s.indices k updated }
    | _ => none
  | .failTable => s.process.bind fun p => match p.pass with
    | some ⟨cutoffs, some _⟩ => some (s.setProcess { p with pass := some ⟨cutoffs, none⟩ })
    | some ⟨cutoffs, none⟩ => some (s.setProcess { p with pass := some ⟨cutoffs.tail, none⟩ })
    | none => none
  | .endPass => s.process.bind fun p => match p.pass with
    | some ⟨[], none⟩ => some (s.setProcess { p with pass := none })
    | _ => none
  | .crash => s.process.map fun _ => { s with process := none }
  | .restart =>
    if s.process.isNone then some (s.setProcess ⟨.newFromPersistedSnapshots s.manifests, none, [], none⟩) else none

/-- A change of retention periods makes none longer and takes none away. -/
def Shortening : Action → Prop
  | .change r => ∀ databases ∈ (r.apply s.databases).toOption, NoLonger s.databases databases
  | _ => True

instance (s : State) (a : Action) : Decidable (s.Shortening a) := by
  cases a <;> dsimp only [Shortening] <;> infer_instance

/-- Every file that a query of a live table is given has its object. -/
def Served : Prop :=
  ∀ p, s.process = some p → ∀ k db t, s.databases.getById k.1 = some db → db.deleted = false →
    db.tables.getById k.2 = some t → t.deleted = false → ∀ filter : ChunkFilter,
    ∀ f ∈ getFilesFiltered p.files k (retained filter (db.retentionPeriodCutoff earliest s.now k.2)), f.path ∈ s.objects

def cutoff (k : TableKey) : Option Int :=
  (tablePeriod s.databases k).bind (checkedSub earliest s.now)

end State

def Expired (cutoff : TableKey → Option Int) (e : TableKey × ParquetFile) : Prop :=
  ∃ c, cutoff e.1 = some c ∧ e.2.maxTime < c

def Forward (cutoff cutoff' : TableKey → Option Int) : Prop :=
  ∀ k c, cutoff k = some c → ∃ c', cutoff' k = some c' ∧ c ≤ c'

variable {e : TableKey × ParquetFile} {cutoffs : List (TableKey × Int)} {cutoff' : TableKey → Option Int}

theorem Expired.mono {cutoff : TableKey → Option Int} (h : Expired cutoff e)
    (hforward : Forward cutoff cutoff') : Expired cutoff' e := by
  obtain ⟨c, hc, hlt⟩ := h
  obtain ⟨c', hc', hle⟩ := hforward e.1 c hc
  exact ⟨c', hc', hlt.trans_le hle⟩

def Process.underWay (p : Process) : List (TableKey × ParquetFile) := p.snapshot.elim [] fun x => added x.manifest

def Snapshot.paths (x : Snapshot) : List String :=
  (added x.manifest).map (fun e => e.2.path) ++ (x.written ++ x.jobs).map FileIds.WrittenFile.path

section
variable {earliest : Int} {nodeId : String} {s s' : State} {p : Process} {named : List (TableKey × ParquetFile)}
  {objects : List String} {cutoff : TableKey → Option Int}

structure Snapshot.Sound (named : List (TableKey × ParquetFile)) (objects : List String) (x : Snapshot) : Prop where
  nodup : x.paths.Nodup
  fresh : ∀ path ∈ x.paths, path ∉ named.map fun e => e.2.path
  kept : ∀ e ∈ added x.manifest, e.2.path ∈ objects
  written : ∀ job ∈ x.written, job.path ∈ objects

structure Pass.Sound (named : List (TableKey × ParquetFile)) (cutoff : TableKey → Option Int) (pass : Pass) : Prop where
  cutoffs : ∀ c ∈ pass.cutoffs, ∃ c', cutoff c.1 = some c' ∧ c.2 ≤ c'
  expired : ∀ x ∈ pass.current, ∀ f ∈ x.expired, (x.table, f) ∈ named ∧ Expired cutoff (x.table, f)
  updated : ∀ x ∈ pass.current, ∀ f ∈ x.updated.files, (x.table, f) ∈ named

structure Process.Sound (named : List (TableKey × ParquetFile)) (objects : List String) (cutoff : TableKey → Option Int)
    (p : Process) : Prop where
  listed : ∀ k, ∀ f ∈ p.files.files k, (k, f) ∈ named ++ p.underWay
  snapshot : ∀ x ∈ p.snapshot, x.Sound named objects
  deletions : ∀ e ∈ p.deletions, e ∈ named ∧ Expired cutoff e
  pass : ∀ pass ∈ p.pass, pass.Sound named cutoff

/-- Every object that is gone is that of a file before the cutoff of its table, by whichever of the two ways it
went, and stays so. -/
structure State.Sound (earliest : Int) (s : State) : Prop where
  keyed : Keyed s.databases
  nodup : (s.named.map fun e => e.2.path).Nodup
  kept : ∀ e ∈ s.named, e.2.path ∈ s.objects ∨ Expired (s.cutoff earliest) e
  manifests : ∀ m ∈ s.manifests, ∀ e ∈ added m, e ∈ s.named
  indices : ∀ k, ∀ f ∈ (s.indices k).files, (k, f) ∈ s.named
  process : ∀ p ∈ s.process, p.Sound s.named s.objects (s.cutoff earliest)

theorem Process.Sound.mono (h : p.Sound named objects cutoff)
    (hforward : Forward cutoff cutoff') : p.Sound named objects cutoff' := by
  refine ⟨h.listed, h.snapshot, fun e he => (h.deletions e he).imp_right (·.mono hforward), fun pass hpass => ?_⟩
  have hpass := h.pass pass hpass
  refine ⟨fun c hc => ?_, fun x hx f hf => (hpass.expired x hx f hf).imp_right (·.mono hforward), hpass.updated⟩
  obtain ⟨c', hc', hle⟩ := hpass.cutoffs c hc
  obtain ⟨c'', hc'', hle'⟩ := hforward _ c' hc'
  exact ⟨c'', hc'', hle.trans hle'⟩

namespace State.Sound

section
variable (h : s.Sound earliest)
include h

theorem served : s.Served earliest := by
  intro p hp k db t hdb _ ht _ filter f hf
  rw [getFilesFiltered, Cluster.Node.sortByMinTimeDesc, mem_insertionSort, mem_filter] at hf
  obtain ⟨hf, htest⟩ := hf
  have hprocess := h.process p hp
  rcases mem_append.mp (hprocess.listed k f hf) with hnamed | hunder
  · refine (h.kept _ hnamed).resolve_right fun hold => ?_
    obtain ⟨c, hc, hlt⟩ := hold
    have hcutoff : db.retentionPeriodCutoff earliest s.now k.2 = some c :=
      (congrArg (·.bind (checkedSub earliest s.now)) (tablePeriod_eq hdb ht)).symm.trans hc
    rw [hcutoff] at htest
    have hle := le_maxTime_of_retained htest
    simp only at hlt
    omega
  · unfold Process.underWay at hunder
    cases hx : p.snapshot with
    | none => simp [hx] at hunder
    | some x =>
      rw [hx] at hunder
      exact (hprocess.snapshot x hx).kept _ hunder

/-- Time goes on and no table's period gets longer. -/
theorem forward {now : Int} {databases : Repository DatabaseSchema} (hkeyed : Keyed databases) (hnow : s.now ≤ now)
    (hshorter : ∀ k period, tablePeriod s.databases k = some period → ∃ period',
      tablePeriod databases k = some period' ∧ period' ≤ period) : Sound earliest { s with now, databases } := by
  have hforward : Forward (s.cutoff earliest) (State.cutoff earliest { s with now, databases }) := by
    intro k c hc
    obtain ⟨period, hperiod, hc⟩ := bind_eq_some_iff.mp hc
    obtain ⟨period', hperiod', hle⟩ := hshorter k period hperiod
    obtain ⟨c', hc', hle⟩ := checkedSub_mono hnow hle hc
    exact ⟨c', bind_eq_some_iff.mpr ⟨period', hperiod', hc'⟩, hle⟩
  exact { h with
    keyed := hkeyed
    kept := fun e he => (h.kept e he).imp_right (·.mono hforward)
    process := fun p hp => (h.process p hp).mono hforward }

theorem setProcess (hp : p.Sound s.named s.objects (s.cutoff earliest)) : (s.setProcess p).Sound earliest :=
  { h with process := fun _ hp' => some.inj hp' ▸ hp }

/-- The object of an expired file can go: no other file has its path. -/
theorem deleteObject (he : e ∈ s.named) (hexpired : Expired (s.cutoff earliest) e) :
    (s.deleteObject e.2.path).Sound earliest := by
  have hstays {path : String} (hpath : path ∈ s.objects) (hne : path ≠ e.2.path) :
      path ∈ (s.deleteObject e.2.path).objects :=
    mem_filter.mpr ⟨hpath, by simpa using hne⟩
  have hmem : e.2.path ∈ s.named.map fun e => e.2.path := mem_map_of_mem he
  refine { h with kept := fun e' he' => ?_, process := fun p hp => ?_ }
  · by_cases heq : e'.2.path = e.2.path
    · obtain rfl := inj_on_of_nodup_map h.nodup he' he heq
      exact .inr hexpired
    · exact (h.kept e' he').imp_left (hstays · heq)
  · have hp := h.process p hp
    refine { hp with snapshot := fun x hx => ?_ }
    have hx := hp.snapshot x hx
    refine ⟨hx.nodup, hx.fresh, fun e' he' => hstays (hx.kept e' he') fun heq => ?_,
      fun job hjob => hstays (hx.written job hjob) fun heq => ?_⟩
    · exact hx.fresh _ (mem_append_left _ (mem_map_of_mem he')) (heq ▸ hmem)
    · exact hx.fresh _ (mem_append_right _ (mem_map_of_mem (mem_append_left _ hjob))) (heq ▸ hmem)

/-- A change of one table's index. -/
theorem setIndex (hindex : ∀ f ∈ index.files, (k, f) ∈ s.named) :
    Sound earliest { s with indices := Function.update s.indices k index } := by
  refine { h with indices := fun k' f hf => ?_ }
  by_cases hk : k' = k
  · subst hk
    exact hindex f (by simpa using hf)
  · exact h.indices k' f (by simpa [hk] using hf)

theorem startSnapshot (hp : s.process = some p) {manifest : PersistedSnapshot} (hempty : manifest.databases = [])
    {jobs : List FileIds.WrittenFile} (hstep : s.startSnapshot earliest p manifest jobs = some s') :
    s'.Sound earliest := by
  unfold State.startSnapshot at hstep
  split_ifs at hstep with hfree
  obtain ⟨hnone, hnodup, hfresh⟩ := hfree
  have hprocess := h.process p hp
  have hnamed {k : TableKey} {f : ParquetFile} (hf : f ∈ p.files.files k) : (k, f) ∈ s.named := by
    simpa [Process.underWay, Option.isNone_iff_eq_none.mp hnone] using hprocess.listed k f hf
  cases hstep
  refine h.setProcess ⟨fun k f hf => ?_, fun x hx => ?_, fun e he => ?_, hprocess.pass⟩
  · exact mem_append_left _ (hnamed ((p.files.mem_removeFilesForDeletion _).1 k f hf))
  · cases hx
    have hnothing {removed : List (TableKey × List ParquetFile)} :
        added { manifest with removedFiles := removed } = [] := by
      simp [added, hempty]
    refine ⟨?_, ?_, ?_, nofun⟩
    · simpa [Snapshot.paths, hnothing] using hnodup
    · simpa [Snapshot.paths, hnothing] using hfresh
    · simp [hnothing]
  · refine (mem_append.mp he).elim (hprocess.deletions e) fun he => ?_
    obtain ⟨d, hd, hkey, hf, hlt⟩ := PersistedFiles.due_of_mem_removeFilesForDeletion he
    obtain ⟨⟨k, c⟩, hc, rfl⟩ := mem_map.mp hd
    obtain rfl : k = e.1 := hkey
    exact ⟨hnamed hf, c, mem_retentionPeriodCutoffMap h.keyed hc, of_decide_eq_true hlt⟩

end

variable {i : Nat} {x : Snapshot}

theorem put (h : s.Sound earliest) (hp : s.process = some p) (hx : p.snapshot = some x)
    {job : FileIds.WrittenFile} (hjob : x.jobs[i]? = some job) :
    Sound earliest { s.setProcess { p with snapshot := some { x with
      jobs := x.jobs.eraseIdx i, written := x.written ++ [job] } } with objects := s.objects ++ [job.path] } := by
  have hprocess := h.process p hp
  have hsound := hprocess.snapshot x hx
  have hsub {path : String} (hpath : path ∈ s.objects) : path ∈ s.objects ++ [job.path] := mem_append_left _ hpath
  have hperm : (Snapshot.paths { x with jobs := x.jobs.eraseIdx i, written := x.written ++ [job] }).Perm x.paths := by
    refine List.Perm.append_left _ (List.Perm.map _ ?_)
    rw [append_assoc]
    exact (cons_eraseIdx_perm hjob).append_left _
  refine { h with kept := fun e he => (h.kept e he).imp_left hsub, process := fun p' hp' => ?_ }
  cases hp'
  refine ⟨fun k f hf => ?_, fun x' hx' => ?_, hprocess.deletions, hprocess.pass⟩
  · have hlisted := hprocess.listed k f hf
    rwa [Process.underWay, hx] at hlisted
  · cases hx'
    refine ⟨hperm.nodup_iff.mpr hsound.nodup, fun path hpath => hsound.fresh path (hperm.mem_iff.mp hpath),
      fun e he => hsub (hsound.kept e he), fun job' hjob' => ?_⟩
    rcases mem_append.mp hjob' with hjob' | hjob'
    · exact hsub (hsound.written job' hjob')
    · exact mem_append_right _ (by rw [mem_singleton.mp hjob']; exact mem_singleton_self _)

theorem added_addParquetFile (next : Nat) (k : TableKey) (f : ParquetFile) :
    added (m.addParquetFile next k f) = added m ++ [(k, f)] := by
  simp [added, PersistedSnapshot.addParquetFile]

section
variable (h : s.Sound earliest)
include h

section
variable (hp : s.process = some p)
include hp

theorem handOver (hx : p.snapshot = some x) {job : FileIds.WrittenFile}
    (hjob : x.written[i]? = some job) (id : Nat) :
    Sound earliest (s.setProcess { p with
      files := p.files.addPersistedFile job.table (job.withId id)
      snapshot := some { x with
        manifest := x.manifest.addParquetFile (id + 1) job.table (job.withId id)
        written := x.written.eraseIdx i } }) := by
  have hprocess := h.process p hp
  have hsound := hprocess.snapshot x hx
  have hlisted {k : TableKey} {f : ParquetFile} (hf : f ∈ p.files.files k) : (k, f) ∈ s.named ++ added x.manifest := by
    have hf := hprocess.listed k f hf
    rwa [Process.underWay, hx] at hf
  -- the path moves from what is written to what is handed over
  have hperm : (Snapshot.paths { x with
      manifest := x.manifest.addParquetFile (id + 1) job.table (job.withId id), written := x.written.eraseIdx i }).Perm
      x.paths := by
    simp only [Snapshot.paths, added_addParquetFile, map_append, append_assoc]
    refine List.Perm.append_left _ ?_
    exact ((cons_eraseIdx_perm hjob).map FileIds.WrittenFile.path).append_right _
  refine h.setProcess ⟨fun k f hf => ?_, fun x' hx' => ?_, hprocess.deletions, hprocess.pass⟩
  · simp only [Process.underWay, elim_some, added_addParquetFile]
    rcases PersistedFiles.mem_addPersistedFile hf with hf | ⟨rfl, rfl⟩
    · rw [← append_assoc]
      exact mem_append_left _ (hlisted hf)
    · simp
  · cases hx'
    refine ⟨hperm.nodup_iff.mpr hsound.nodup, fun path hpath => hsound.fresh path (hperm.mem_iff.mp hpath),
      fun e he => ?_, fun job' hjob' => hsound.written job' (mem_of_mem_eraseIdx hjob')⟩
    rw [added_addParquetFile] at he
    rcases mem_snoc.mp he with he | rfl
    · exact hsound.kept e he
    · exact hsound.written job (mem_of_getElem? hjob)

theorem persistSnapshot (hx : p.snapshot = some x) : Sound earliest { s.setProcess { p with snapshot := none } with
      manifests := putSnapshot s.manifests x.manifest, named := s.named ++ added x.manifest } := by
  have hprocess := h.process p hp
  have hsound := hprocess.snapshot x hx
  have hsub {e : TableKey × ParquetFile} (he : e ∈ s.named) : e ∈ s.named ++ added x.manifest := mem_append_left _ he
  refine ⟨h.keyed, ?_, fun e he => ?_, fun m hm e he => ?_, fun k f hf => hsub (h.indices k f hf), fun p' hp' => ?_⟩
  · simp only [map_append]
    refine nodup_append.mpr ⟨h.nodup, (nodup_append.mp hsound.nodup).1, fun a ha b hb hab => ?_⟩
    exact hsound.fresh b (mem_append_left _ hb) (hab ▸ ha)
  · exact (mem_append.mp he).elim (h.kept e) fun he => .inl (hsound.kept e he)
  · rcases mem_putSnapshot.mp hm with ⟨hm, -⟩ | rfl
    · exact hsub (h.manifests m hm e he)
    · exact mem_append_right _ he
  · cases hp'
    refine ⟨fun k f hf => ?_, nofun, fun e he => (hprocess.deletions e he).imp_left hsub, fun pass hpass => ?_⟩
    · have hf := hprocess.listed k f hf
      rw [Process.underWay, hx] at hf
      exact mem_append_left _ hf
    · have hpass := hprocess.pass pass hpass
      exact ⟨hpass.cutoffs, fun e he f hf => (hpass.expired e he f hf).imp_left hsub,
        fun e he f hf => hsub (hpass.updated e he f hf)⟩

/-- The handler goes on with another table or another file. -/
theorem setPass {pass : Option Pass} (hpass : ∀ x ∈ pass, x.Sound s.named (s.cutoff earliest)) :
    (s.setProcess { p with pass }).Sound earliest :=
  h.setProcess { h.process p hp with pass := hpass }

theorem loadTable {c : Int} (hpass : p.pass = some ⟨(k, c) :: cutoffs, none⟩)
    (hindex : index = (s.indices k).updateFromObjectStore k s.manifests) {current : Option Expiry}
    (hcurrent : ∀ x ∈ current, x = purgeExpired k c index) :
    Sound earliest { s.setProcess { p with pass := some ⟨cutoffs, current⟩ } with
      indices := Function.update s.indices k index } := by
  have hpass := (h.process p hp).pass _ hpass
  obtain ⟨c', hc', hle⟩ := hpass.cutoffs _ mem_cons_self
  have hnamed {f : ParquetFile} (hf : f ∈ index.files) : (k, f) ∈ s.named := by
    rcases CoreTableIndex.mem_updateFromObjectStore (hindex ▸ hf) with hf | ⟨m, hm, hf⟩
    · exact h.indices k f hf
    · exact h.manifests m hm _ (mem_added.mpr hf)
  refine (h.setPass hp fun x hx => ?_).setIndex fun f hf => hnamed hf
  cases hx
  refine ⟨fun c hc => hpass.cutoffs c (mem_cons_of_mem _ hc), fun x hx f hf => ?_, fun x hx f hf => ?_⟩
  · obtain rfl := hcurrent x hx
    obtain ⟨hf, hlt⟩ := mem_filter.mp hf
    have hlt := of_decide_eq_true hlt
    exact ⟨hnamed hf, c', hc', by simp only at hle ⊢; omega⟩
  · obtain rfl := hcurrent x hx
    exact hnamed (mem_filter.mp hf).1

theorem giveUp (i : Nat) : (s.setProcess { p with deletions := p.deletions.eraseIdx i }).Sound earliest :=
  have hprocess := h.process p hp
  h.setProcess { hprocess with deletions := fun e he => hprocess.deletions e (mem_of_mem_eraseIdx he) }

theorem delete (he : p.deletions[i]? = some e) :
    Sound earliest ((s.deleteObject e.2.path).setProcess { p with deletions := p.deletions.eraseIdx i }) := by
  obtain ⟨hnamed, hexpired⟩ := (h.process p hp).deletions e (mem_of_getElem? he)
  exact (h.deleteObject hnamed hexpired).giveUp hp i

theorem deleteExpired {expired : List ParquetFile}
    {updated : CoreTableIndex} (hpass : p.pass = some ⟨cutoffs, some ⟨k, f :: expired, updated⟩⟩) :
    Sound earliest
      ((s.deleteObject f.path).setProcess { p with pass := some ⟨cutoffs, some ⟨k, expired, updated⟩⟩ }) := by
  have hpass := (h.process p hp).pass _ hpass
  obtain ⟨hnamed, hexpired⟩ := hpass.expired _ rfl f mem_cons_self
  refine (h.deleteObject hnamed hexpired).setPass hp fun x hx => ?_
  cases hx
  refine ⟨hpass.cutoffs, fun x hx f' hf' => ?_, fun x hx => ?_⟩
  · cases hx
    exact hpass.expired _ rfl f' (mem_cons_of_mem _ hf')
  · cases hx
    exact hpass.updated ⟨k, f :: expired, updated⟩ rfl

end

theorem step {a : Action} (hguard : s.Shortening a) (hstep : s.step earliest nodeId a = some s') :
    s'.Sound earliest := by
  cases a
  case tick duration =>
    cases hstep
    exact h.forward h.keyed (by omega) fun k period hperiod => ⟨period, hperiod, le_rfl⟩
  case change r =>
    obtain ⟨databases, happly, rfl⟩ := map_eq_some_iff.mp hstep
    exact h.forward (h.keyed.change (toOption_eq_some.mp happly)) le_rfl fun k period =>
      (hguard databases happly).tablePeriod h.keyed
  case giveUp i =>
    obtain ⟨p, hp, rfl⟩ := map_eq_some_iff.mp hstep
    exact h.giveUp hp i
  case crash =>
    obtain ⟨p, -, rfl⟩ := map_eq_some_iff.mp hstep
    exact { h with process := nofun }
  case restart =>
    simp only [State.step] at hstep
    split_ifs at hstep
    cases hstep
    refine h.setProcess ⟨fun k f hf => ?_, nofun, nofun, nofun⟩
    obtain ⟨m, hm, hf⟩ := PersistedFiles.added_of_mem_newFromPersistedSnapshots hf
    exact mem_append_left _ (h.manifests m hm _ (mem_added.mpr hf))
  all_goals obtain ⟨p, hp, hstep⟩ := bind_eq_some_iff.mp hstep
  case snapshot => exact h.startSnapshot hp rfl hstep
  case put =>
    obtain ⟨x, hx, hstep⟩ := bind_eq_some_iff.mp hstep
    obtain ⟨job, hjob, rfl⟩ := map_eq_some_iff.mp hstep
    exact h.put hp hx hjob
  case handOver =>
    obtain ⟨x, hx, hstep⟩ := bind_eq_some_iff.mp hstep
    obtain ⟨job, hjob, rfl⟩ := map_eq_some_iff.mp hstep
    exact h.handOver hp hx hjob _
  case persistSnapshot =>
    obtain ⟨x, hx, hstep⟩ := bind_eq_some_iff.mp hstep
    split_ifs at hstep
    cases hstep
    exact h.persistSnapshot hp hx
  case delete =>
    obtain ⟨e, he, rfl⟩ := map_eq_some_iff.mp hstep
    exact h.delete hp he
  -- the steps of a pass over the tables
  all_goals
    have hpassOk := (h.process p hp).pass
    split at hstep <;> cases hstep
  · refine h.setPass hp fun x hx => ?_
    cases hx
    exact ⟨fun c hc => ⟨c.2, mem_retentionPeriodCutoffMap h.keyed hc, Int.le_refl _⟩, nofun, nofun⟩
  · next hpass =>
    refine h.loadTable hp hpass rfl fun x hx => ?_
    split_ifs at hx
    · cases hx
    · exact (some.inj hx).symm
  · next hpass => exact h.deleteExpired hp hpass
  · next hpass =>
    refine (h.setPass hp fun x hx => ?_).setIndex ((hpassOk _ hpass).updated _ rfl)
    cases hx
    exact ⟨(hpassOk _ hpass).cutoffs, nofun, nofun⟩
  · next hpass =>
    refine h.setPass hp fun x hx => ?_
    cases hx
    exact ⟨(hpassOk _ hpass).cutoffs, nofun, nofun⟩
  · next hpass =>
    refine h.setPass hp fun x hx => ?_
    cases hx
    exact ⟨fun c hc => (hpassOk _ hpass).cutoffs c (mem_of_mem_tail hc), nofun, nofun⟩
  · exact h.setPass hp nofun

end

end State.Sound

end

def start (now : Int) (databases : Repository DatabaseSchema) : State :=
  ⟨now, databases, [], [], fun _ => .empty, none, []⟩

/-- As long as no retention period gets longer, queries are only given files whose objects are there. -/
theorem retention_leaves_no_references {earliest now : Int} {nodeId : String} {databases : Repository DatabaseSchema}
    (hkeyed : Keyed databases) {as : List Action} {s : State}
    (hguard : Guarded (State.step earliest nodeId) State.Shortening (start now databases) as)
    (hrun : run (State.step earliest nodeId) (start now databases) as = some s) : s.Served earliest :=
  (invariant (State.Sound.step ·) (by exact ⟨hkeyed, nodup_nil, nofun, nofun, nofun, nofun⟩) hguard hrun :
    s.Sound earliest).served

private def hourly : TableDefinition :=
  { TableDefinition.newEmpty 0 "cpu" .aware with retentionPeriod := .duration 3600 }

private def oneTable : Repository DatabaseSchema :=
  Repository.new.inserted 0 { DatabaseSchema.new 0 "db" with tables := Repository.new.inserted 0 hourly }

private theorem keyed_oneTable : Keyed oneTable := by
  intro id db hdb
  rw [oneTable, Repository.getById_inserted] at hdb
  split_ifs at hdb with hid
  · cases hdb
    refine ⟨hid.symm, fun tableId t ht => ?_⟩
    rw [Repository.getById_inserted] at ht
    split_ifs at ht with htable
    · cases ht
      exact htable.symm
    · cases ht
  · cases hdb

private def persistedAndPurged : List Action :=
  [.restart, .snapshot 1 1 1 0 [⟨(0, 0), "a", 1, 1, 0, 0, 0⟩], .put 0, .handOver 0 0, .persistSnapshot,
    .tick 7200000000000, .startPass, .loadTable, .deleteExpired, .finishTable, .endPass]

private def threeHours : List Action := [.change (.setTable ⟨0, 0, .duration 10800⟩)]

/-- The retention period becomes three hours after that: the file is in the list and not in the object store. -/
theorem purged_file_back_in_view :
    ∃ s p, run (State.step 0 "node") (start 0 oneTable) (persistedAndPurged ++ threeHours) = some s ∧
    s.process = some p ∧ s.objects = [] ∧
    (s.databases.getById 0).map (fun db => (db.deleted, (db.tables.getById 0).map TableDefinition.deleted,
      (getFilesFiltered p.files (0, 0) (retained ⟨none, none⟩ (db.retentionPeriodCutoff 0 s.now 0))).map
        ParquetFile.path)) =
      some (false, some false, ["a"]) := by
  simp only [exists_and_left]
  decide +kernel

private def halfHour : List Action := [.change (.setTable ⟨0, 0, .duration 1800⟩), .crash, .restart]

theorem shortened_retention_served :
    ∃ s, run (State.step 0 "node") (start 0 oneTable) (persistedAndPurged ++ halfHour) = some s ∧
    s.objects = [] ∧ s.Served 0 := by
  exact exists_and (by decide +kernel) fun s hrun _ =>
    retention_leaves_no_references keyed_oneTable (by decide +kernel) hrun

end VarveDB.Retention
