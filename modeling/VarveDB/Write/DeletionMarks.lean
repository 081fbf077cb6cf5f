import VarveDB.Library.IndexMap
import VarveDB.Library.Runs
import VarveDB.Write.PersistedFiles

/-! Marks for hard deletion beside the list of persisted files. -/
namespace VarveDB.DeletionMarks
open Library Runs List

inductive DeletedTables where
  | all
  | list (tables : List Nat)
  deriving DecidableEq

structure Inner where
  persisted : PersistedFiles
  tables : List TableKey
  deletedData : IndexMap Nat DeletedTables
  listed : ∀ k, persisted.files k ≠ [] → k ∈ tables

variable {added : List ParquetFile} {cutoffs : List (TableKey × Int)} {order : List TableKey}
  {paths : List String} {removed : List (TableKey × ParquetFile)} {e : TableKey × ParquetFile} {s' : State}
  {p : PersistedFiles} {file : ParquetFile}

namespace Inner

def files (inner : Inner) (k : TableKey) : List ParquetFile := inner.persisted.files k

def marked (inner : Inner) (k : TableKey) : Bool :=
  match inner.deletedData.lookup k.1 with
  | none => false
  | some .all => true
  | some (.list tables) => k.2 ∈ tables

def deleteDatabase (inner : Inner) (dbId : Nat) : Inner :=
  { inner with deletedData := inner.deletedData.put dbId .all }

def deleteTable (inner : Inner) (k : TableKey) : Inner :=
  match inner.deletedData.lookup k.1 with
  | some .all => inner
  | some (.list tables) => { inner with deletedData := inner.deletedData.put k.1 (.list (k.2 :: tables)) }
  | none => { inner with deletedData := inner.deletedData.put k.1 (.list [k.2]) }

private theorem marked_deleteDatabase (inner : Inner) (dbId : Nat) (k : TableKey) :
    (inner.deleteDatabase dbId).marked k = (decide (k.1 = dbId) || inner.marked k) := by
  by_cases h : k.1 = dbId <;> simp [deleteDatabase, marked, h]

private theorem marked_deleteTable (inner : Inner) (k k' : TableKey) :
    (inner.deleteTable k).marked k' = (decide (k' = k) || inner.marked k') := by
  obtain ⟨db, table⟩ := k
  obtain ⟨db', table'⟩ := k'
  by_cases hdb : db' = db <;> rcases h : inner.deletedData.lookup db with _ | _ | tables <;>
    simp [deleteTable, marked, h, hdb]

@[simp]
theorem files_deleteTable (inner : Inner) (k : TableKey) : (inner.deleteTable k).files = inner.files := by
  unfold deleteTable
  split <;> rfl

def withTable (inner : Inner) (k : TableKey) (persisted : PersistedFiles)
    (h : ∀ k', k' ≠ k → persisted.files k' = inner.persisted.files k') : Inner where
  persisted := persisted
  tables := if k ∈ inner.tables then inner.tables else inner.tables ++ [k]
  deletedData := inner.deletedData
  listed := by
    intro k' hk'
    by_cases hk : k' = k
    · subst hk
      split <;> simp_all
    · have := inner.listed k' (h k' hk ▸ hk')
      split <;> simp [this]

variable {k k' : TableKey} {inner : Inner} {f : ParquetFile}

private theorem files_addPersistedFile_of_ne (h : k' ≠ k) : (p.addPersistedFile k file).files k' = p.files k' :=
  (p.files_addPersistedFile k k' file).resolve_right fun h' => h h'.1

def addPersistedFile (inner : Inner) (k : TableKey) (file : ParquetFile) : Inner :=
  inner.withTable k (inner.persisted.addPersistedFile k file) fun _ h => files_addPersistedFile_of_ne h

private theorem files_addCompactedFile_of_ne (h : k' ≠ k) : (p.addCompactedFile k file).2.files k' = p.files k' := by
  unfold PersistedFiles.addCompactedFile
  split <;> simp [h]

theorem files_addAll_of_ne (h : k' ≠ k) (added : List ParquetFile) :
    ∀ acc : Nat × PersistedFiles, (added.foldl (fun (acc : Nat × PersistedFiles) file =>
      let (isNew, inner) := acc.2.addCompactedFile k file
      (if isNew then acc.1 + 1 else acc.1, inner)) acc).2.files k' = acc.2.files k' := by
  induction added with
  | nil => exact fun _ => rfl
  | cons file added ih => exact fun acc => (ih _).trans (files_addCompactedFile_of_ne h)

def applyCompaction (inner : Inner) (k : TableKey) (added : List ParquetFile) (removedPaths : List String) : Inner :=
  inner.withTable k (inner.persisted.applyCompaction k added removedPaths).2.2 fun k' h => by
    simpa [PersistedFiles.applyCompaction, PersistedFiles.removeFilesByPath, h] using files_addAll_of_ne h added _

def due (inner : Inner) (order : List TableKey) (cutoffs : List (TableKey × Int)) : List (TableKey × Option Int) :=
  (order.filter inner.marked).map (·, none) ++
    (cutoffs.filter fun c => !inner.marked c.1).map fun c => (c.1, some c.2)

def collect (inner : Inner) (order : List TableKey) (cutoffs : List (TableKey × Int)) :
    List (TableKey × ParquetFile) := (inner.persisted.removeFilesForDeletion (inner.due order cutoffs)).1

def remove (inner : Inner) (removed : List (TableKey × ParquetFile)) : Inner where
  persisted := inner.persisted.dropRemoved removed
  tables := inner.tables
  deletedData := .empty _
  listed := by
    intro k hk
    refine inner.listed k fun h => hk ?_
    simp [PersistedFiles.dropRemoved, h]

private theorem mem_files_remove :
    f ∈ (inner.remove removed).files k ↔ f ∈ inner.files k ∧ f.path ∉ removed.map (·.2.path) := by
  simp [remove, files, PersistedFiles.dropRemoved]

/-- A call collects every file that is listed for a marked table. -/
theorem path_mem_collect (horder : order.Perm inner.tables)
    (hmarked : inner.marked k = true) (hf : f ∈ inner.files k) :
    f.path ∈ (inner.collect order cutoffs).map (·.2.path) := by
  have hk : k ∈ order := horder.mem_iff.mpr (inner.listed k (ne_nil_of_mem hf))
  refine PersistedFiles.path_mem_removeFilesForDeletion ?_ hf
  exact mem_append_left _ (mem_map.mpr ⟨k, mem_filter.mpr ⟨hk, hmarked⟩, rfl⟩)

theorem files_applyCompaction_of_ne (h : k' ≠ k) : (inner.applyCompaction k added paths).files k' = inner.files k' := by
  simpa [applyCompaction, withTable, files, PersistedFiles.applyCompaction, PersistedFiles.removeFilesByPath, h]
    using files_addAll_of_ne h added _

/-- A compaction drops only the files whose paths it names. -/
theorem mem_files_applyCompaction (hf : f ∈ inner.files k')
    (hpath : f.path ∉ paths) : f ∈ (inner.applyCompaction k added paths).files k' := by
  by_cases hk : k' = k
  · subst hk
    simp only [applyCompaction, withTable, files, PersistedFiles.applyCompaction, PersistedFiles.removeFilesByPath,
      Function.update_self, mem_filter]
    refine ⟨List.foldlRecOn (motive := fun acc : Nat × PersistedFiles => f ∈ acc.2.files k') added _ hf
      fun acc h file _ => ?_, by simpa using hpath⟩
    simp only [PersistedFiles.addCompactedFile]
    split
    · exact h
    · simp [h]
  · rwa [files_applyCompaction_of_ne hk]

end Inner

/-- `owed` holds the files for which a mark was made, `results` what calls have returned, and `compacted` the paths
that compactions have dropped. -/
structure State where
  inner : Inner
  calls : IndexMap Nat (List (TableKey × ParquetFile))
  jobs : List (TableKey × ParquetFile)
  owed : List (TableKey × ParquetFile)
  results : List (TableKey × ParquetFile)
  compacted : List String

inductive Action where
  | deleteDatabase (dbId : Nat)
  | deleteTable (k : TableKey)
  | startJob (e : TableKey × ParquetFile)
  | addPersistedFile (e : TableKey × ParquetFile)
  | applyCompaction (k : TableKey) (added : List ParquetFile) (removedPaths : List String)
  | collect (call : Nat) (order : List TableKey) (cutoffs : List (TableKey × Int))
  | remove (call : Nat)

namespace State

def start (persisted : PersistedFiles) (tables : List TableKey)
    (listed : ∀ k, persisted.files k ≠ [] → k ∈ tables) : State :=
  ⟨⟨persisted, tables, .empty _, listed⟩, .empty _, [], [], [], []⟩

def present (s : State) : List (TableKey × ParquetFile) :=
  s.inner.tables.flatMap (fun k => (s.inner.files k).map (k, ·)) ++ s.jobs

def mark (s : State) (inner : Inner) : State :=
  { s with inner := inner, owed := s.owed ++ s.present.filter fun e => inner.marked e.1 }

def step (s : State) : Action → Option State
  | .deleteDatabase dbId => some (s.mark (s.inner.deleteDatabase dbId))
  | .deleteTable k => some (s.mark (s.inner.deleteTable k))
  | .startJob e => some { s with jobs := s.jobs ++ [e] }
  | .addPersistedFile e =>
    if e ∈ s.jobs then some { s with inner := s.inner.addPersistedFile e.1 e.2, jobs := s.jobs.erase e } else none
  | .applyCompaction k added removedPaths =>
    some { s with inner := s.inner.applyCompaction k added removedPaths, compacted := s.compacted ++ removedPaths }
  | .collect call order cutoffs =>
    if (s.calls.lookup call).isNone ∧ order.Perm s.inner.tables then
      let removed := s.inner.collect order cutoffs
      if removed.isEmpty then some s else some { s with calls := s.calls.put call removed }
    else none
  | .remove call => do
    let removed ← s.calls.lookup call
    some { s with inner := s.inner.remove removed, calls := s.calls.remove call, results := s.results ++ removed }

/-- No mark is made and no file is added to a marked table while a call is between its passes, and
no job is in flight for a marked table when a call resets the marks. -/
def Undisturbed (s : State) : Action → Prop
  | .deleteDatabase _ | .deleteTable _ => s.calls.entries = []
  | .addPersistedFile e => s.inner.marked e.1 = true → s.calls.entries = []
  | .applyCompaction k _ _ => s.inner.marked k = true → s.calls.entries = []
  | .remove _ => ∀ job ∈ s.jobs, s.inner.marked job.1 = false
  | .startJob _ | .collect _ _ _ => True

instance (s : State) (a : Action) : Decidable (s.Undisturbed a) := by
  cases a <;> dsimp only [Undisturbed] <;> infer_instance

/-- Every file owed has been returned or compacted away, or it is listed or in flight for a table
that is still marked. -/
def Accounted (s : State) : Prop :=
  ∀ e ∈ s.owed, e.2.path ∈ s.results.map (·.2.path) ∨ e.2.path ∈ s.compacted ∨
    s.inner.marked e.1 = true ∧ (e ∈ s.jobs ∨ e.2 ∈ s.inner.files e.1)

def Collected (s : State) : Prop :=
  ∀ call removed, s.calls.lookup call = some removed → ∀ k, s.inner.marked k = true →
    ∀ f ∈ s.inner.files k, f.path ∈ removed.map (·.2.path)

variable {s : State}

theorem lookup_calls_of_nil (h : s.calls.entries = []) (call : Nat) : s.calls.lookup call = none := by
  rw [KeyedList.lookup_eq_none, h]
  simp

structure Sound (s : State) : Prop where
  accounted : s.Accounted
  collected : s.Collected

theorem sound_mark {inner : Inner} (h : s.Sound) (hcalls : s.calls.entries = [])
    (hfiles : inner.files = s.inner.files) (hmarked : ∀ k, s.inner.marked k = true → inner.marked k = true) :
    (s.mark inner).Sound := by
  refine ⟨fun e he => ?_, fun call removed hcall => ?_⟩
  · rcases mem_append.mp he with he | he
    · exact (h.accounted e he).imp id (Or.imp id fun ⟨hmark, hin⟩ =>
        ⟨hmarked _ hmark, hin.imp id fun hf => (congrFun hfiles e.1).symm ▸ hf⟩)
    · obtain ⟨hpresent, hmark⟩ := mem_filter.mp he
      refine .inr (.inr ⟨hmark, ?_⟩)
      rcases mem_append.mp hpresent with hlisted | hjob
      · obtain ⟨k, -, hlisted⟩ := mem_flatMap.mp hlisted
        obtain ⟨f, hf, rfl⟩ := mem_map.mp hlisted
        exact .inr ((congrFun hfiles k).symm ▸ hf)
      · exact .inl hjob
  · cases (lookup_calls_of_nil hcalls call).symm.trans hcall

private theorem sound_addPersistedFile (h : s.Sound) (hguard : s.inner.marked e.1 = true → s.calls.entries = []) :
    Sound { s with inner := s.inner.addPersistedFile e.1 e.2, jobs := s.jobs.erase e } := by
  refine ⟨fun e' he' => ?_, fun call removed hcall k hk f hf => ?_⟩
  · refine (h.accounted e' he').imp id (Or.imp id fun ⟨hmark, hin⟩ => ⟨hmark, ?_⟩)
    by_cases heq : e' = e
    · subst heq
      exact .inr (PersistedFiles.mem_addPersistedFile_self ..)
    · exact hin.imp (mem_erase_of_ne heq).mpr PersistedFiles.mem_addPersistedFile_of_mem
  · rcases PersistedFiles.mem_addPersistedFile hf with hf | ⟨rfl, -⟩
    · exact h.collected call removed hcall k hk f hf
    · cases (lookup_calls_of_nil (hguard hk) call).symm.trans hcall

private theorem sound_applyCompaction {k : TableKey} (h : s.Sound)
    (hguard : s.inner.marked k = true → s.calls.entries = []) :
    Sound { s with inner := s.inner.applyCompaction k added paths, compacted := s.compacted ++ paths } := by
  refine ⟨fun e he => ?_, fun call removed hcall k' hk' f hf => ?_⟩
  · rcases h.accounted e he with hres | hcomp | ⟨hmark, hin⟩
    · exact .inl hres
    · exact .inr (.inl (mem_append_left _ hcomp))
    · by_cases hpath : e.2.path ∈ paths
      · exact .inr (.inl (mem_append_right _ hpath))
      · exact .inr (.inr ⟨hmark, hin.imp id fun hf => Inner.mem_files_applyCompaction hf hpath⟩)
  · by_cases hkk : k' = k
    · subst hkk
      cases (lookup_calls_of_nil (hguard hk') call).symm.trans hcall
    · rw [Inner.files_applyCompaction_of_ne hkk] at hf
      exact h.collected call removed hcall k' hk' f hf

variable {call : Nat} {a : Action}

private theorem sound_collect (h : s.Sound)
    (horder : order.Perm s.inner.tables) :
    Sound { s with calls := s.calls.put call (s.inner.collect order cutoffs) } := by
  refine ⟨h.accounted, fun call' removed hcall k hk f hf => ?_⟩
  rw [IndexMap.lookup_put] at hcall
  split at hcall
  · cases hcall
    exact Inner.path_mem_collect horder hk hf
  · exact h.collected call' removed hcall k hk f hf

private theorem sound_remove (h : s.Sound)
    (hcall : s.calls.lookup call = some removed) (hguard : ∀ job ∈ s.jobs, s.inner.marked job.1 = false) :
    Sound { s with
      inner := s.inner.remove removed, calls := s.calls.remove call, results := s.results ++ removed } := by
  refine ⟨fun e he => ?_, fun _ _ _ k hk => by cases hk⟩
  simp only [map_append, mem_append]
  rcases h.accounted e he with hres | hcomp | ⟨hmark, hjob | hf⟩
  · exact .inl (.inl hres)
  · exact .inr (.inl hcomp)
  · cases (hguard e hjob).symm.trans hmark
  · exact .inl (.inr (h.collected call removed hcall e.1 hmark e.2 hf))

theorem Sound.step (h : s.Sound) (hguard : s.Undisturbed a) (hstep : s.step a = some s') : s'.Sound := by
  cases a with
  | deleteDatabase dbId =>
    cases hstep
    exact sound_mark h hguard rfl fun k hk => by simp [Inner.marked_deleteDatabase, hk]
  | deleteTable k =>
    cases hstep
    exact sound_mark h hguard (Inner.files_deleteTable ..) fun k hk => by simp [Inner.marked_deleteTable, hk]
  | startJob e =>
    cases hstep
    refine ⟨fun e' he' => ?_, h.collected⟩
    exact (h.accounted e' he').imp id (Or.imp id (And.imp id (Or.imp (mem_append_left _) id)))
  | addPersistedFile e =>
    obtain ⟨-, ⟨⟩⟩ := ite_none_right_eq_some.mp hstep
    exact sound_addPersistedFile h hguard
  | applyCompaction k added paths =>
    cases hstep
    exact sound_applyCompaction h hguard
  | collect call order cutoffs =>
    obtain ⟨⟨-, horder⟩, hstep⟩ := ite_none_right_eq_some.mp hstep
    split at hstep <;> cases hstep
    · exact h
    · exact sound_collect h horder
  | remove call =>
    obtain ⟨removed, hcall, ⟨⟩⟩ := bind_eq_some_iff.mp hstep
    exact sound_remove h hcall hguard

private def Held (call : Nat) (path : String) (s : State) : Prop :=
  path ∈ s.results.map (·.2.path) ∨ path ∈ s.compacted ∨
    ∃ removed, s.calls.lookup call = some removed ∧ path ∈ removed.map (·.2.path)

private theorem Held.step {path : String} (h : Held call path s) (hstep : s.step a = some s') : Held call path s' := by
  cases a with
  | deleteDatabase dbId | deleteTable k | startJob e => cases hstep; exact h
  | addPersistedFile e =>
    obtain ⟨-, ⟨⟩⟩ := ite_none_right_eq_some.mp hstep
    exact h
  | applyCompaction k added paths =>
    cases hstep
    exact h.imp id (Or.imp (mem_append_left _) id)
  | collect call' order cutoffs =>
    obtain ⟨⟨hnone, -⟩, hstep⟩ := ite_none_right_eq_some.mp hstep
    split at hstep <;> cases hstep
    · exact h
    · refine h.imp id (Or.imp id fun ⟨removed, hcall, hpath⟩ => ⟨removed, ?_, hpath⟩)
      rw [IndexMap.lookup_put, if_neg, hcall]
      rintro rfl
      simp [hcall] at hnone
  | remove call' =>
    obtain ⟨removed', hcall', ⟨⟩⟩ := bind_eq_some_iff.mp hstep
    rcases h with hres | hcomp | ⟨removed, hcall, hpath⟩
    · exact .inl (by rw [map_append]; exact mem_append_left _ hres)
    · exact .inr (.inl hcomp)
    · by_cases heq : call = call'
      · subst heq
        cases hcall.symm.trans hcall'
        exact .inl (by rw [map_append]; exact mem_append_right _ hpath)
      · exact .inr (.inr ⟨removed, by rw [IndexMap.lookup_remove, if_neg heq, hcall], hpath⟩)

/-- A whole call, whatever happens between its passes, returns every file that was owed and listed
when it began, unless a compaction has dropped it. -/
private theorem returned_by_call (h : s.Accounted) {between : List Action}
    (hrun : run step s (.collect call order cutoffs :: between ++ [.remove call]) = some s')
    (he : e ∈ s.owed) (hjob : e ∉ s.jobs) : e.2.path ∈ s'.results.map (·.2.path) ∨ e.2.path ∈ s'.compacted := by
  rw [run_append] at hrun
  obtain ⟨m, hcollect, hremove⟩ := bind_eq_some_iff.mp hrun
  obtain ⟨m', hstep, hbetween⟩ := run_cons_eq_some.mp hcollect
  obtain ⟨m'', hlast, ⟨⟩⟩ := run_cons_eq_some.mp hremove
  have hheld : Held call e.2.path m' := by
    obtain ⟨⟨-, horder⟩, hstep⟩ := ite_none_right_eq_some.mp hstep
    rcases h e he with hres | hcomp | ⟨hmark, hin⟩
    · refine .inl ?_
      split at hstep <;> cases hstep <;> exact hres
    · refine .inr (.inl ?_)
      split at hstep <;> cases hstep <;> exact hcomp
    · have hpath : e.2.path ∈ (s.inner.collect order cutoffs).map (·.2.path) :=
        Inner.path_mem_collect horder hmark (hin.resolve_left hjob)
      rw [if_neg] at hstep
      · cases hstep
        exact .inr (.inr ⟨_, by rw [IndexMap.lookup_put, if_pos rfl], hpath⟩)
      · intro hempty
        simp [isEmpty_iff.mp hempty] at hpath
  have hend : Held call e.2.path s' := (invariant_of_step Held.step hheld hbetween).step hlast
  refine hend.imp id fun hend => hend.resolve_right ?_
  rintro ⟨removed, hcall, -⟩
  obtain ⟨removed', -, ⟨⟩⟩ := bind_eq_some_iff.mp hlast
  rw [IndexMap.lookup_remove, if_pos rfl] at hcall
  cases hcall

/-- In every undisturbed run, a file for which a mark was made stays accounted for, the next whole call returns it
once it is listed, and what a call returns is no longer listed. -/
theorem marked_files_returned {persisted : PersistedFiles} {tables : List TableKey}
    {listed : ∀ k, persisted.files k ≠ [] → k ∈ tables} {as : List Action} {s : State}
    (hguard : Guarded step Undisturbed (start persisted tables listed) as)
    (hrun : run step (start persisted tables listed) as = some s) :
    s.Accounted ∧
    (∀ call order cutoffs between s',
      run step s (.collect call order cutoffs :: between ++ [.remove call]) = some s' →
      ∀ e ∈ s.owed, e ∉ s.jobs → e.2.path ∈ s'.results.map (·.2.path) ∨ e.2.path ∈ s'.compacted) ∧
    ∀ call removed s', s.calls.lookup call = some removed → step s (.remove call) = some s' →
      (∀ e ∈ removed, ∀ k, ∀ f ∈ s'.inner.files k, f.path ≠ e.2.path) ∧
      (s.Undisturbed (.remove call) → ∀ k, s.inner.marked k = true →
        (∀ f ∈ s.inner.files k, f.path ∈ removed.map (·.2.path)) ∧ ∀ job ∈ s.jobs, job.1 ≠ k) := by
  have hsound : s.Sound := invariant Sound.step
    (by exact ⟨by simp [Accounted, start], by simp [Collected, start]⟩) hguard hrun
  refine ⟨hsound.accounted, fun _ _ _ _ _ hcall e he hjob => returned_by_call hsound.accounted hcall he hjob,
    fun call removed s' hcall hstep => ⟨fun e he k f hf hpath => ?_, fun hreset k hk => ⟨?_, ?_⟩⟩⟩
  · obtain ⟨removed', hcall', ⟨⟩⟩ := bind_eq_some_iff.mp hstep
    cases hcall.symm.trans hcall'
    exact (Inner.mem_files_remove.mp hf).2 (hpath ▸ mem_map_of_mem (f := (·.2.path)) he)
  · exact hsound.collected call removed hcall k hk
  · rintro job hjob rfl
    cases (hreset job hjob).symm.trans hk

def twoFiles : PersistedFiles where
  files := fun k => if k = (1, 1) then [⟨0, "a", 10, 1, 0, 0, 5⟩]
    else if k = (1, 2) then [⟨1, "b", 10, 1, 0, 0, 5⟩] else []
  parquetFilesCount := 2
  parquetFilesRowCount := 2

def twoFilesStart : State := start twoFiles [(1, 1), (1, 2)] <| by
  intro k hk
  by_contra hnot
  simp only [mem_cons, not_mem_nil, or_false, not_or] at hnot
  exact hk (by simp [twoFiles, hnot])

theorem both_tables_returned :
    ∃ s, run step twoFilesStart [.deleteTable (1, 1), .deleteTable (1, 2), .collect 0 [(1, 1), (1, 2)] [], .remove 0] =
      some s ∧ s.Accounted ∧ s.results.map (·.2.path) = ["a", "b"] := by
  have hguard : Guarded step Undisturbed twoFilesStart
      [.deleteTable (1, 1), .deleteTable (1, 2), .collect 0 [(1, 1), (1, 2)] [], .remove 0] := by decide
  refine exists_of_decide (fun s => s.results.map (·.2.path) = ["a", "b"]) (by decide) fun s hrun hresults => ?_
  exact ⟨(marked_files_returned hguard hrun).1, hresults⟩

/-- Table 2 is marked between the two passes of a call for table 1: the call resets its mark, and
the next call does not return its file. -/
theorem mark_reset_without_removal :
    ∃ s, run step twoFilesStart [.deleteTable (1, 1), .collect 0 [(1, 1), (1, 2)] [], .deleteTable (1, 2), .remove 0,
        .collect 1 [(1, 1), (1, 2)] []] = some s ∧
      ((1, 2), ⟨1, "b", 10, 1, 0, 0, 5⟩) ∈ s.owed ∧ ⟨1, "b", 10, 1, 0, 0, 5⟩ ∈ s.inner.files (1, 2) ∧
      s.inner.marked (1, 2) = false ∧ s.results.map (·.2.path) = ["a"] ∧ s.calls.entries = [] ∧ s.compacted = [] := by
  decide

end State

end VarveDB.DeletionMarks
