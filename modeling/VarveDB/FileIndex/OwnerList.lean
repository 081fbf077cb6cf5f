import VarveDB.FileIndex.Published
import VarveDB.Write.PersistedFiles

/-! The files of a node in the shared index against the list that the node itself rebuilds from the
same manifests. -/
namespace VarveDB.Publisher
open Library FileIndex List PersistedSnapshot

/-- Manifests of one node, oldest first. A file id and a path are added once, and a removal names a file
that an earlier manifest or the same one adds. -/
structure History (nodeId : String) (ms : List PersistedSnapshot) : Prop where
  node : ∀ m ∈ ms, m.nodeId = nodeId
  increasing : ms.Pairwise fun a b => a.snapshotSequenceNumber < b.snapshotSequenceNumber
  ids : ((ms.flatMap PersistedSnapshot.files).map ParquetFile.id).Nodup
  paths : ((ms.flatMap PersistedSnapshot.files).map ParquetFile.path).Nodup
  removals : ∀ m ∈ ms, ∀ k, ∀ r ∈ m.removedFrom k, ∃ m' ∈ ms, m'.snapshotSequenceNumber ≤ m.snapshotSequenceNumber ∧
    ∃ f ∈ m'.files, f.id = r.id ∧ f.path = r.path

/-- The tables of one manifest come in any order, and an entry may hold the deltas of several manifests. -/
structure Logs (ms : List PersistedSnapshot) (log : List FileIndexLogEntry) : Prop where
  increasing : (0 :: log.map FileIndexLogEntry.sequence).Pairwise (· < ·)
  deltas : ∃ groups : List (List FileIndexDelta), List.Forall₂ (fun m ds => ds.Perm (deltasFromSnapshot m)) ms groups ∧
    logDeltas log = groups.flatten

def AddsPath (m : PersistedSnapshot) (k : TableKey) (path : String) : Prop := ∃ f ∈ m.addedTo k, f.path = path

def RemovesPath (m : PersistedSnapshot) (k : TableKey) (path : String) : Prop := ∃ r ∈ m.removedFrom k, r.path = path

/-- What a manifest adds and removes at once, a later manifest removes again. -/
def RemovedAgain (ms : List PersistedSnapshot) : Prop :=
  ∀ m ∈ ms, ∀ k path, AddsPath m k path → RemovesPath m k path →
    ∃ m' ∈ ms, m.snapshotSequenceNumber < m'.snapshotSequenceNumber ∧ RemovesPath m' k path

section
variable {nodeId : String} {k : TableKey} {path : String} {ds : List FileIndexDelta} {m : PersistedSnapshot}

private theorem nodup_tables (h : ds.Perm (deltasFromSnapshot m)) :
    ds.Pairwise fun d d' => (d.dbId, d.tableId) ≠ (d'.dbId, d'.tableId) := by
  refine h.symm.pairwise ?_ Ne.symm
  rw [deltasFromSnapshot, pairwise_map]
  exact (nodup_dedup _).imp id

private theorem listedAfter_of_distinct
    (h : ds.Pairwise fun d d' => (d.dbId, d.tableId) ≠ (d'.dbId, d'.tableId)) (listed : Prop) :
    listedAfter nodeId k path ds listed ↔
      (∃ d ∈ ds, ∃ f, Adds d nodeId k f ∧ f.path = path) ∨ listed ∧ ∀ d ∈ ds, ¬Removes d nodeId k path := by
  induction ds generalizing listed with
  | nil => simp [listedAfter]
  | cons d ds ih =>
    obtain ⟨hd, hds⟩ := pairwise_cons.mp h
    have hother : (∃ f, Adds d nodeId k f ∧ f.path = path) → ∀ d' ∈ ds, ¬Removes d' nodeId k path := by
      rintro ⟨f, ⟨-, htable, -⟩, -⟩ d' hd' ⟨-, htable', -⟩
      exact hd d' hd' (htable.trans htable'.symm)
    refine (ih hds _).trans ?_
    simp only [mem_cons, exists_eq_or_imp, forall_eq_or_imp]
    by_cases hadds : ∃ f, Adds d nodeId k f ∧ f.path = path
    · exact iff_of_true (.inr ⟨.inl hadds, hother hadds⟩) (.inl (.inl hadds))
    · simp only [hadds, false_or, and_assoc]

private theorem listedAfter_manifest (h : ds.Perm (deltasFromSnapshot m)) (hnode : m.nodeId = nodeId) (listed : Prop) :
    listedAfter nodeId k path ds listed ↔ AddsPath m k path ∨ listed ∧ ¬RemovesPath m k path := by
  have hadds : (∃ d ∈ ds, ∃ f, Adds d nodeId k f ∧ f.path = path) ↔ AddsPath m k path := by
    constructor
    · rintro ⟨d, hd, f, hadds, hpath⟩
      exact ⟨f, (mem_addedTo_of_adds (h.mem_iff.mp hd) hadds).2, hpath⟩
    · rintro ⟨f, hf, hpath⟩
      exact ⟨_, h.mem_iff.mpr (mem_map_of_mem (mem_tablesOf_of_added hf)), f, ⟨hnode, rfl, hf⟩, hpath⟩
  have hremoves : (∃ d ∈ ds, Removes d nodeId k path) ↔ RemovesPath m k path := by
    constructor
    · rintro ⟨d, hd, -, htable, hremoved⟩
      obtain ⟨k', -, rfl⟩ := mem_map.mp (h.mem_iff.mp hd)
      obtain rfl : k' = k := htable
      exact mem_map.mp hremoved
    · rintro ⟨r, hr, rfl⟩
      exact ⟨_, h.mem_iff.mpr (mem_map_of_mem (mem_tablesOf_of_removed hr)), hnode, rfl, mem_map_of_mem hr⟩
  rw [listedAfter_of_distinct (nodup_tables h), hadds, ← hremoves]
  push Not
  exact Iff.rfl

/-- A path is listed after the manifests if one of them adds it and none after that one removes it. -/
theorem listedAfter_manifests {ms : List PersistedSnapshot} {groups : List (List FileIndexDelta)}
    (h : List.Forall₂ (fun m ds => ds.Perm (deltasFromSnapshot m)) ms groups) (hnode : ∀ m ∈ ms, m.nodeId = nodeId)
    (hincreasing : ms.Pairwise fun a b => a.snapshotSequenceNumber < b.snapshotSequenceNumber) (listed : Prop) :
    listedAfter nodeId k path groups.flatten listed ↔ (∃ m ∈ ms, AddsPath m k path ∧
        ∀ m' ∈ ms, m.snapshotSequenceNumber < m'.snapshotSequenceNumber → ¬RemovesPath m' k path) ∨
      listed ∧ ∀ m ∈ ms, ¬RemovesPath m k path := by
  induction h generalizing listed with
  | nil => simp [listedAfter]
  | @cons m ds ms groups hm _ ih =>
    obtain ⟨hlater, hincreasing⟩ := pairwise_cons.mp hincreasing
    obtain ⟨hnode, hnodes⟩ := forall_mem_cons.mp hnode
    have hfirst : (∀ m' ∈ m :: ms, m.snapshotSequenceNumber < m'.snapshotSequenceNumber → ¬RemovesPath m' k path) ↔
        ∀ m' ∈ ms, ¬RemovesPath m' k path := by
      simp only [forall_mem_cons, lt_irrefl, false_implies, true_and]
      exact forall₂_congr fun m' hm' => by simp only [hlater m' hm', true_implies]
    have hrest : ∀ a ∈ ms,
        ((∀ m' ∈ m :: ms, a.snapshotSequenceNumber < m'.snapshotSequenceNumber → ¬RemovesPath m' k path) ↔
          ∀ m' ∈ ms, a.snapshotSequenceNumber < m'.snapshotSequenceNumber → ¬RemovesPath m' k path) := by
      intro a ha
      simp only [forall_mem_cons, (hlater a ha).not_gt, false_implies, true_and]
    rw [flatten_cons, listedAfter_append, ih hnodes hincreasing, propext (listedAfter_manifest hm hnode listed),
      exists_mem_cons_iff, hfirst, forall_mem_cons]
    have hexists : (∃ a ∈ ms, AddsPath a k path ∧
        ∀ m' ∈ m :: ms, a.snapshotSequenceNumber < m'.snapshotSequenceNumber → ¬RemovesPath m' k path) ↔
        ∃ a ∈ ms, AddsPath a k path ∧
          ∀ m' ∈ ms, a.snapshotSequenceNumber < m'.snapshotSequenceNumber → ¬RemovesPath m' k path :=
      exists_congr fun a => and_congr_right fun ha => and_congr_right fun _ => hrest a ha
    rw [hexists, or_and_right, and_assoc, or_assoc, or_left_comm]

end

variable {manifests : List PersistedSnapshot}

namespace History
variable {nodeId : String} {ms : List PersistedSnapshot} {m m' : PersistedSnapshot} {f f' : ParquetFile} {k : TableKey}

section
variable (h : History nodeId ms)
include h

section
variable (hm : m ∈ ms) (hm' : m' ∈ ms) (hf : f ∈ m.files)
include hm hm' hf

private theorem manifest_eq (hf' : f ∈ m'.files) : m = m' := by
  by_contra hne
  have hdisjoint := (nodup_flatMap.mp h.ids.of_map).2
  have : Std.Symm (Function.onFun List.Disjoint files) := ⟨fun _ _ hab => List.Disjoint.symm hab⟩
  exact hdisjoint.forall hm hm' hne hf hf'

private theorem file_eq_of_id (hf' : f' ∈ m'.files) (hid : f.id = f'.id) : f = f' :=
  inj_on_of_nodup_map h.ids (mem_flatMap.mpr ⟨m, hm, hf⟩) (mem_flatMap.mpr ⟨m', hm', hf'⟩) hid

private theorem file_eq_of_path (hf' : f' ∈ m'.files) (hpath : f.path = f'.path) : f = f' :=
  inj_on_of_nodup_map h.paths (mem_flatMap.mpr ⟨m, hm, hf⟩) (mem_flatMap.mpr ⟨m', hm', hf'⟩) hpath

end

/-- A removal names a file by its id exactly if it names it by its path, and only from the manifest on
that adds it. -/
theorem removal_iff (hm : m ∈ ms) (hf : f ∈ m.files) (hm' : m' ∈ ms) {r : ParquetFile} (hr : r ∈ m'.removedFrom k) :
    (r.id = f.id ↔ r.path = f.path) ∧ (r.path = f.path → m.snapshotSequenceNumber ≤ m'.snapshotSequenceNumber) := by
  obtain ⟨m₀, hm₀, hle, g, hg, hid, hpath⟩ := h.removals m' hm' k r hr
  rw [← hid, ← hpath]
  refine ⟨⟨fun heq => ?_, fun heq => ?_⟩, fun heq => ?_⟩
  · rw [h.file_eq_of_id hm₀ hm hg hf heq]
  · rw [h.file_eq_of_path hm₀ hm hg hf heq]
  · obtain rfl := h.file_eq_of_path hm₀ hm hg hf heq
    exact h.manifest_eq hm₀ hm hg hf ▸ hle

theorem removesPath_iff (hm : m ∈ ms) (hf : f ∈ m.files) (hm' : m' ∈ ms) (k : TableKey) :
    f.id ∈ (m'.removedFrom k).map ParquetFile.id ↔ RemovesPath m' k f.path := by
  rw [mem_map]
  exact exists_congr fun r => and_congr_right fun hr => (h.removal_iff hm hf hm' hr).1

private theorem le_of_removesPath (hm : m ∈ ms) {path : String} (hadds : AddsPath m k path) (hm' : m' ∈ ms)
    (hremoves : RemovesPath m' k path) : m.snapshotSequenceNumber ≤ m'.snapshotSequenceNumber := by
  obtain ⟨f, hf, rfl⟩ := hadds
  obtain ⟨r, hr, hpath⟩ := hremoves
  exact (h.removal_iff hm (mem_files.mpr ⟨k, hf⟩) hm' hr).2 hpath

theorem consistent (hperm : manifests.Perm ms) : Consistent manifests := by
  refine ⟨?_, fun k => ?_, fun m hm m' hm' hlt k f hf hremoved => ?_⟩
  · rw [(hperm.map _).nodup_iff]
    exact pairwise_map.mpr (h.increasing.imp fun hlt => hlt.ne)
  · rw [((hperm.flatMap_right _).map _).nodup_iff]
    refine h.ids.sublist (List.Sublist.map _ (List.Sublist.flatMap_right _ fun m _ => ?_))
    exact List.Sublist.flatMap_right _ fun p _ => by split_ifs <;> simp
  · have hf' : f ∈ m'.files := mem_files.mpr ⟨k, hf⟩
    have hle := h.le_of_removesPath (hperm.mem_iff.mp hm') ⟨f, hf, rfl⟩ (hperm.mem_iff.mp hm)
      ((h.removesPath_iff (hperm.mem_iff.mp hm') hf' (hperm.mem_iff.mp hm) k).mp hremoved)
    omega

private theorem mem_owner_iff (hperm : manifests.Perm ms) (k : TableKey) (path : String)
    : path ∈ ((PersistedFiles.newFromPersistedSnapshots manifests).files k).map ParquetFile.path ↔
      ∃ m ∈ ms, AddsPath m k path ∧ ∀ m' ∈ ms, ¬RemovesPath m' k path := by
  simp only [mem_map, PersistedFiles.mem_newFromPersistedSnapshots (h.consistent hperm), hperm.mem_iff]
  constructor
  · rintro ⟨f, ⟨⟨m, hm, hf⟩, hkept⟩, rfl⟩
    refine ⟨m, hm, ⟨f, hf, rfl⟩, fun m' hm' hremoves => hkept m' hm' ?_⟩
    rw [← mem_map]
    exact (h.removesPath_iff hm (mem_files.mpr ⟨k, hf⟩) hm' k).mpr hremoves
  · rintro ⟨m, hm, ⟨f, hf, rfl⟩, hkept⟩
    refine ⟨f, ⟨⟨m, hm, hf⟩, fun m' hm' hremoved => hkept m' hm' ?_⟩, rfl⟩
    rw [← mem_map] at hremoved
    exact (h.removesPath_iff hm (mem_files.mpr ⟨k, hf⟩) hm' k).mp hremoved

private theorem lists_iff {log : List FileIndexLogEntry} (hlog : Logs ms log) (k : TableKey) (path : String) :
    Lists (replay log) nodeId k path ↔ ∃ m ∈ ms, AddsPath m k path ∧
      ∀ m' ∈ ms, m.snapshotSequenceNumber < m'.snapshotSequenceNumber → ¬RemovesPath m' k path := by
  obtain ⟨groups, hgroups, hdeltas⟩ := hlog.deltas
  have hnew : ¬Lists new nodeId k path := fun ⟨e, he, _⟩ => KeyedList.not_mem_empty e he
  rw [replay, lists_foldl_apply hlog.increasing, hdeltas, listedAfter_manifests hgroups h.node h.increasing]
  simp only [hnew, false_and, or_false]

end

end History

/-- The index and the owner list the same paths for every table, in whichever order the owner reads its
manifests, exactly if every file that a manifest adds and removes at once is removed again later. -/
theorem index_matches_owner_iff {nodeId : String} {ms manifests : List PersistedSnapshot} {log : List FileIndexLogEntry}
    (h : History nodeId ms) (hlog : Logs ms log) (hperm : manifests.Perm ms) :
    (∀ k path, Lists (replay log) nodeId k path ↔
      path ∈ ((PersistedFiles.newFromPersistedSnapshots manifests).files k).map ParquetFile.path) ↔
        RemovedAgain ms := by
  simp only [h.lists_iff hlog, h.mem_owner_iff hperm]
  constructor
  · intro hsame m hm k path hadds hremoves
    by_contra hnone
    push Not at hnone
    obtain ⟨-, -, -, hkept⟩ := (hsame k path).mp ⟨m, hm, hadds, hnone⟩
    exact hkept m hm hremoves
  · intro hagain k path
    refine exists_congr fun m => and_congr_right fun hm => and_congr_right fun hadds =>
      ⟨fun hkept m' hm' hremoves => ?_, fun hkept m' hm' _ => hkept m' hm'⟩
    rcases (h.le_of_removesPath hm hadds hm' hremoves).lt_or_eq with hlt | heq
    · exact hkept m' hm' hlt hremoves
    · -- two manifests with one number are one
      have hsame : m = m' := inj_on_of_nodup_map
        (pairwise_map.mpr (h.increasing.imp fun hlt => hlt.ne) :
          (ms.map PersistedSnapshot.snapshotSequenceNumber).Nodup)
        hm hm' heq
      obtain ⟨later, hlater, hlt, hremoved⟩ := hagain m hm k path hadds (hsame ▸ hremoves)
      exact hkept later hlater hlt hremoved

private def persisted (id : Nat) (path : String) : ParquetFile := ⟨id, path, 10, 1, 0, 0, 9⟩

private def tableManifest (sequence : Nat) (added removed : List ParquetFile) : PersistedSnapshot :=
  { PersistedSnapshot.new "ingest-01" sequence sequence 0 3 with
    databases := [((0, 0), added)], removedFiles := [((0, 0), removed)] }

private def logged (ms : List PersistedSnapshot) : List FileIndexLogEntry :=
  ms.map fun m => ⟨m.snapshotSequenceNumber, deltasFromSnapshot m⟩

private theorem logs_logged {ms : List PersistedSnapshot}
    (h : (0 :: ms.map snapshotSequenceNumber).Pairwise (· < ·)) : Logs ms (logged ms) := by
  refine ⟨by simpa [logged, Function.comp_def] using h, ms.map deltasFromSnapshot, ?_,
    by simp [logDeltas, logged, List.flatMap, Function.comp_def]⟩
  exact forall₂_map_right_iff.mpr (forall₂_same.mpr fun _ _ => List.Perm.refl _)

theorem mem_of_mem_filesOf {table k : TableKey} {files : List ParquetFile} {f : ParquetFile}
    (h : f ∈ filesOf [(table, files)] k) : f ∈ files := by
  simp only [filesOf, flatMap_singleton, mem_ite_nil_right] at h
  exact h.2

private def addedAndRemoved : List PersistedSnapshot := [tableManifest 1 [persisted 1 "a"] [persisted 1 "a"]]

/-- A manifest removes the file it adds: the index lists it, as additions come after removals there, and
the owner does not. -/
theorem added_and_removed_listed : History "ingest-01" addedAndRemoved ∧ Logs addedAndRemoved (logged addedAndRemoved) ∧
    Lists (replay (logged addedAndRemoved)) "ingest-01" (0, 0) "a" ∧
    (PersistedFiles.newFromPersistedSnapshots addedAndRemoved).files (0, 0) = [] := by
  refine ⟨⟨by decide, by decide, by decide, by decide, fun m hm k r hr => ?_⟩, logs_logged (by decide),
    ?_, by decide +kernel⟩
  · rw [addedAndRemoved, mem_singleton] at hm
    subst hm
    obtain rfl := mem_singleton.mp (mem_of_mem_filesOf hr)
    exact ⟨_, mem_cons_self, le_rfl, _, mem_cons_self, rfl, rfl⟩
  · exact ⟨⟨"ingest-01", 0, 0, persisted 1 "a", 1⟩, by rw [KeyedList.mem_def]; decide +kernel, rfl⟩

private def compactedAway : List PersistedSnapshot :=
  [tableManifest 1 [persisted 1 "a"] [], tableManifest 2 [persisted 2 "b"] [persisted 1 "a"]]

theorem compacted_away_matches : Lists (replay (logged compactedAway)) "ingest-01" (0, 0) "a" ↔
    "a" ∈ ((PersistedFiles.newFromPersistedSnapshots compactedAway.reverse).files (0, 0)).map ParquetFile.path := by
  have hhistory : History "ingest-01" compactedAway := by
    refine ⟨by decide, by decide, by decide, by decide, fun m hm k r hr => ?_⟩
    rcases mem_cons.mp hm with rfl | hm
    · cases mem_of_mem_filesOf hr
    · rw [mem_singleton] at hm
      subst hm
      obtain rfl := mem_singleton.mp (mem_of_mem_filesOf hr)
      exact ⟨_, mem_cons_self, by decide, _, mem_cons_self, rfl, rfl⟩
  refine (index_matches_owner_iff hhistory (logs_logged (by decide)) (reverse_perm _)).mpr ?_ _ _
  rintro m hm k path ⟨f, hf, rfl⟩ ⟨r, hr, hpath⟩
  rcases mem_cons.mp hm with rfl | hm
  · cases mem_of_mem_filesOf hr
  · rw [mem_singleton] at hm
    subst hm
    rw [mem_singleton.mp (mem_of_mem_filesOf hf), mem_singleton.mp (mem_of_mem_filesOf hr)] at hpath
    exact absurd hpath (by decide)

end VarveDB.Publisher
