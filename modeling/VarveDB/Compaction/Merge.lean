import VarveDB.FileIndex.Query

/-! The compactor: which files of a table it merges, and what it publishes in their place. -/
namespace VarveDB.Compactor
open Library List

structure CompactionConfig where
  maxInputSizeBytes : Nat
  targetSizeBytes : Nat
  maxInputs : Nat

structure MergeGroup where
  dbId : Nat
  tableId : Nat
  inputs : List ParquetFile
  deriving DecidableEq

namespace MergeGroup

variable (g : MergeGroup) {f : ParquetFile}

def chunkTime : Int := ((g.inputs.map ParquetFile.chunkTime).min?).getD 0

def minTime : Int := ((g.inputs.map ParquetFile.minTime).min?).getD 0

def maxTime : Int := ((g.inputs.map ParquetFile.maxTime).max?).getD 0

def paths : List String := g.inputs.map ParquetFile.path

theorem minTime_le {g : MergeGroup} (hf : f ∈ g.inputs) : g.minTime ≤ f.minTime := by
  have hmem : f.minTime ∈ g.inputs.map ParquetFile.minTime := mem_map_of_mem hf
  cases hmin : (g.inputs.map ParquetFile.minTime).min? with
  | none => exact absurd hmem (List.min?_eq_none_iff.mp hmin ▸ not_mem_nil)
  | some t =>
    rw [minTime, hmin]
    exact (List.min?_eq_some_iff.mp hmin).2 _ hmem

theorem exists_maxTime {g : MergeGroup} (hne : g.inputs ≠ []) : ∃ f ∈ g.inputs, f.maxTime = g.maxTime := by
  obtain ⟨f, hf⟩ := exists_mem_of_ne_nil _ hne
  obtain ⟨t, hmax⟩ := Option.isSome_iff_exists.mp (isSome_max?_of_mem (mem_map_of_mem (f := ParquetFile.maxTime) hf))
  obtain ⟨f', hf', rfl⟩ := mem_map.mp (List.max?_mem hmax)
  exact ⟨f', hf', by rw [maxTime, hmax, Option.getD_some]⟩

theorem le_maxTime {g : MergeGroup} (hf : f ∈ g.inputs) : f.maxTime ≤ g.maxTime := by
  have hmem : f.maxTime ∈ g.inputs.map ParquetFile.maxTime := mem_map_of_mem hf
  cases hmax : (g.inputs.map ParquetFile.maxTime).max? with
  | none => exact absurd hmem (List.max?_eq_none_iff.mp hmax ▸ not_mem_nil)
  | some t =>
    rw [maxTime, hmax]
    exact (List.max?_eq_some_iff.mp hmax).2 _ hmem

def merged (id : Nat) (path : String) (sizeBytes rowCount : Nat) : ParquetFile :=
  ⟨id, path, sizeBytes, rowCount, g.chunkTime, g.minTime, g.maxTime⟩

def delta (target : String) (snapshotSequence : Nat) (merged : ParquetFile) : FileIndexDelta :=
  ⟨target, g.dbId, g.tableId, snapshotSequence, [merged], g.paths⟩

end MergeGroup

def mergedBefore (a b : ParquetFile) : Prop :=
  a.chunkTime < b.chunkTime ∨ a.chunkTime = b.chunkTime ∧ a.minTime ≤ b.minTime

instance : DecidableRel mergedBefore := fun _ _ => inferInstanceAs (Decidable (_ ∨ _))

instance : IsTrans ParquetFile mergedBefore := ⟨fun a b c hab hbc => by unfold mergedBefore at *; omega⟩

instance : Std.Total mergedBefore := ⟨fun a b => by unfold mergedBefore; omega⟩

structure Packing where
  groups : List (List ParquetFile)
  current : List ParquetFile
  currentSize : Nat

def Packing.add (config : CompactionConfig) (p : Packing) (file : ParquetFile) : Packing :=
  if p.current ≠ [] ∧ (p.currentSize + file.sizeBytes > config.targetSizeBytes ∨
      p.current.length ≥ config.maxInputs) then
    ⟨p.groups ++ [p.current], [file], file.sizeBytes⟩
  else ⟨p.groups, p.current ++ [file], p.currentSize + file.sizeBytes⟩

def Packing.finish (p : Packing) : List (List ParquetFile) :=
  if p.current ≠ [] then p.groups ++ [p.current] else p.groups

def selectMerges (dbId tableId : Nat) (files : List ParquetFile) (coldBefore : Int) (config : CompactionConfig) :
    List MergeGroup :=
  let eligible := files.filter fun f => f.chunkTime < coldBefore ∧ f.sizeBytes < config.maxInputSizeBytes
  if eligible.length < 2 then []
  else
    let groups := ((eligible.insertionSort mergedBefore).foldl (Packing.add config) ⟨[], [], 0⟩).finish
    (groups.filter fun inputs => inputs.length ≥ 2).map fun inputs => ⟨dbId, tableId, inputs⟩

private theorem flatten_foldl_add (config : CompactionConfig) (files : List ParquetFile) (p : Packing) :
    (files.foldl (Packing.add config) p).finish.flatten = p.finish.flatten ++ files := by
  have hfinish (p : Packing) : p.finish.flatten = p.groups.flatten ++ p.current := by
    unfold Packing.finish
    split
    · simp
    · next h => simp [not_not.mp h]
  induction files generalizing p with
  | nil => simp
  | cons file files ih =>
    rw [foldl_cons, ih, hfinish, hfinish p, Packing.add]
    split <;> simp

variable {config : CompactionConfig} {files : List ParquetFile} {coldBefore : Int} {p : Packing} {dbId tableId : Nat}

/-- Packing puts every eligible file into one group, in order. -/
theorem mem_files_of_mem_selectMerges {g : MergeGroup} (hg : g ∈ selectMerges dbId tableId files coldBefore config) :
    g.dbId = dbId ∧ g.tableId = tableId ∧ ∀ f ∈ g.inputs, f ∈ files := by
  simp only [selectMerges] at hg
  split at hg
  · exact nomatch hg
  · obtain ⟨inputs, hinputs, rfl⟩ := mem_map.mp hg
    refine ⟨rfl, rfl, fun f hf => ?_⟩
    have hflat := mem_flatten_of_mem (mem_filter.mp hinputs).1 hf
    rw [flatten_foldl_add] at hflat
    exact (mem_filter.mp ((mem_insertionSort _).mp hflat)).1

theorem two_le_length_of_mem_selectMerges {g : MergeGroup}
    (hg : g ∈ selectMerges dbId tableId files coldBefore config) : 2 ≤ g.inputs.length := by
  simp only [selectMerges] at hg
  split at hg
  · exact nomatch hg
  · obtain ⟨inputs, hinputs, rfl⟩ := mem_map.mp hg
    exact of_decide_eq_true (mem_filter.mp hinputs).2

def Fits (config : CompactionConfig) (files : List ParquetFile) : Prop :=
  (files.map ParquetFile.sizeBytes).sum ≤ config.targetSizeBytes ∧ files.length ≤ config.maxInputs

private def Full (config : CompactionConfig) (run next : List ParquetFile) : Prop :=
  ∀ f, next.head? = some f → ¬ Fits config (run ++ [f])

private structure Packing.Greedy (config : CompactionConfig) (p : Packing) : Prop where
  size : p.currentSize = (p.current.map ParquetFile.sizeBytes).sum
  nonempty : ∀ run ∈ p.groups, run ≠ []
  fits : ∀ run ∈ p.groups ++ [p.current], 2 ≤ run.length → Fits config run
  full : (p.groups ++ [p.current]).IsChain (Full config)
  started : p.current = [] → p.groups = []

private theorem Packing.Greedy.add (h : p.Greedy config) (file : ParquetFile) : (p.add config file).Greedy config := by
  unfold Packing.add
  split
  · next hclose =>
    obtain ⟨hne, hover⟩ := hclose
    refine ⟨by simp, fun run hrun => ?_, fun run hrun hlen => ?_, ?_, nofun⟩
    · rcases mem_append.mp hrun with hrun | hrun
      · exact h.nonempty run hrun
      · exact mem_singleton.mp hrun ▸ hne
    · rcases mem_append.mp hrun with hrun | hrun
      · exact h.fits run hrun hlen
      · rw [mem_singleton.mp hrun] at hlen
        exact absurd hlen (by simp)
    · refine isChain_append.mpr ⟨h.full, .singleton _, fun run hrun next hnext f hf hfits => ?_⟩
      obtain rfl : p.current = run := by simpa using hrun
      obtain rfl : [file] = next := by simpa using hnext
      obtain rfl : file = f := by simpa using hf
      rw [h.size] at hover
      simp only [Fits, map_append, sum_append, length_append, map_cons, map_nil, sum_cons,
        sum_nil, length_cons, length_nil] at hfits
      omega
  · next hopen =>
    refine ⟨by simp [h.size], h.nonempty, fun run hrun hlen => ?_, ?_, by simp⟩
    · rcases mem_append.mp hrun with hrun | hrun
      · exact h.fits run (mem_append_left _ hrun) hlen
      · rw [mem_singleton.mp hrun] at hlen ⊢
        have hne : p.current ≠ [] := fun hnil => by simp [hnil] at hlen
        have hroom :
            ¬ (p.currentSize + file.sizeBytes > config.targetSizeBytes ∨ p.current.length ≥ config.maxInputs) :=
          fun hover => hopen ⟨hne, hover⟩
        rw [h.size] at hroom
        simp only [Fits, map_append, sum_append, length_append, map_cons, map_nil, sum_cons,
          sum_nil, length_cons, length_nil]
        omega
    · obtain ⟨hgroups, -, hlast⟩ := isChain_append.mp h.full
      refine isChain_append.mpr ⟨hgroups, .singleton _, fun run hrun next hnext f hf => ?_⟩
      obtain rfl : p.current ++ [file] = next := by simpa using hnext
      -- the open run keeps its first file, unless it had none and is the first run of all
      cases hcurrent : p.current with
      | nil => simp [h.started hcurrent] at hrun
      | cons first rest => exact hlast run hrun p.current (by simp) f (by simpa [hcurrent] using hf)

/-- How eligible files are cut into runs: a run of several files fits, and one that was closed did not fit with the
first file of the next. -/
structure Packed (config : CompactionConfig) (sorted : List ParquetFile) (runs : List (List ParquetFile)) : Prop where
  flatten : runs.flatten = sorted
  nonempty : ∀ run ∈ runs, run ≠ []
  fits : ∀ run ∈ runs, 2 ≤ run.length → Fits config run
  alone : ∀ before f after, runs = before ++ [f] :: after →
    (∀ run, before.getLast? = some run → ¬ Fits config (run ++ [f])) ∧
      ∀ next, after.flatten.head? = some next → ¬ Fits config [f, next]

private theorem Packing.Greedy.packed (h : p.Greedy config) : Packed config p.finish.flatten p.finish := by
  have hsub : ∀ run ∈ p.finish, run ∈ p.groups ++ [p.current] := fun run hrun => by
    unfold Packing.finish at hrun
    split at hrun
    · exact hrun
    · exact mem_append_left _ hrun
  have hnonempty : ∀ run ∈ p.finish, run ≠ [] := fun run hrun => by
    unfold Packing.finish at hrun
    split at hrun
    · next hcurrent =>
      rcases mem_append.mp hrun with hrun | hrun
      · exact h.nonempty run hrun
      · exact mem_singleton.mp hrun ▸ hcurrent
    · exact h.nonempty run hrun
  have hchain : p.finish.IsChain (Full config) := by
    unfold Packing.finish
    split
    · exact h.full
    · exact (isChain_append.mp h.full).1
  refine ⟨rfl, hnonempty, fun run hrun => h.fits run (hsub run hrun), fun before f after heq => ?_⟩
  rw [heq] at hchain hnonempty
  obtain ⟨-, hafter, hbefore⟩ := isChain_append.mp hchain
  refine ⟨fun run hrun => hbefore run hrun [f] rfl f rfl, fun next hnext => ?_⟩
  cases after with
  | nil => cases hnext
  | cons run after =>
    cases run with
    | nil => exact absurd rfl (hnonempty [] (by simp))
    | cons g run => exact (isChain_cons_cons.mp hafter).1 next hnext

/-- The groups are the runs of at least two files, each of which fits; a file that is left out fits neither with the
run before it nor with the file after it. -/
theorem selectMerges_packs (dbId tableId : Nat) (files : List ParquetFile) (coldBefore : Int)
    (config : CompactionConfig) :
    ∃ sorted runs,
      sorted.Perm (files.filter fun f => f.chunkTime < coldBefore ∧ f.sizeBytes < config.maxInputSizeBytes) ∧
      sorted.Pairwise mergedBefore ∧ Packed config sorted runs ∧
      selectMerges dbId tableId files coldBefore config =
        (runs.filter fun inputs => inputs.length ≥ 2).map (fun inputs => ⟨dbId, tableId, inputs⟩) ∧
      ((selectMerges dbId tableId files coldBefore config).flatMap MergeGroup.inputs).Sublist sorted ∧
      ∀ g ∈ selectMerges dbId tableId files coldBefore config, 2 ≤ g.inputs.length ∧ Fits config g.inputs := by
  obtain ⟨sorted, runs, hperm, hsorted, hpacked, hgroups⟩ : ∃ sorted runs,
      sorted.Perm (files.filter fun f => f.chunkTime < coldBefore ∧ f.sizeBytes < config.maxInputSizeBytes) ∧
      sorted.Pairwise mergedBefore ∧ Packed config sorted runs ∧
      selectMerges dbId tableId files coldBefore config =
        (runs.filter fun inputs => inputs.length ≥ 2).map (fun inputs => ⟨dbId, tableId, inputs⟩) := by
    unfold selectMerges
    generalize files.filter _ = eligible
    have hempty : Packing.Greedy config ⟨[], [], 0⟩ := ⟨rfl, by simp, by simp, .singleton _, fun _ => rfl⟩
    have hpacked :=
        (List.foldlRecOn (motive := (Packing.Greedy config ·)) (eligible.insertionSort mergedBefore) _ hempty
      fun p h file _ => h.add file).packed
    rw [flatten_foldl_add] at hpacked
    refine ⟨_, _, perm_insertionSort mergedBefore eligible, pairwise_insertionSort mergedBefore eligible, hpacked, ?_⟩
    dsimp only
    split
    · next hshort =>
      refine (map_eq_nil_iff.mpr (filter_eq_nil_iff.mpr fun run hrun => ?_)).symm
      have hlen := (sublist_flatten_of_mem hrun).length_le
      rw [hpacked.flatten, show Packing.finish ⟨[], [], 0⟩ = [] from rfl, flatten_nil, nil_append,
        length_insertionSort] at hlen
      simp only [ge_iff_le, decide_eq_true_eq, not_le]
      omega
    · rfl
  refine ⟨sorted, runs, hperm, hsorted, hpacked, hgroups, ?_, fun g hg => ?_⟩
  · rw [hgroups, flatMap_map, ← hpacked.flatten, flatMap_def, map_id']
    exact filter_sublist.flatten
  · rw [hgroups] at hg
    obtain ⟨inputs, hinputs, rfl⟩ := mem_map.mp hg
    obtain ⟨hrun, hlen⟩ := mem_filter.mp hinputs
    exact ⟨of_decide_eq_true hlen, hpacked.fits inputs hrun (of_decide_eq_true hlen)⟩

end VarveDB.Compactor
