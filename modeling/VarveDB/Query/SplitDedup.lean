import VarveDB.Library.Sweep
import VarveDB.Wal.Node

/-! The `SplitDedup` rule: which chunks of a query are deduplicated together, and which rows
the plan then returns. -/
namespace VarveDB.Query
open Library List

inductive PartitionKey where
  | window (chunkTime : Int)
  | peerBuffer (peerId : String)
  deriving DecidableEq

structure PartitionId where
  tableId : Nat
  key : PartitionKey
  deriving DecidableEq

/-- A row held by a buffer or a file: its primary key, the node it was written to and the number
of its write there. -/
structure Point where
  row : Wal.Row
  node : String
  written : Nat
  deriving DecidableEq

variable (rows : List Point)

def lastOfKey : List Point := rows.pwFilter fun p q => p.row ≠ q.row

theorem nodup_lastOfKey : ((lastOfKey rows).map Point.row).Nodup :=
  pairwise_map.mpr (pairwise_pwFilter rows)

variable {p : Point}

private theorem exists_mem_lastOfKey {rows : List Point} (hp : p ∈ rows) : ∃ q ∈ lastOfKey rows, q.row = p.row := by
  by_contra hnone
  have hall : ∀ q ∈ lastOfKey rows, p.row ≠ q.row := fun q hq heq => hnone ⟨q, hq, heq.symm⟩
  refine (forall_mem_pwFilter (R := fun p q : Point => p.row ≠ q.row) ?_ p rows).mp hall p hp rfl
  intro x y z hxz
  by_contra hsame
  obtain ⟨hxy, hyz⟩ := not_or.mp hsame
  exact hxz ((not_not.mp hxy).trans (not_not.mp hyz))

structure QueryChunk where
  id : Nat
  partitionId : PartitionId
  timestampMinMax : Option (Int × Int)
  mayContainPkDuplicates : Bool
  chunkOrder : Int
  rows : List Point
  deriving DecidableEq

variable (chunks : List QueryChunk) (groups : List GroupWithDedupFlag)
  (st : List GroupWithDedupFlag × Option GroupWithDedupFlag)

/-- One group per partition; the order of the groups is settled by a later sort. -/
def splitByPartition : List (List QueryChunk) :=
  (chunks.map QueryChunk.partitionId).dedup.map fun p => chunks.filter fun c => c.partitionId = p

def groupPotentialDuplicates : List (List QueryChunk) :=
  if chunks.any fun c => c.timestampMinMax.isNone then [chunks]
  else Sweep.sweep (fun c => c.timestampMinMax.getD (0, 0)) chunks

structure GroupWithDedupFlag where
  group : List QueryChunk
  needsDedup : Bool

def detectDedupRequirement (groups : List (List QueryChunk)) : List GroupWithDedupFlag :=
  groups.map fun group =>
    let noDedup := group.length < 2 && group.all fun c => !c.mayContainPkDuplicates
    ⟨group, !noDedup⟩

def fuse (g : GroupWithDedupFlag) : List GroupWithDedupFlag × Option GroupWithDedupFlag :=
  match st.2 with
  | none => (st.1, some g)
  | some current =>
    if current.needsDedup || g.needsDedup then (st.1 ++ [current], some g)
    else (st.1, some { current with group := current.group ++ g.group })

def fuseGroups : List GroupWithDedupFlag :=
  let st := groups.foldl fuse ([], none)
  st.1 ++ st.2.toList

def potentialGroups : List (List QueryChunk) :=
  (splitByPartition chunks).flatMap groupPotentialDuplicates

def flaggedGroups : List GroupWithDedupFlag :=
  detectDedupRequirement (potentialGroups chunks)

/-- A plan of the rule. The sort goes by chunk ids and partition hashes, so it may leave the
groups in any order. -/
def Planned (plan : List GroupWithDedupFlag) : Prop :=
  ∃ sorted : List GroupWithDedupFlag, sorted.Perm (flaggedGroups chunks) ∧ plan = fuseGroups sorted

def GroupWithDedupFlag.output (g : GroupWithDedupFlag) : List Point :=
  if g.needsDedup then
    lastOfKey ((g.group.insertionSort fun c c' => c.chunkOrder ≤ c'.chunkOrder).flatMap QueryChunk.rows)
  else g.group.flatMap QueryChunk.rows

open GroupWithDedupFlag (output)

def QueryChunk.Covered (c : QueryChunk) : Prop :=
  ∀ range ∈ c.timestampMinMax, range.1 ≤ range.2 ∧ ∀ p ∈ c.rows, range.1 ≤ p.row.time ∧ p.row.time ≤ range.2

structure QueryChunk.Sound (c : QueryChunk) : Prop where
  covers : c.Covered
  nodup : c.mayContainPkDuplicates = false → (c.rows.map Point.row).Nodup

def ShareKey (rows rows' : List Point) : Prop := ∃ p ∈ rows, ∃ q ∈ rows', p.row = q.row

instance (rows rows' : List Point) : Decidable (ShareKey rows rows') :=
  inferInstanceAs (Decidable (∃ p ∈ rows, ∃ q ∈ rows', p.row = q.row))

def QueryChunk.Share (c c' : QueryChunk) : Prop := ShareKey c.rows c'.rows

def DedupTogether (plan : List GroupWithDedupFlag) (c c' : QueryChunk) : Prop :=
  ∃ g ∈ plan, c ∈ g.group ∧ c' ∈ g.group ∧ g.needsDedup = true

/-- Every plan deduplicates chunks that share a key together and returns each key once. -/
structure Deduplicated (chunks : List QueryChunk) : Prop where
  together : ∀ plan, Planned chunks plan → ∀ c ∈ chunks, ∀ c' ∈ chunks, c ≠ c' → c.Share c' → DedupTogether plan c c'
  nodup : ∀ plan, Planned chunks plan → ((plan.flatMap GroupWithDedupFlag.output).map Point.row).Nodup

variable {g : GroupWithDedupFlag}

section Fuse

private theorem fuse_spec (g : GroupWithDedupFlag) : ((fuse st g).1 ++ (fuse st g).2.toList).flatMap output =
      (st.1 ++ st.2.toList ++ [g]).flatMap output ∧
    ∀ g', g'.needsDedup = true → (g' ∈ (fuse st g).1 ++ (fuse st g).2.toList ↔ g' ∈ st.1 ++ st.2.toList ++ [g]) := by
  unfold fuse
  split
  · rename_i hnone
    simp [hnone]
  · rename_i current hsome
    split
    · simp [hsome]
    · rename_i hflags
      simp only [Bool.or_eq_true, not_or, Bool.not_eq_true] at hflags
      refine ⟨by simp [hsome, output, hflags.1, hflags.2], fun g' hg' => ?_⟩
      have hne {h : GroupWithDedupFlag} (hh : h.needsDedup = false) : g' ≠ h :=
        fun heq => Bool.noConfusion (hg'.symm.trans (heq ▸ hh))
      simp [hsome, hne hflags.1, hne hflags.2, hne (h := { current with group := current.group ++ g.group }) hflags.1]

theorem foldl_fuse_spec : (fuseGroups groups).flatMap output = groups.flatMap output ∧
      ∀ g, g.needsDedup = true → (g ∈ fuseGroups groups ↔ g ∈ groups) := by
  induction groups using List.reverseRecOn with
  | nil => exact ⟨rfl, fun _ _ => Iff.rfl⟩
  | append_singleton groups g ih =>
    unfold fuseGroups at ih ⊢
    rw [foldl_append, foldl_cons, foldl_nil]
    obtain ⟨houtput, hmem⟩ := fuse_spec (groups.foldl fuse ([], none)) g
    exact ⟨by rw [houtput, flatMap_append, ih.1, flatMap_append],
      fun g' hg' => by rw [hmem g' hg', mem_append, ih.2 g' hg', mem_append]⟩

/-- Fusing changes neither the rows nor their order. -/
theorem output_fuseGroups : (fuseGroups groups).flatMap output = groups.flatMap output :=
  (foldl_fuse_spec groups).1

/-- Groups that are deduplicated come through fusing unchanged. -/
theorem mem_fuseGroups (hg : g.needsDedup = true) {groups : List GroupWithDedupFlag} :
    g ∈ fuseGroups groups ↔ g ∈ groups :=
  (foldl_fuse_spec groups).2 g hg

end Fuse

section Groups
variable {chunks group : List QueryChunk} {c c' : QueryChunk}

theorem mem_splitByPartition :
    group ∈ splitByPartition chunks ↔ ∃ c ∈ chunks, group = chunks.filter fun c' => c'.partitionId = c.partitionId := by
  simp [splitByPartition, eq_comm]

private theorem nodup_flatten_splitByPartition (h : chunks.Nodup) : (splitByPartition chunks).flatten.Nodup := by
  refine nodup_flatten.mpr ⟨fun group hgroup => ?_, ?_⟩
  · obtain ⟨c, -, rfl⟩ := mem_splitByPartition.mp hgroup
    exact h.filter _
  · refine pairwise_map.mpr ((nodup_dedup _).imp fun hne c hc hc' => hne ?_)
    simp only [mem_filter, decide_eq_true_eq] at hc hc'
    exact hc.2.symm.trans hc'.2

theorem range_valid (hrange : ¬chunks.any fun c => c.timestampMinMax.isNone)
    (hc : c ∈ chunks) : (c.timestampMinMax.getD (0, 0)) ∈ c.timestampMinMax := by
  simp only [any_eq_true, not_exists, not_and, Bool.not_eq_true, Option.isNone_eq_false_iff] at hrange
  obtain ⟨range, hsome⟩ := Option.isSome_iff_exists.mp (hrange c hc)
  simp [hsome]

section
variable (h : ∀ c ∈ chunks, c.Covered)
include h

theorem flatten_groupPotentialDuplicates_perm : (groupPotentialDuplicates chunks).flatten.Perm chunks := by
  unfold groupPotentialDuplicates
  split
  · simp
  · rename_i hrange
    exact Sweep.sweep_perm fun c hc => (h c hc _ (range_valid hrange hc)).1

/-- Chunks of one partition that share a key overlap in time. -/
theorem exists_group_of_share (hc : c ∈ chunks) (hc' : c' ∈ chunks) (hne : c ≠ c') (hshare : c.Share c') :
    ∃ group ∈ groupPotentialDuplicates chunks, c ∈ group ∧ c' ∈ group := by
  unfold groupPotentialDuplicates
  split
  · exact ⟨chunks, mem_singleton.mpr rfl, hc, hc'⟩
  · rename_i hrange
    obtain ⟨p, hp, q, hq, hkey⟩ := hshare
    have hcov := (h c hc _ (range_valid hrange hc)).2 p hp
    have hcov' := (h c' hc' _ (range_valid hrange hc')).2 q hq
    rw [hkey] at hcov
    exact Sweep.exists_group_of_overlap (fun c hc => (h c hc _ (range_valid hrange hc)).1) hc hc' hne
      (hcov.1.trans hcov'.2) (hcov'.1.trans hcov.2)

private theorem nodup_flatten_potentialGroups (hnodup : chunks.Nodup) : (potentialGroups chunks).flatten.Nodup := by
  have hperm : (potentialGroups chunks).flatten.Perm (splitByPartition chunks).flatten := by
    unfold potentialGroups
    rw [← flatMap_id, flatMap_assoc, ← flatMap_id]
    refine List.Perm.flatMap_left _ fun part hpart => ?_
    obtain ⟨c, -, rfl⟩ := mem_splitByPartition.mp hpart
    rw [flatMap_id]
    exact flatten_groupPotentialDuplicates_perm fun c' hc' => h c' (mem_of_mem_filter hc')
  exact hperm.nodup_iff.mpr (nodup_flatten_splitByPartition hnodup)

theorem mem_potentialGroups (hgroup : group ∈ potentialGroups chunks) (hc : c ∈ group) :
    c ∈ chunks ∧ ∀ c' ∈ group, c'.partitionId = c.partitionId := by
  obtain ⟨part, hpart, hgroup⟩ := mem_flatMap.mp hgroup
  obtain ⟨d, -, rfl⟩ := mem_splitByPartition.mp hpart
  have hmem {c' : QueryChunk} (hc' : c' ∈ group) : c' ∈ chunks ∧ c'.partitionId = d.partitionId := by
    simpa using (flatten_groupPotentialDuplicates_perm fun c' hc' => h c' (mem_of_mem_filter hc')).subset
      (mem_flatten.mpr ⟨group, hgroup, hc'⟩)
  exact ⟨(hmem hc).1, fun c' hc' => (hmem hc').2.trans (hmem hc).2.symm⟩

private theorem exists_potentialGroup (hc : c ∈ chunks) : ∃ group ∈ potentialGroups chunks, c ∈ group := by
  have hpart : (chunks.filter fun d => d.partitionId = c.partitionId) ∈ splitByPartition chunks :=
    mem_splitByPartition.mpr ⟨c, hc, rfl⟩
  have hperm := flatten_groupPotentialDuplicates_perm
    fun d (hd : d ∈ chunks.filter fun d => d.partitionId = c.partitionId) => h d (mem_of_mem_filter hd)
  obtain ⟨group, hgroup, hcg⟩ := mem_flatten.mp (hperm.symm.subset (show c ∈ _ by simp [hc]))
  exact ⟨group, mem_flatMap.mpr ⟨_, hpart, hgroup⟩, hcg⟩

/-- Chunks that share a key are in one group exactly if they are of one partition. -/
theorem exists_potentialGroup_iff (hc : c ∈ chunks) (hc' : c' ∈ chunks) (hne : c ≠ c') (hshare : c.Share c') :
    (∃ group ∈ potentialGroups chunks, c ∈ group ∧ c' ∈ group) ↔ c.partitionId = c'.partitionId := by
  constructor
  · rintro ⟨group, hgroup, hcg, hcg'⟩
    exact (mem_potentialGroups h hgroup hcg').2 c hcg
  · intro heq
    have hpart : (chunks.filter fun d => d.partitionId = c.partitionId) ∈ splitByPartition chunks :=
      mem_splitByPartition.mpr ⟨c, hc, rfl⟩
    obtain ⟨group, hgroup, hcg⟩ := exists_group_of_share
      (fun d (hd : d ∈ chunks.filter fun d => d.partitionId = c.partitionId) => h d (mem_of_mem_filter hd))
      (by simp [hc]) (by simp [hc', heq]) hne hshare
    exact ⟨group, mem_flatMap.mpr ⟨_, hpart, hgroup⟩, hcg⟩

end

end Groups

section Plans
variable {chunks : List QueryChunk} {plan : List GroupWithDedupFlag} {c c' : QueryChunk} {group : List QueryChunk}

/-- Two chunks are deduplicated together exactly if they are in one group. -/
theorem dedupTogether_iff (hplan : Planned chunks plan) (hne : c ≠ c') :
    DedupTogether plan c c' ↔ ∃ group ∈ potentialGroups chunks, c ∈ group ∧ c' ∈ group := by
  obtain ⟨sorted, hperm, rfl⟩ := hplan
  constructor
  · rintro ⟨g, hg, hc, hc', hflag⟩
    obtain ⟨group, hgroup, rfl⟩ := mem_map.mp (hperm.subset ((mem_fuseGroups hflag).mp hg))
    exact ⟨group, hgroup, hc, hc'⟩
  · rintro ⟨group, hgroup, hc, hc'⟩
    have hlen : ¬group.length < 2 := fun hlt => by
      match group, hlt with
      | [], _ => cases hc
      | [d], _ => exact hne ((mem_singleton.mp hc).trans (mem_singleton.mp hc').symm)
    have hflagged := hperm.symm.subset (mem_map.mpr ⟨group, hgroup, rfl⟩)
    have hflag : (!(decide (group.length < 2) && group.all fun c => !c.mayContainPkDuplicates)) = true := by simp [hlen]
    exact ⟨_, (mem_fuseGroups hflag).mpr hflagged, hc, hc', hflag⟩

private theorem exists_mem_output (hc : c ∈ g.group) (hp : p ∈ c.rows) : ∃ q ∈ g.output, q.row = p.row := by
  unfold output
  split
  · exact exists_mem_lastOfKey (mem_flatMap.mpr ⟨c, (mem_insertionSort _).mpr hc, hp⟩)
  · exact ⟨p, mem_flatMap.mpr ⟨c, hc, hp⟩, rfl⟩

theorem exists_chunk_of_mem_output (hp : p ∈ g.output) : ∃ c ∈ g.group, p ∈ c.rows := by
  unfold output at hp
  split at hp
  · obtain ⟨c, hc, hp⟩ := mem_flatMap.mp ((pwFilter_sublist _).subset hp)
    exact ⟨c, (mem_insertionSort _).mp hc, hp⟩
  · exact mem_flatMap.mp hp

/-- A plan returns rows of its chunks. -/
theorem exists_chunk_of_mem_plan (hcov : ∀ c ∈ chunks, c.Covered) (hplan : Planned chunks plan)
    (hp : p ∈ plan.flatMap output) : ∃ c ∈ chunks, p ∈ c.rows := by
  obtain ⟨sorted, hperm, rfl⟩ := hplan
  rw [output_fuseGroups] at hp
  obtain ⟨g, hg, hp⟩ := mem_flatMap.mp hp
  obtain ⟨group, hgroup, rfl⟩ := mem_map.mp (hperm.subset hg)
  obtain ⟨c, hc, hp⟩ := exists_chunk_of_mem_output hp
  exact ⟨c, (mem_potentialGroups hcov hgroup hc).1, hp⟩

/-- A plan returns every key of its chunks. -/
theorem exists_mem_plan (hcov : ∀ c ∈ chunks, c.Covered) (hplan : Planned chunks plan) (hc : c ∈ chunks)
    (hp : p ∈ c.rows) : ∃ q ∈ plan.flatMap output, q.row = p.row := by
  obtain ⟨sorted, hperm, rfl⟩ := hplan
  rw [output_fuseGroups]
  obtain ⟨group, hgroup, hcg⟩ := exists_potentialGroup hcov hc
  obtain ⟨q, hq, hkey⟩ := exists_mem_output (g := ⟨group, _⟩) hcg hp
  exact ⟨q, mem_flatMap.mpr ⟨_, hperm.symm.subset (mem_map.mpr ⟨group, hgroup, rfl⟩), hq⟩, hkey⟩

variable (h : ∀ c ∈ chunks, c.Sound)
include h

private theorem nodup_output_group (hgroup : group ∈ potentialGroups chunks) (flag : Bool)
    (hflag : flag = !(decide (group.length < 2) && group.all fun c => !c.mayContainPkDuplicates)) :
    ((output ⟨group, flag⟩).map Point.row).Nodup := by
  have hcov := fun c hc => (h c hc).covers
  unfold output
  split
  · exact nodup_lastOfKey _
  · rename_i hfalse
    simp only [hflag, Bool.not_eq_true, Bool.not_eq_false', Bool.and_eq_true, decide_eq_true_eq,
      all_eq_true] at hfalse
    match group, hfalse.1 with
    | [], _ => exact nodup_nil
    | [c], _ =>
      have hc := (mem_potentialGroups hcov hgroup mem_cons_self).1
      simpa using (h c hc).nodup (by simpa using hfalse.2)

variable (hnodup : chunks.Nodup)
include hnodup

/-- If keys are shared within partitions only, no plan returns a key twice. -/
theorem nodup_output
    (hpart : ∀ c ∈ chunks, ∀ c' ∈ chunks, c.Share c' → c.partitionId = c'.partitionId) (hplan : Planned chunks plan) :
    ((plan.flatMap output).map Point.row).Nodup := by
  have hcov := fun c hc => (h c hc).covers
  obtain ⟨sorted, hperm, rfl⟩ := hplan
  rw [output_fuseGroups, ((hperm.flatMap_right _).map _).nodup_iff, flaggedGroups, detectDedupRequirement,
    flatMap_map, map_flatMap]
  obtain ⟨-, hdisjoint⟩ := nodup_flatten.mp (nodup_flatten_potentialGroups hcov hnodup)
  refine nodup_flatMap.mpr ⟨fun group hgroup => nodup_output_group h hgroup _ rfl,
    hdisjoint.imp_of_mem fun {group group'} hg hg' hdis r hr hr' => ?_⟩
  obtain ⟨p, hp, rfl⟩ := mem_map.mp hr
  obtain ⟨q, hq, hkey⟩ := mem_map.mp hr'
  obtain ⟨c, hc, hp⟩ := exists_chunk_of_mem_output hp
  obtain ⟨c', hc', hq⟩ := exists_chunk_of_mem_output hq
  have hcmem := (mem_potentialGroups hcov hg hc).1
  have hcmem' := (mem_potentialGroups hcov hg' hc').1
  have hne : c ≠ c' := fun heq => hdis hc (heq ▸ hc')
  have hshare : c.Share c' := ⟨p, hp, q, hq, hkey.symm⟩
  obtain ⟨group'', hg'', hcg, hcg'⟩ := (exists_potentialGroup_iff hcov hcmem hcmem' hne hshare).mpr
    (hpart c hcmem c' hcmem' hshare)
  have hsame {g : List QueryChunk} {d : QueryChunk} (hgm : g ∈ potentialGroups chunks) (hd : d ∈ g)
      (hd'' : d ∈ group'') : g = group'' := by
    by_contra hne
    have : Std.Symm (List.Disjoint (α := QueryChunk)) := ⟨fun _ _ h => List.Disjoint.symm h⟩
    exact hdisjoint.forall hgm hg'' hne hd hd''
  exact hdis hc ((hsame hg hc hcg).trans (hsame hg' hc' hcg').symm ▸ hc)

/-- The rule deduplicates all there is to deduplicate exactly if chunks that share a key are
of one partition. -/
theorem deduplicated_iff :
    Deduplicated chunks ↔ ∀ c ∈ chunks, ∀ c' ∈ chunks, c.Share c' → c.partitionId = c'.partitionId := by
  have hcov := fun c hc => (h c hc).covers
  refine ⟨fun hded c hc c' hc' hshare => ?_, fun hpart => ⟨fun plan hplan c hc c' hc' hne hshare => ?_,
    fun plan hplan => nodup_output h hnodup hpart hplan⟩⟩
  · by_cases hne : c = c'
    · exact congrArg _ hne
    · have hplan : Planned chunks (fuseGroups (flaggedGroups chunks)) := ⟨_, .refl _, rfl⟩
      exact (exists_potentialGroup_iff hcov hc hc' hne hshare).mp
        ((dedupTogether_iff hplan hne).mp (hded.together _ hplan c hc c' hc' hne hshare))
  · exact (dedupTogether_iff hplan hne).mpr
      ((exists_potentialGroup_iff hcov hc hc' hne hshare).mpr (hpart c hc c' hc' hshare))

end Plans

end VarveDB.Query
