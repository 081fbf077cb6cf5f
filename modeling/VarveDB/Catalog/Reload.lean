import VarveDB.Catalog.FeatureGate

/-! One node that commits batches of records and writes checkpoints, and the catalog that a process loads from
what it stored. -/
namespace VarveDB.Catalog.Reload
open Library Runs List
open CatalogContent (committedFeatureLevel)

variable {κ ρ : Type} [CatalogContent κ ρ] {records : List ρ} (sequence catalogUuid : Nat)
  {files : String → Option (CatalogFile ρ)} {preload' : Option (InnerCatalog κ ρ)} {file : CatalogFile ρ} {depth : Nat}
  {r : ρ}

section Replay
variable {binary : Binary}

/-- The records that a catalog retains are not restores, and made it from a new catalog. -/
structure Replayable (binary : Binary) (c : InnerCatalog κ ρ) : Prop where
  restore_eq_none : ∀ r ∈ c.orderedRecords, CatalogContent.restore κ r = none
  replay : c.orderedRecords.foldlM (applyRecord binary) (.new binary c.catalogUuid, none) =
    .ok ({ c with sequence := 0 }, none)

theorem Replayable.new (catalogUuid : Nat) : Replayable binary (.new binary catalogUuid : InnerCatalog κ ρ) where
  restore_eq_none := nofun
  replay := rfl

variable {c c' : InnerCatalog κ ρ} {preload : Option (InnerCatalog κ ρ)}

/-- Applying a record that does not restore neither reads nor changes the header of the catalog. -/
theorem applyRecord_header
    (hrestore : CatalogContent.restore κ r = none) (h : applyRecord binary (c, preload) r = .ok (c', preload')) :
    preload' = preload ∧
      applyRecord binary ({ c with sequence, catalogUuid }, none) r =
        .ok ({ c' with sequence, catalogUuid }, none) := by
  obtain ⟨hknown, -, content, hcontent, ⟨⟩⟩ | ⟨-, hsome, -⟩ | ⟨hunknown, hsafe, ⟨⟩⟩ := of_applyRecord h
  · rw [applyRecord_known hknown hrestore, hcontent]
    exact ⟨rfl, rfl⟩
  · rw [hrestore] at hsome
    cases hsome
  · exact ⟨rfl, applyRecord_unknown hunknown hsafe⟩

private theorem foldlM_header (hrestore : ∀ r ∈ records, CatalogContent.restore κ r = none)
    (h : records.foldlM (applyRecord binary) (c, none) = .ok (c', none)) :
    records.foldlM (applyRecord binary) ({ c with sequence, catalogUuid }, none) =
      .ok ({ c' with sequence, catalogUuid }, none) := by
  induction records generalizing c with
  | nil =>
    cases h
    rfl
  | cons r records ih =>
    rw [foldlM_cons] at h ⊢
    obtain ⟨⟨m, preload⟩, hr, hrecords⟩ := bind_eq_ok.mp h
    obtain ⟨rfl, hr'⟩ := applyRecord_header sequence catalogUuid (hrestore r mem_cons_self) hr
    rw [hr', ok_bind]
    exact ih (fun r' hr' => hrestore r' (mem_cons_of_mem _ hr')) hrecords

section
variable (h : Replayable binary c)
include h

/-- The header of a catalog is not among what its records make. -/
theorem Replayable.withHeader : Replayable binary { c with sequence, catalogUuid } where
  restore_eq_none := h.restore_eq_none
  replay := foldlM_header 0 catalogUuid h.restore_eq_none h.replay

section
variable (hpreload : ∀ l ∈ preload, Replayable binary l)
include hpreload

/-- A record keeps the catalog replayable, together with the catalog that waits for a restore. -/
theorem Replayable.applyRecord (happly : applyRecord binary (c, preload) r = .ok (c', preload')) :
    Replayable binary c' ∧ ∀ l ∈ preload', Replayable binary l := by
  have retained (hrestore : CatalogContent.restore κ r = none)
      (hrecords : c'.orderedRecords = c.orderedRecords ++ [r]) (huuid : c'.catalogUuid = c.catalogUuid) :
      Replayable binary c' := by
    constructor
    · rw [hrecords]
      exact forall_mem_snoc.mpr ⟨h.restore_eq_none, hrestore⟩
    · rw [hrecords, huuid, foldlM_append, h.replay, ok_bind, foldlM_cons,
        (applyRecord_header 0 c.catalogUuid hrestore happly).2, ok_bind, foldlM_nil, ← huuid, ← hrecords]
      rfl
  obtain ⟨-, hrestore, content, -, ⟨⟩⟩ | ⟨-, -, l, hl, ⟨⟩⟩ | ⟨-, hsafe, ⟨⟩⟩ := of_applyRecord happly
  · exact ⟨retained hrestore rfl rfl, hpreload⟩
  · exact ⟨(hpreload l hl).withHeader l.sequence c.catalogUuid, nofun⟩
  · exact ⟨retained (CatalogContent.restore_eq_none_of_safe r hsafe) rfl rfl, hpreload⟩

theorem Replayable.applyRecords {sequence : Nat}
    (happly : applyRecords binary records c sequence preload = .ok c') : Replayable binary c' := by
  obtain ⟨⟨m, preload'⟩, hfold, ⟨⟩⟩ := bind_eq_ok.mp happly
  have hm : Replayable binary m ∧ ∀ l ∈ preload', Replayable binary l :=
    foldlM_invariant (P := fun x => Replayable binary x.1 ∧ ∀ l ∈ x.2, Replayable binary l)
      (fun _ _ _ _ hx hr => hx.1.applyRecord hx.2 hr) ⟨h, hpreload⟩ hfold
  exact hm.1.withHeader sequence m.catalogUuid

end

theorem Replayable.loadSnapshot (load : RestoreCatalog → Apply (InnerCatalog κ ρ)) :
    loadSnapshot binary load c.createSnapshot = .ok c := by
  have hnone : c.orderedRecords.filterMap (CatalogContent.restore κ) = [] := by
    rw [filterMap_eq_nil_iff]
    exact h.restore_eq_none
  simp only [Catalog.loadSnapshot, applyCatalogFile, InnerCatalog.createSnapshot, preloadRestore, hnone, ok_bind,
    Catalog.applyRecords, h.replay]

end

/-- The restores of a batch put back catalogs that are replayable, at the committed level of the
catalog they replace or above it. -/
def Restores (binary : Binary) (load : RestoreCatalog → Apply (InnerCatalog κ ρ)) (c : InnerCatalog κ ρ)
    (records : List ρ) : Prop :=
  ∀ r ∈ records, ∀ restore ∈ CatalogContent.restore κ r, ∀ loaded, load restore = .ok loaded →
    Replayable binary loaded ∧ committedFeatureLevel c.content ≤ committedFeatureLevel loaded.content

theorem Replayable.applyCatalogFile {load : RestoreCatalog → Apply (InnerCatalog κ ρ)}
    (h : Replayable binary c) (hrestores : Restores binary load c file.records)
    (happly : applyCatalogFile binary load c file = .ok c') : Replayable binary c' := by
  obtain ⟨preload, hpreload, hrecords⟩ := bind_eq_ok.mp happly
  refine h.applyRecords (fun l hl => ?_) hrecords
  cases hl
  unfold preloadRestore at hpreload
  split at hpreload
  · cases hpreload
  · rename_i restore hrestore
    obtain ⟨loaded, hload, ⟨⟩⟩ := bind_eq_ok.mp hpreload
    have hmem : restore ∈ file.records.filterMap (CatalogContent.restore κ) := hrestore ▸ mem_singleton_self _
    obtain ⟨r, hr, hrestore⟩ := mem_filterMap.mp hmem
    obtain ⟨hloaded, hlevel⟩ := hrestores r hr restore hrestore loaded hload
    -- The level of the backup stays as its records set it.
    have hraised : loaded.raised (committedFeatureLevel c.content) = loaded := by
      rw [InnerCatalog.raised, FeatureLevel.max_eq_left hlevel, CatalogContent.setFeatureLevel_self]
    rwa [hraised]
  · cases hpreload

end Replay

section Header
variable {binary : Binary} {load : RestoreCatalog → Apply (InnerCatalog κ ρ)} {c c' : InnerCatalog κ ρ}

/-- A file gives the catalog its sequence number and leaves the identity. -/
theorem header_of_applyCatalogFile (h : applyCatalogFile binary load c file = .ok c') :
    c'.sequence = file.sequenceNumber ∧ c'.catalogUuid = c.catalogUuid := by
  obtain ⟨preload, -, hrecords⟩ := bind_eq_ok.mp h
  obtain ⟨⟨m, preload'⟩, hfold, ⟨⟩⟩ := bind_eq_ok.mp hrecords
  exact ⟨rfl, foldlM_invariant (P := fun x => x.1.catalogUuid = c.catalogUuid)
    (fun _ _ _ _ hx hr => by
      obtain ⟨-, -, -, -, rfl⟩ | ⟨-, -, -, -, rfl⟩ | ⟨-, -, rfl⟩ := of_applyRecord hr <;> exact hx) rfl hfold⟩

end Header

section Backups

def PlainBackup (κ : Type) {ρ : Type} [CatalogContent κ ρ] (files : String → Option (CatalogFile ρ))
    (restore : RestoreCatalog) : Prop :=
  ∀ path ∈ restore.checkpointPath :: restore.logPaths, ∀ file ∈ files path,
    ∀ r ∈ file.records, CatalogContent.restore κ r = none

variable {c : InnerCatalog κ ρ} {binary : Binary}

private theorem restores_of_none {load : RestoreCatalog → Apply (InnerCatalog κ ρ)}
    (h : ∀ r ∈ records, CatalogContent.restore κ r = none) : Restores binary load c records := by
  intro r hr restore hrestore
  rw [h r hr] at hrestore
  cases hrestore

/-- What is loaded from a backup without restores is replayable. -/
theorem Replayable.of_backup {restore : RestoreCatalog} (hplain : PlainBackup κ files restore)
    (h : loadCatalogFromPaths binary files depth restore = .ok c) : Replayable binary c := by
  cases depth with
  | zero => cases h
  | succ depth =>
    simp only [loadCatalogFromPaths] at h
    split at h
    · cases h
    · rename_i snapshot hsnapshot
      obtain ⟨c₀, hc₀, hlogs⟩ := bind_eq_ok.mp h
      have h₀ : Replayable binary c₀ := (Replayable.new snapshot.catalogUuid).applyCatalogFile
        (restores_of_none (hplain _ mem_cons_self snapshot hsnapshot)) hc₀
      refine foldlM_invariant (fun m path m' hpath hm hlog => ?_) h₀ hlogs
      split at hlog
      · cases hlog
      · rename_i log hfile
        split at hlog
        · cases hlog
        · unfold replayLog at hlog
          split at hlog
          · cases hlog
          · have hmem := (perm_insertionSort (· ≤ ·) restore.logPaths).mem_iff.mp hpath
            exact hm.applyCatalogFile (restores_of_none (hplain path (mem_cons_of_mem _ hmem) log hfile)) hlog

end Backups

structure State (κ ρ : Type) where
  store : Store ρ
  live : InnerCatalog κ ρ
  checkpoint : Option (CatalogFile ρ)

inductive Action (ρ : Type) where
  | commit (records : List ρ)
  | beginCheckpoint
  | finishCheckpoint
  | failCheckpoint
  | restart

namespace State

variable (binary : Binary) (load : RestoreCatalog → Apply (InnerCatalog κ ρ)) (s : State κ ρ)

def create (catalogUuid : Nat) (initial : List ρ) : Option (State κ ρ) := do
  let live ← (applyRecords binary initial (.new binary catalogUuid) 0 none).toOption
  some ⟨⟨some live.createSnapshot, []⟩, live, none⟩

def commit (records : List ρ) : Option (State κ ρ) := do
  (checkBatchAgainstCommitted κ records (committedFeatureLevel s.live.content)).toOption
  let file := ⟨s.live.catalogUuid, s.live.sequence + 1, records⟩
  let live ← (applyCatalogFile binary load s.live file).toOption
  some { s with live, store := { s.store with logs := s.store.logs ++ [file] } }

def step : Action ρ → Option (State κ ρ)
  | .commit records => s.commit binary load records
  | .beginCheckpoint =>
    if s.checkpoint = none then some { s with checkpoint := some s.live.createSnapshot } else none
  | .finishCheckpoint => do
    let snapshot ← s.checkpoint
    some { s with store := { s.store with snapshot := some snapshot }, checkpoint := none }
  | .failCheckpoint => some { s with checkpoint := none }
  | .restart => do
    let live ← (← (loadCatalog binary load s.store).toOption)
    some { s with live, checkpoint := none }

/-- A backup that is restored has no restore in its files, and its committed level is not below that
of the catalog it replaces. -/
def Forward (files : String → Option (CatalogFile ρ)) (depth : Nat) (s : State κ ρ) : Action ρ → Prop
  | .commit records => ∀ r ∈ records, ∀ restore ∈ CatalogContent.restore κ r, PlainBackup κ files restore ∧
      ∀ loaded ∈ (loadCatalogFromPaths binary files depth restore : Apply (InnerCatalog κ ρ)).toOption,
        committedFeatureLevel s.live.content ≤ committedFeatureLevel loaded.content
  | _ => True

instance (files : String → Option (CatalogFile ρ)) (restore : RestoreCatalog) :
    Decidable (PlainBackup κ files restore) :=
  inferInstanceAs (Decidable (∀ path ∈ _, ∀ file ∈ _, ∀ r ∈ _, _))

instance (binary : Binary) (files : String → Option (CatalogFile ρ)) (depth : Nat) (s : State κ ρ) (a : Action ρ) :
    Decidable (s.Forward binary files depth a) := by
  cases a <;> dsimp only [State.Forward] <;> infer_instance

/-- The snapshot is of a catalog that the log files after it lead from to the live one. -/
def Covered (snapshot : CatalogFile ρ) : Prop :=
  ∃ c : InnerCatalog κ ρ, snapshot = c.createSnapshot ∧ Replayable binary c ∧ c.catalogUuid = s.live.catalogUuid ∧
    c.sequence ≤ s.live.sequence ∧
    (s.store.logs.filter (c.sequence < ·.sequenceNumber)).foldlM (replayLog binary load c.catalogUuid) c = .ok s.live

structure Inv (binary : Binary) (load : RestoreCatalog → Apply (InnerCatalog κ ρ)) (s : State κ ρ) : Prop where
  live : Replayable binary s.live
  logs_le : ∀ file ∈ s.store.logs, file.sequenceNumber ≤ s.live.sequence
  snapshot : ∃ snapshot, s.store.snapshot = some snapshot ∧ s.Covered binary load snapshot
  checkpoint : ∀ snapshot ∈ s.checkpoint, s.Covered binary load snapshot

section
variable {binary : Binary} {load : RestoreCatalog → Apply (InnerCatalog κ ρ)} {s s' : State κ ρ}

private theorem covered_live (hlive : Replayable binary s.live)
    (hlogs : ∀ file ∈ s.store.logs, file.sequenceNumber ≤ s.live.sequence) :
    s.Covered binary load s.live.createSnapshot := by
  refine ⟨s.live, rfl, hlive, rfl, le_rfl, ?_⟩
  have hnone : s.store.logs.filter (s.live.sequence < ·.sequenceNumber) = [] := by
    rw [filter_eq_nil_iff]
    intro file hfile
    simpa using hlogs file hfile
  rw [hnone, foldlM_nil]
  rfl

/-- The node's own catalog is what its store gives. -/
theorem Inv.loadCatalog (h : s.Inv binary load) : loadCatalog binary load s.store = .ok (some s.live) := by
  obtain ⟨snapshot, hsnapshot, c, rfl, hc, -, -, hlogs⟩ := h.snapshot
  simp only [Catalog.loadCatalog, hsnapshot, hc.loadSnapshot load, ok_bind]
  rw [show c.createSnapshot.catalogUuid = c.catalogUuid from rfl, hlogs, ok_bind]

theorem Inv.create {catalogUuid : Nat} {initial : List ρ} (h : create binary catalogUuid initial = some s) :
    s.Inv binary load := by
  obtain ⟨live, hlive, ⟨⟩⟩ := bind_eq_some_iff.mp h
  have hreplay : Replayable binary live :=
    (Replayable.new catalogUuid).applyRecords (fun l (hl : l ∈ none) => nomatch hl) (toOption_eq_some.mp hlive)
  exact ⟨hreplay, nofun, ⟨_, rfl, covered_live hreplay nofun⟩, nofun⟩

private theorem Inv.commit (h : s.Inv binary load) (hrestores : Restores binary load s.live records)
    (hcommit : s.commit binary load records = some s') : s'.Inv binary load := by
  obtain ⟨-, -, hcommit⟩ := bind_eq_some_iff.mp hcommit
  obtain ⟨live, happly, ⟨⟩⟩ := bind_eq_some_iff.mp hcommit
  replace happly := toOption_eq_some.mp happly
  obtain ⟨hseq, huuid⟩ := header_of_applyCatalogFile happly
  dsimp only at hseq
  have covered (snapshot : CatalogFile ρ) (hcovered : s.Covered binary load snapshot) : Covered binary load { s with
        live, store := { s.store with logs := s.store.logs ++ [⟨s.live.catalogUuid, s.live.sequence + 1, records⟩] } }
        snapshot := by
    obtain ⟨c, hc, hreplay, hcuuid, hle, hlogs⟩ := hcovered
    refine ⟨c, hc, hreplay, hcuuid.trans huuid.symm, by dsimp only; omega, ?_⟩
    have hlt : c.sequence < s.live.sequence + 1 := by omega
    rw [filter_append, foldlM_append, hlogs, ok_bind]
    simp only [filter_cons, filter_nil, hlt, decide_true, if_true, foldlM_cons, foldlM_nil, replayLog, hcuuid, ne_eq,
      not_true_eq_false, if_false, happly, ok_bind]
    rfl
  obtain ⟨snapshot, hsnapshot, hcovered⟩ := h.snapshot
  refine ⟨h.live.applyCatalogFile hrestores happly, forall_mem_snoc.mpr ⟨fun file hfile => ?_, hseq.ge⟩,
    ⟨snapshot, hsnapshot, covered _ hcovered⟩, fun snapshot hsnapshot => covered _ (h.checkpoint _ hsnapshot)⟩
  have := h.logs_le file hfile
  dsimp only
  omega

theorem Inv.step {a : Action ρ}
    (h : s.Inv binary (loadCatalogFromPaths binary files depth)) (hforward : s.Forward binary files depth a)
    (hstep : s.step binary (loadCatalogFromPaths binary files depth) a = some s') :
    s'.Inv binary (loadCatalogFromPaths binary files depth) := by
  cases a with
  | commit records =>
    refine h.commit (fun r hr restore hrestore loaded hloaded => ?_) hstep
    obtain ⟨hplain, hlevel⟩ := hforward r hr restore hrestore
    exact ⟨.of_backup hplain hloaded, hlevel loaded (toOption_eq_some.mpr hloaded)⟩
  | beginCheckpoint =>
    obtain ⟨-, ⟨⟩⟩ := ite_none_right_eq_some.mp hstep
    exact ⟨h.live, h.logs_le, h.snapshot, fun snapshot hsnapshot => some.inj hsnapshot ▸ covered_live h.live h.logs_le⟩
  | finishCheckpoint =>
    obtain ⟨snapshot, hsnapshot, ⟨⟩⟩ := bind_eq_some_iff.mp hstep
    exact { h with snapshot := ⟨snapshot, rfl, h.checkpoint snapshot hsnapshot⟩, checkpoint := nofun }
  | failCheckpoint =>
    cases hstep
    exact { h with checkpoint := nofun }
  | restart =>
    simp only [State.step, h.loadCatalog, Except.toOption] at hstep
    cases hstep
    exact { h with checkpoint := nofun }

end

section
variable {binary loader : Binary}

section
variable (h : binary.featureLevel = loader.featureLevel)
include h

theorem applyRecord_congr :
    (applyRecord binary : InnerCatalog κ ρ × Option (InnerCatalog κ ρ) → ρ → _) = applyRecord loader := by
  funext ⟨c, preload⟩ r
  simp only [applyRecord, validateRecordFlags, Binary.mem_registry_congr h]

private theorem new_congr (catalogUuid : Nat) :
    (InnerCatalog.new binary catalogUuid : InnerCatalog κ ρ) = .new loader catalogUuid := by
  simp only [InnerCatalog.new, h]

private theorem loadCatalogFromPaths_congr (files : String → Option (CatalogFile ρ)) (depth : Nat) :
    (loadCatalogFromPaths binary files depth : RestoreCatalog → Apply (InnerCatalog κ ρ)) =
      loadCatalogFromPaths loader files depth := by
  induction depth with
  | zero => rfl
  | succ depth ih =>
    funext restore
    simp only [loadCatalogFromPaths, loadSnapshot, replayLog, applyCatalogFile, applyRecords, applyRecord_congr h,
      new_congr h, ih]

private theorem loadCatalog_congr (load : RestoreCatalog → Apply (InnerCatalog κ ρ)) (store : Store ρ) :
    loadCatalog binary load store = loadCatalog loader load store := by
  have hreplay : replayLog binary load = replayLog loader load := by
    funext catalogUuid c file
    simp only [replayLog, applyCatalogFile, applyRecords, applyRecord_congr h]
  simp only [loadCatalog, loadSnapshot, applyCatalogFile, applyRecords, applyRecord_congr h, new_congr h, hreplay]

end

end

/-- As long as no restore goes back in the committed level, a binary of the node's level loads the
catalog that the node has, in every field. -/
theorem load_eq_live_of_forward_run {binary loader : Binary} (hlevel : binary.featureLevel = loader.featureLevel)
    {files : String → Option (CatalogFile ρ)} {depth : Nat} {catalogUuid : Nat} {initial : List ρ} {start s : State κ ρ}
    (hcreate : create binary catalogUuid initial = some start) {as : List (Action ρ)}
    (hforward : Guarded (step binary (loadCatalogFromPaths binary files depth)) (Forward binary files depth) start as)
    (hrun : run (step binary (loadCatalogFromPaths binary files depth)) start as = some s) :
    loadCatalog loader (loadCatalogFromPaths loader files depth) s.store = .ok (some s.live) := by
  have hinv : s.Inv binary (loadCatalogFromPaths binary files depth) :=
    invariant Inv.step (Inv.create hcreate) hforward hrun
  rw [← loadCatalogFromPaths_congr hlevel, ← loadCatalog_congr hlevel]
  exact hinv.loadCatalog

section Examples
open FeatureGate (Record)

private def current : Binary := FeatureGate.State.newer

private def newCatalog : Option (State ClusterCatalog Record) := create current 7 [.other .setStorageMode false]

private def backupFiles (path : String) : Option (CatalogFile Record) :=
  if path = "created/snapshot" then some ⟨7, 0, [.other .setStorageMode false]⟩
  else if path = "older/snapshot" then
    some ⟨3, 1, [.other .setStorageMode false, .cluster (.advanceFeatureLevel ⟨⟨46, 9⟩⟩)]⟩
  else none

private def restoreFrom (checkpointPath : String) : Record := .restore ⟨checkpointPath, []⟩

private def commitAndRun (as : List (Action Record)) (start : State ClusterCatalog Record) :
    Option (State ClusterCatalog Record) :=
  run (step current (loadCatalogFromPaths current backupFiles 1)) start as

private def restoredSameLevel : List (Action Record) :=
  [.commit [.cluster (.advanceFeatureLevel ⟨⟨47, 9⟩⟩)], .beginCheckpoint, .commit [restoreFrom "created/snapshot"],
    .finishCheckpoint, .commit [.other (.core 30) true]]

theorem load_eq_live_of_restored_same_level : ∃ start s, newCatalog = some start ∧
    commitAndRun restoredSameLevel start = some s ∧ s.store.logs.length = 3 ∧
    loadCatalog current (loadCatalogFromPaths current backupFiles 1) s.store = .ok (some s.live) := by
  obtain ⟨start, hstart, hforward, s, hrun, hlogs⟩ : ∃ start, newCatalog = some start ∧
      Guarded (step current (loadCatalogFromPaths current backupFiles 1)) (Forward current backupFiles 1) start
        restoredSameLevel ∧
      ∃ s, commitAndRun restoredSameLevel start = some s ∧ s.store.logs.length = 3 := by decide +kernel
  exact ⟨start, s, hstart, hrun, hlogs, load_eq_live_of_forward_run rfl hstart hforward hrun⟩

private def restoredOlder : List (Action Record) :=
  [.commit [restoreFrom "older/snapshot"], .beginCheckpoint, .finishCheckpoint]

/-- The node keeps its level at the restore, but what it stored loads with the level of the backup. -/
theorem restore_loses_committed_level :
    ∃ start s, ∃ loaded : InnerCatalog ClusterCatalog Record, newCatalog = some start ∧
    commitAndRun restoredOlder start = some s ∧
    loadCatalog current (loadCatalogFromPaths current backupFiles 1) s.store = .ok (some loaded) ∧
    committedFeatureLevel s.live.content = ⟨47, 9⟩ ∧ committedFeatureLevel loaded.content = ⟨46, 9⟩ := by
  obtain ⟨start, hstart, s, hrun, _, hload, loaded, rfl, hlevels⟩ : ∃ start, newCatalog = some start ∧
      ∃ s, commitAndRun restoredOlder start = some s ∧
      ∃ o, loadCatalog current (loadCatalogFromPaths current backupFiles 1) s.store = .ok o ∧
      ∃ loaded : InnerCatalog ClusterCatalog Record, o = some loaded ∧
        committedFeatureLevel s.live.content = ⟨47, 9⟩ ∧
          committedFeatureLevel loaded.content = ⟨46, 9⟩ := by decide +kernel
  exact ⟨start, s, loaded, hstart, hrun, hload, hlevels⟩

end Examples
end State
end VarveDB.Catalog.Reload
