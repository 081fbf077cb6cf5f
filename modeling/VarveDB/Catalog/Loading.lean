import VarveDB.Catalog.Error
import VarveDB.Library.Results

/-! The catalog in memory with the records that made it. What it holds and what its records do to that are
left open. -/
namespace VarveDB.Catalog
open Library

structure RestoreCatalog where
  checkpointPath : String
  logPaths : List String
  deriving DecidableEq

class CatalogContent (κ : Type) (ρ : outParam Type) where
  empty : FeatureLevel → κ
  committedFeatureLevel : κ → FeatureLevel
  setFeatureLevel : κ → FeatureLevel → κ
  id : ρ → RecordId
  isUpgradeSafe : ρ → Bool
  restore : ρ → Option RestoreCatalog
  apply : ρ → κ → Apply κ
  setFeatureLevel_self : ∀ c, setFeatureLevel c (committedFeatureLevel c) = c
  /-- A restore is not skipped by a binary that does not have it. -/
  restore_eq_none_of_safe : ∀ r, isUpgradeSafe r = true → restore r = none

structure CatalogFile (ρ : Type) where
  catalogUuid : Nat
  sequenceNumber : Nat
  records : List ρ
  deriving DecidableEq

@[ext]
structure InnerCatalog (κ ρ : Type) where
  sequence : Nat
  catalogUuid : Nat
  content : κ
  orderedRecords : List ρ
  deriving DecidableEq

section
variable {κ ρ : Type} [CatalogContent κ ρ]
open CatalogContent (committedFeatureLevel)

def InnerCatalog.new (binary : Binary) (catalogUuid : Nat) : InnerCatalog κ ρ :=
  ⟨0, catalogUuid, CatalogContent.empty binary.featureLevel, []⟩

def InnerCatalog.createSnapshot (c : InnerCatalog κ ρ) : CatalogFile ρ := ⟨c.catalogUuid, c.sequence, c.orderedRecords⟩

def validateRecordFlags (κ : Type) {ρ : Type} [CatalogContent κ ρ] (binary : Binary) (r : ρ) : Apply Bool :=
  if CatalogContent.id κ r ∈ binary.registry then .ok true
  else if CatalogContent.isUpgradeSafe κ r then .ok false
  else .error (.error s!"unknown record id {(CatalogContent.id κ r).raw} without UPGRADE_SAFE flag")

/-- One round of the loop over a batch; a restore takes the catalog that was loaded for it but
keeps the identity, and its record is not retained. -/
def applyRecord (binary : Binary) : InnerCatalog κ ρ × Option (InnerCatalog κ ρ) → ρ →
    Apply (InnerCatalog κ ρ × Option (InnerCatalog κ ρ))
  | (c, preload), r => do
    let known ← validateRecordFlags κ binary r
    if known then
      match CatalogContent.restore κ r, preload with
      | some _, some loaded => .ok ({ loaded with catalogUuid := c.catalogUuid }, none)
      | some _, none => .error (.error <|
          "RestoreCatalog record encountered without object-store access (sync apply path): " ++
          "the catalog cannot reload backup state from here — use the async apply path")
      | none, _ => do
        let content ← CatalogContent.apply r c.content
        .ok ({ c with content, orderedRecords := c.orderedRecords ++ [r] }, preload)
    else .ok ({ c with orderedRecords := c.orderedRecords ++ [r] }, preload)

section Cases
variable {binary : Binary} {c : InnerCatalog κ ρ} {preload : Option (InnerCatalog κ ρ)} {r : ρ}

section
variable (hknown : CatalogContent.id κ r ∈ binary.registry)
include hknown

/-- A record that the binary has and that does not restore is applied and retained. -/
theorem applyRecord_known (hrestore : CatalogContent.restore κ r = none) :
    applyRecord binary (c, preload) r = (CatalogContent.apply r c.content >>= fun content =>
      .ok ({ c with content, orderedRecords := c.orderedRecords ++ [r] }, preload)) := by
  simp only [applyRecord, validateRecordFlags, if_pos hknown, ok_bind, if_true, hrestore]

/-- A restore takes what was loaded for it. -/
theorem applyRecord_restore {loaded : InnerCatalog κ ρ} {restore : RestoreCatalog}
    (hrestore : CatalogContent.restore κ r = some restore) :
    applyRecord binary (c, some loaded) r = .ok ({ loaded with catalogUuid := c.catalogUuid }, none) := by
  simp only [applyRecord, validateRecordFlags, if_pos hknown, ok_bind, if_true, hrestore]

end

/-- A record that the binary does not have is skipped and retained if it is safe. -/
theorem applyRecord_unknown (hunknown : CatalogContent.id κ r ∉ binary.registry)
    (hsafe : CatalogContent.isUpgradeSafe κ r = true) :
    applyRecord binary (c, preload) r = .ok ({ c with orderedRecords := c.orderedRecords ++ [r] }, preload) := by
  simp only [applyRecord, validateRecordFlags, if_neg hunknown, if_pos hsafe, ok_bind, Bool.false_eq_true, if_false]

/-- The ways in which a record applies. -/
theorem of_applyRecord {x : InnerCatalog κ ρ × Option (InnerCatalog κ ρ)}
    (h : applyRecord binary (c, preload) r = .ok x) :
    (CatalogContent.id κ r ∈ binary.registry ∧ CatalogContent.restore κ r = none ∧
      ∃ content, CatalogContent.apply r c.content = .ok content ∧
        x = ({ c with content, orderedRecords := c.orderedRecords ++ [r] }, preload)) ∨
    (CatalogContent.id κ r ∈ binary.registry ∧ (CatalogContent.restore κ r).isSome = true ∧
      ∃ loaded, preload = some loaded ∧ x = ({ loaded with catalogUuid := c.catalogUuid }, none)) ∨
    CatalogContent.id κ r ∉ binary.registry ∧ CatalogContent.isUpgradeSafe κ r = true ∧
      x = ({ c with orderedRecords := c.orderedRecords ++ [r] }, preload) := by
  by_cases hknown : CatalogContent.id κ r ∈ binary.registry
  · cases hrestore : CatalogContent.restore κ r with
    | none =>
      rw [applyRecord_known hknown hrestore] at h
      obtain ⟨content, hcontent, hx⟩ := bind_eq_ok.mp h
      exact .inl ⟨hknown, rfl, content, hcontent, (Except.ok.inj hx).symm⟩
    | some restore =>
      cases preload with
      | none =>
        simp only [applyRecord, validateRecordFlags, if_pos hknown, ok_bind, if_true, hrestore] at h
        cases h
      | some loaded =>
        rw [applyRecord_restore hknown hrestore] at h
        exact .inr (.inl ⟨hknown, rfl, loaded, rfl, (Except.ok.inj h).symm⟩)
  · by_cases hsafe : CatalogContent.isUpgradeSafe κ r = true
    · rw [applyRecord_unknown hknown hsafe] at h
      exact .inr (.inr ⟨hknown, hsafe, (Except.ok.inj h).symm⟩)
    · simp only [applyRecord, validateRecordFlags, if_neg hknown, if_neg hsafe] at h
      cases h

end Cases

def applyRecords (binary : Binary) (records : List ρ) (c : InnerCatalog κ ρ) (sequence : Nat)
    (preload : Option (InnerCatalog κ ρ)) : Apply (InnerCatalog κ ρ) := do
  let (c, _) ← records.foldlM (applyRecord binary) (c, preload)
  .ok { c with sequence }

def InnerCatalog.raised (c : InnerCatalog κ ρ) (level : FeatureLevel) : InnerCatalog κ ρ :=
  { c with content := CatalogContent.setFeatureLevel c.content ((committedFeatureLevel c.content).max level) }

def preloadRestore (load : RestoreCatalog → Apply (InnerCatalog κ ρ)) (records : List ρ) (committed : FeatureLevel) :
    Apply (Option (InnerCatalog κ ρ)) :=
  match records.filterMap (CatalogContent.restore κ) with
  | [] => .ok none
  | [restore] => do
    let loaded ← load restore
    .ok (some (loaded.raised committed))
  | _ => .error (.error "failed to load restore source: batch contains more than one RestoreCatalog record")

def applyCatalogFile (binary : Binary) (load : RestoreCatalog → Apply (InnerCatalog κ ρ)) (c : InnerCatalog κ ρ)
    (file : CatalogFile ρ) : Apply (InnerCatalog κ ρ) := do
  let preload ← preloadRestore load file.records (committedFeatureLevel c.content)
  applyRecords binary file.records c file.sequenceNumber preload

def replayLog (binary : Binary) (load : RestoreCatalog → Apply (InnerCatalog κ ρ)) (catalogUuid : Nat)
    (c : InnerCatalog κ ρ) (file : CatalogFile ρ) : Apply (InnerCatalog κ ρ) :=
  if file.catalogUuid ≠ catalogUuid then
    .error (.error s!"catalog uuid mismatch at log sequence {file.sequenceNumber}")
  else applyCatalogFile binary load c file

def loadSnapshot (binary : Binary) (load : RestoreCatalog → Apply (InnerCatalog κ ρ)) (snapshot : CatalogFile ρ) :
    Apply (InnerCatalog κ ρ) :=
  applyCatalogFile binary load (.new binary snapshot.catalogUuid) snapshot

/-- Sequence numbers must follow each other. Backups restored within the backup are loaded up to the given depth. -/
def loadCatalogFromPaths (binary : Binary) (files : String → Option (CatalogFile ρ)) :
    Nat → RestoreCatalog → Apply (InnerCatalog κ ρ)
  | 0, restore => .error (.error s!"failed to load restore source: {restore.checkpointPath}")
  | depth + 1, restore =>
    match files restore.checkpointPath with
    | none => .error (.error s!"restore checkpoint not found at {restore.checkpointPath}")
    | some snapshot => do
      let load := loadCatalogFromPaths binary files depth
      let c ← loadSnapshot binary load snapshot
      (restore.logPaths.insertionSort (· ≤ ·)).foldlM (fun c path =>
        match files path with
        | none => .error (.error s!"failed to load restore source: restore log file not found at {path}")
        | some log =>
          if log.sequenceNumber ≠ c.sequence + 1 then
            .error (.error (s!"failed to load restore source: catalog replay sequence mismatch for {path}: " ++
              s!"expected {c.sequence + 1}, got {log.sequenceNumber}"))
          else replayLog binary load snapshot.catalogUuid c log) c

structure Store (ρ : Type) where
  snapshot : Option (CatalogFile ρ)
  logs : List (CatalogFile ρ)
  deriving DecidableEq

def loadCatalog (binary : Binary) (load : RestoreCatalog → Apply (InnerCatalog κ ρ)) (store : Store ρ) :
    Apply (Option (InnerCatalog κ ρ)) :=
  match store.snapshot with
  | none => .ok none
  | some snapshot => do
    let c ← loadSnapshot binary load snapshot
    let c ← (store.logs.filter (c.sequence < ·.sequenceNumber)).foldlM (replayLog binary load snapshot.catalogUuid) c
    .ok (some c)

def checkBatchAgainstCommitted (κ : Type) {ρ : Type} [CatalogContent κ ρ] (records : List ρ)
    (committed : FeatureLevel) : Except CatalogError Unit :=
  match records.find? fun r => !CatalogContent.isUpgradeSafe κ r && !committed.allows (CatalogContent.id κ r) with
  | none => .ok ()
  | some r => .error (.recordExceedsCommittedFeatureLevel (CatalogContent.id κ r).raw committed)

theorem checkBatchAgainstCommitted_eq_ok {records : List ρ} {committed : FeatureLevel} :
    checkBatchAgainstCommitted κ records committed = .ok () ↔
      ∀ r ∈ records, CatalogContent.isUpgradeSafe κ r = false → committed.allows (CatalogContent.id κ r) = true := by
  unfold checkBatchAgainstCommitted
  split
  · rename_i hnone
    simpa using hnone
  · rename_i r hsome
    have hr := List.find?_some hsome
    simp only [Bool.and_eq_true, Bool.not_eq_true'] at hr
    simp only [reduceCtorEq, false_iff]
    intro hall
    rw [hall r (List.mem_of_find?_eq_some hsome) hr.1] at hr
    exact absurd hr.2 (by simp)

end
end VarveDB.Catalog
