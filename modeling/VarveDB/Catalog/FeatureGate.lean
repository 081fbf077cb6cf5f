import VarveDB.Catalog.Loading
import VarveDB.Catalog.Nodes
import VarveDB.Library.Runs

/-! Processes with binaries of different levels over one catalog. -/
namespace VarveDB.Catalog.FeatureGate
open Library Runs List

inductive Record where
  | cluster (r : ClusterRecord)
  | restore (r : RestoreCatalog)
  | other (id : RecordId) (upgradeSafe : Bool)
  deriving DecidableEq

namespace Record

def id : Record → RecordId
  | cluster r => r.id
  | restore _ => .restoreCatalog
  | other id _ => id

def isUpgradeSafe : Record → Bool
  | other _ upgradeSafe => upgradeSafe
  | _ => false

def isAdvance : Record → Bool
  | cluster r => r.isAdvance
  | _ => false

def apply : Record → ClusterCatalog → Apply ClusterCatalog
  | cluster r, c => r.apply c
  | _, c => .ok c

end Record

instance : CatalogContent ClusterCatalog Record where
  empty := .new
  committedFeatureLevel := ClusterCatalog.committedFeatureLevel
  setFeatureLevel c level := { c with committedFeatureLevel := level }
  id := Record.id
  isUpgradeSafe := Record.isUpgradeSafe
  restore
    | .restore r => some r
    | _ => none
  apply := Record.apply
  setFeatureLevel_self _ := rfl
  restore_eq_none_of_safe
    | .cluster _, _ => rfl
    | .restore _, h => nomatch h
    | .other .., _ => rfl

structure Process where
  binary : Binary
  inner : InnerCatalog ClusterCatalog Record

def Process.committed (P : Process) : FeatureLevel := P.inner.content.committedFeatureLevel

structure State (ι : Type) where
  store : Store Record
  processes : ι → Option Process
  creator : Option FeatureLevel
  /-- The binary of the process that registered a node last. -/
  registered : String → Option Binary

inductive Action (ι : Type) where
  | loadOrCreate (p : ι) (binary : Binary) (catalogUuid : Nat)
  | exit (p : ι)
  | catchUp (p : ι)
  | update (p : ι) (op : ClusterOp)
  | write (p : ι) (records : List (RecordId × Bool))

def noBackup (restore : RestoreCatalog) : Apply (InnerCatalog ClusterCatalog Record) :=
  .error (.error s!"restore checkpoint not found at {restore.checkpointPath}")

variable {committed : FeatureLevel} {r : Record}

namespace State
variable {ι : Type}

def init : State ι := ⟨⟨none, []⟩, fun _ => none, none, fun _ => none⟩

section Machine
variable [DecidableEq ι] (s : State ι)

def setProcess (p : ι) (P : Option Process) : State ι :=
  { s with processes := Function.update s.processes p P }

def registers : ClusterOp → Option String
  | .registerNode args => some args.nodeId
  | _ => none

/-- A batch goes to the log if it is within the committed level and its sequence number is free. Should it not apply,
the process stays behind. -/
def commit (p : ι) (P : Process) (records : List Record) (node : Option String) : Option (State ι) :=
  if P.inner.sequence = s.store.logs.length ∧ ∀ r ∈ records, r.id ∈ P.binary.registry then
    match checkBatchAgainstCommitted ClusterCatalog records P.committed with
    | .error _ => none
    | .ok () =>
      let sequence := P.inner.sequence + 1
      let store := { s.store with logs := s.store.logs ++ [⟨P.inner.catalogUuid, sequence, records⟩] }
      match applyRecords P.binary records P.inner sequence none with
      | .error _ => some { s with store }
      | .ok inner => some { s with
          store
          processes := Function.update s.processes p (some { P with inner })
          registered := node.elim s.registered fun nodeId => Function.update s.registered nodeId (some P.binary) }
  else none

def step : Action ι → Option (State ι)
  | .loadOrCreate p binary catalogUuid =>
    if (s.processes p).isSome then none
    else match s.store.snapshot with
      | none => do
        let inner ← (applyRecords binary [.other .setStorageMode false] (.new binary catalogUuid) 0 none).toOption
        some { (s.setProcess p (some ⟨binary, inner⟩)) with
          store := { s.store with snapshot := some inner.createSnapshot }
          creator := some binary.featureLevel }
      | some _ => do
        let inner ← (← (loadCatalog binary noBackup s.store).toOption)
        -- A binary below the committed level does not start.
        if inner.content.committedFeatureLevel ≤ binary.featureLevel then some (s.setProcess p (some ⟨binary, inner⟩))
        else none
  | .exit p => some (s.setProcess p none)
  | .catchUp p => do
    let P ← s.processes p
    let file ← s.store.logs.find? fun file => file.sequenceNumber = P.inner.sequence + 1
    let inner ← (applyCatalogFile P.binary noBackup P.inner file).toOption
    some (s.setProcess p (some { P with inner }))
  | .update p op => do
    let P ← s.processes p
    let records ← (op.prepare P.binary P.inner.content).toOption
    s.commit p P (records.map .cluster) (registers op)
  | .write p records => do
    let P ← s.processes p
    s.commit p P (records.map fun r => .other r.1 r.2) none

end Machine

def setsLevel (file : CatalogFile Record) : Bool := file.records.any Record.isAdvance

/-- A node registers with a binary that has the committed level and proposes none above that of a node that is
stopping; a level is advanced to one that every node has. -/
def CautiousOp (P : Process) : ClusterOp → Prop
  | .registerNode args => P.committed ≤ P.binary.featureLevel ∧
      ∀ proposed ∈ P.inner.content.proposeNewFeatureLevel P.binary args.nodeId,
        ∀ node ∈ P.inner.content.nodes.repo.values, node.nodeId ≠ args.nodeId → node.state.isActive = true →
          node.state.isRunning = false → proposed ≤ node.featureLevel
  | .advanceFeatureLevel committed => ∀ node ∈ P.inner.content.nodes.repo.values,
      node.state.isActive = true → committed ≤ node.featureLevel
  | _ => True

/-- Moreover, a process starts with the creator's level or when the log sets the level. -/
def Cautious (s : State ι) : Action ι → Prop
  | .loadOrCreate _ binary _ => ∀ level ∈ s.creator, binary.featureLevel = level ∨ s.store.logs.any setsLevel = true
  | .update p op => ∀ P ∈ s.processes p, CautiousOp P op
  | _ => True

instance (P : Process) (op : ClusterOp) : Decidable (CautiousOp P op) := by
  cases op <;> dsimp only [CautiousOp] <;> infer_instance

instance (s : State ι) (a : Action ι) : Decidable (s.Cautious a) := by
  cases a <;> dsimp only [Cautious] <;> infer_instance

def applyFile (c : ClusterCatalog) (file : CatalogFile Record) : Apply ClusterCatalog :=
  file.records.foldlM (fun c r => r.apply c) c

def clusterCatalog (level : FeatureLevel) (logs : List (CatalogFile Record)) : ClusterCatalog :=
  logs.foldl (fun c file => (applyFile c file).toOption.getD c) (.new level)

/-- Every node that is registered and not yet stopped knows every record of the log that is not
upgrade-safe, and processes that have applied the same log files have the same committed level. -/
structure Safe (s : State ι) : Prop where
  known : ∀ level ∈ s.creator, ∀ id node, (clusterCatalog level s.store.logs).nodes.getById id = some node →
    node.state.isActive = true → ∃ binary, s.registered node.nodeId = some binary ∧
      ∀ file ∈ s.store.logs, ∀ r ∈ file.records, r.isUpgradeSafe = false → r.id ∈ binary.registry
  agreed : ∀ p q P Q, s.processes p = some P → s.processes q = some Q → P.inner.sequence = Q.inner.sequence →
    P.committed = Q.committed

variable {file : CatalogFile Record} {records : List Record}

section Applying
variable {binary : Binary} {c c' : InnerCatalog ClusterCatalog Record}

private theorem apply_of_applyRecord {x : InnerCatalog ClusterCatalog Record × Option _}
    (h : applyRecord binary (c, none) r = .ok x) : x.2 = none ∧ r.apply c.content = .ok x.1.content := by
  rcases of_applyRecord h with ⟨-, -, content, hcontent, rfl⟩ | ⟨-, -, loaded, hloaded, -⟩ | ⟨-, hsafe, rfl⟩
  · exact ⟨rfl, hcontent⟩
  · cases hloaded
  · cases r with
    | other id upgradeSafe => exact ⟨rfl, rfl⟩
    | _ => cases hsafe

private theorem of_applyRecords {sequence : Nat} (h : applyRecords binary records c sequence none = .ok c') :
    records.foldlM (fun c r => r.apply c) c.content = .ok c'.content ∧ c'.sequence = sequence := by
  obtain ⟨x, hx, ⟨⟩⟩ := bind_eq_ok.mp h
  refine ⟨?_, rfl⟩
  clear h
  induction records generalizing c with
  | nil =>
    cases hx
    rfl
  | cons r records ih =>
    obtain ⟨⟨m, preload⟩, hm, hrest⟩ := bind_eq_ok.mp hx
    obtain ⟨rfl, happly⟩ := apply_of_applyRecord hm
    rw [foldlM_cons, happly, ok_bind]
    exact ih hrest

theorem of_applyCatalogFile (h : applyCatalogFile binary noBackup c file = .ok c') :
    applyFile c.content file = .ok c'.content ∧ c'.sequence = file.sequenceNumber := by
  obtain ⟨preload, hpreload, happly⟩ := bind_eq_ok.mp h
  have hnone : preload = none := by
    unfold preloadRestore at hpreload
    split at hpreload
    · exact (Except.ok.inj hpreload).symm
    · cases hpreload
    · cases hpreload
  subst hnone
  exact of_applyRecords happly

private theorem applyRecords_of_known {content : ClusterCatalog} (sequence : Nat)
    (hknown : ∀ r ∈ records, r.id ∈ binary.registry) (hrestore : ∀ r ∈ records, ∀ a, r ≠ .restore a)
    (h : records.foldlM (fun c r => r.apply c) c.content = .ok content) :
    ∃ c', applyRecords binary records c sequence none = .ok c' := by
  suffices hfold : ∃ x, records.foldlM (applyRecord binary) (c, none) = .ok x by
    obtain ⟨x, hx⟩ := hfold
    exact ⟨_, bind_eq_ok.mpr ⟨x, hx, rfl⟩⟩
  induction records generalizing c with
  | nil => exact ⟨_, rfl⟩
  | cons r records ih =>
    obtain ⟨m, hm, hrest⟩ := bind_eq_ok.mp h
    have hr : applyRecord binary (c, none) r =
        .ok ({ c with content := m, orderedRecords := c.orderedRecords ++ [r] }, none) := by
      rw [applyRecord_known (hknown r mem_cons_self)]
      · exact bind_eq_ok.mpr ⟨m, hm, rfl⟩
      · cases r with
        | restore a => exact absurd rfl (hrestore _ mem_cons_self a)
        | _ => rfl
    rw [foldlM_cons, hr, ok_bind]
    exact ih (fun r hr => hknown r (mem_cons_of_mem _ hr)) (fun r hr => hrestore r (mem_cons_of_mem _ hr)) hrest

end Applying

variable {logs : List (CatalogFile Record)}

section Level
variable {c c' : ClusterCatalog}

private theorem foldl_eq_of_foldlM (h : logs.foldlM applyFile c = .ok c') :
    logs.foldl (fun c file => (applyFile c file).toOption.getD c) c = c' := by
  induction logs generalizing c with
  | nil => exact Except.ok.inj h
  | cons file logs ih =>
    obtain ⟨m, hm, hrest⟩ := bind_eq_ok.mp h
    rw [foldl_cons, hm]
    exact ih hrest

private theorem foldlM_withLevel {β : Type} {step : ClusterCatalog → β → Apply ClusterCatalog} {advance : β → Bool}
    (hstep : ∀ c c' b (level : FeatureLevel), step c b = .ok c' → step { c with committedFeatureLevel := level } b =
      .ok { c' with committedFeatureLevel := if advance b then c'.committedFeatureLevel else level })
    {bs : List β} (level : FeatureLevel) (h : bs.foldlM step c = .ok c') :
    bs.foldlM step { c with committedFeatureLevel := level } =
      .ok { c' with committedFeatureLevel := if bs.any advance then c'.committedFeatureLevel else level } := by
  induction bs generalizing c level with
  | nil =>
    cases h
    rfl
  | cons b bs ih =>
    rw [foldlM_cons] at h ⊢
    obtain ⟨m, hm, hrest⟩ := bind_eq_ok.mp h
    rw [hstep c m b level hm, ok_bind, any_cons]
    cases hb : advance b with
    | true =>
      exact hrest
    | false =>
      exact ih level hrest

theorem apply_withLevel (level : FeatureLevel) (h : r.apply c = .ok c') :
    r.apply { c with committedFeatureLevel := level } =
      .ok { c' with committedFeatureLevel := if r.isAdvance then c'.committedFeatureLevel else level } := by
  cases r with
  | cluster r => exact ClusterRecord.apply_withLevel level h
  | restore | other =>
    cases h
    rfl

private theorem logs_withLevel (level : FeatureLevel) (h : logs.foldlM applyFile c = .ok c') :
    logs.foldlM applyFile { c with committedFeatureLevel := level } =
      .ok { c' with committedFeatureLevel := if logs.any setsLevel then c'.committedFeatureLevel else level } := by
  refine foldlM_withLevel (fun c c' file level hfile => ?_) level h
  exact foldlM_withLevel (fun _ _ _ level => apply_withLevel level) level hfile

end Level

structure Registered (c : ClusterCatalog) (registered : String → Option Binary) : Prop where
  consistent : c.nodes.Consistent
  active : ∀ id node, c.nodes.getById id = some node → node.state.isActive = true →
    c.committedFeatureLevel ≤ node.featureLevel
  binaries : ∀ id node, c.nodes.getById id = some node →
    ∃ binary, registered node.nodeId = some binary ∧ binary.featureLevel = node.featureLevel

structure Sound (s : State ι) (level : FeatureLevel) : Prop where
  snapshot : ∃ catalogUuid, s.store.snapshot = some ⟨catalogUuid, 0, [.other .setStorageMode false]⟩
  numbered : ∀ i file, s.store.logs[i]? = some file → file.sequenceNumber = i + 1
  cluster : Registered (clusterCatalog level s.store.logs) s.registered
  within : ∀ file ∈ s.store.logs, ∀ r ∈ file.records, r.isUpgradeSafe = false →
    r.id.Valid ∧ (clusterCatalog level s.store.logs).committedFeatureLevel.allows r.id = true
  processes : ∀ p P, s.processes p = some P → P.inner.sequence ≤ s.store.logs.length ∧
    P.inner.content = clusterCatalog level (s.store.logs.take P.inner.sequence)

structure Inv (s : State ι) : Prop where
  fresh : s.creator = none → s.store = ⟨none, []⟩ ∧ ∀ p, s.processes p = none
  sound : ∀ level, s.creator = some level → s.Sound level

section Steps
variable {s s' : State ι} {level : FeatureLevel} {p : ι} {P : Process} {binary : Binary}
  {inner : InnerCatalog ClusterCatalog Record} {c : ClusterCatalog}

structure Admissible (c : ClusterCatalog) (registered : String → Option Binary) (c' : ClusterCatalog) : Prop
    extends Registered c' registered where
  level : c.committedFeatureLevel ≤ c'.committedFeatureLevel

theorem clusterCatalog_append (level : FeatureLevel) (logs : List (CatalogFile Record)) (file : CatalogFile Record) :
    clusterCatalog level (logs ++ [file]) =
      (applyFile (clusterCatalog level logs) file).toOption.getD (clusterCatalog level logs) := by
  rw [clusterCatalog, foldl_append]
  rfl

private theorem of_foldlM_replayLog {c c' : InnerCatalog ClusterCatalog Record}
    (hnumbered : ∀ i file, logs[i]? = some file → file.sequenceNumber = c.sequence + i + 1)
    (h : logs.foldlM (replayLog binary noBackup catalogUuid) c = .ok c') :
    logs.foldlM applyFile c.content = .ok c'.content ∧ c'.sequence = c.sequence + logs.length := by
  induction logs generalizing c with
  | nil =>
    cases h
    exact ⟨rfl, rfl⟩
  | cons file logs ih =>
    obtain ⟨m, hm, hrest⟩ := bind_eq_ok.mp h
    obtain ⟨-, hm⟩ := ite_error_eq_ok.mp hm
    obtain ⟨happly, hsequence⟩ := of_applyCatalogFile hm
    have hnumber := hnumbered 0 file rfl
    obtain ⟨hfold, hlast⟩ := ih (fun i file' hfile' => by
      rw [hnumbered (i + 1) file' hfile', hsequence, hnumber]
      omega) hrest
    refine ⟨?_, ?_⟩
    · rw [foldlM_cons, happly, ok_bind]
      exact hfold
    · rw [hlast, hsequence, hnumber, length_cons]
      omega

section
variable (h : s.Sound level)
include h

theorem Sound.safe (hcreator : s.creator = some level) : s.Safe where
  known := by
    intro level' hlevel' id node hnode hactive
    obtain rfl : level = level' := some.inj (hcreator.symm.trans hlevel')
    obtain ⟨binary, hbinary, hlevel⟩ := h.cluster.binaries id node hnode
    refine ⟨binary, hbinary, fun file hfile r hr hsafe => ?_⟩
    obtain ⟨hvalid, hallows⟩ := h.within file hfile r hr hsafe
    rw [binary.mem_registry_iff hvalid, hlevel]
    exact FeatureLevel.allows_mono (h.cluster.active id node hnode hactive) hallows
  agreed := by
    intro p q P Q hP hQ hsequence
    rw [Process.committed, Process.committed, (h.processes p P hP).2, (h.processes q Q hQ).2, hsequence]

theorem Sound.append {processes : ι → Option Process}
    {registered : String → Option Binary} (hnumber : file.sequenceNumber = s.store.logs.length + 1)
    (hwithin : ∀ r ∈ file.records, r.isUpgradeSafe = false → r.id.Valid ∧
      (clusterCatalog level s.store.logs).committedFeatureLevel.allows r.id = true)
    (hadmissible : Admissible (clusterCatalog level s.store.logs) registered
      (clusterCatalog level (s.store.logs ++ [file])))
    (hprocesses : ∀ q Q, processes q = some Q → s.processes q = some Q ∨ Q.inner.sequence = s.store.logs.length + 1 ∧
      Q.inner.content = clusterCatalog level (s.store.logs ++ [file])) :
    ({ s with store := { s.store with logs := s.store.logs ++ [file] }, processes, registered } : State ι).Sound
      level where
  snapshot := h.snapshot
  numbered i file' hfile' := by
    rcases lt_trichotomy i s.store.logs.length with hlt | heq | hgt
    · rw [List.getElem?_append_left hlt] at hfile'
      exact h.numbered i file' hfile'
    · subst heq
      rw [List.getElem?_concat_length] at hfile'
      cases hfile'
      exact hnumber
    · rw [List.getElem?_eq_none (by rw [length_append]; exact hgt)] at hfile'
      cases hfile'
  cluster := hadmissible.toRegistered
  within file' hfile' r hr hsafe := by
    have hold : r.id.Valid ∧ (clusterCatalog level s.store.logs).committedFeatureLevel.allows r.id = true := by
      rcases mem_snoc.mp hfile' with hold | rfl
      · exact h.within file' hold r hr hsafe
      · exact hwithin r hr hsafe
    exact ⟨hold.1, FeatureLevel.allows_mono hadmissible.level hold.2⟩
  processes q Q hQ := by
    rcases hprocesses q Q hQ with hold | ⟨hsequence, hcontent⟩
    · obtain ⟨hle, hcontent⟩ := h.processes q Q hold
      refine ⟨by simpa using Nat.le_succ_of_le hle, ?_⟩
      rw [take_append_of_le_length hle]
      exact hcontent
    · refine ⟨by simp [hsequence], ?_⟩
      rw [hsequence, take_of_length_le (by simp)]
      exact hcontent

theorem Sound.quieter (hquieter : (clusterCatalog level s.store.logs).Quieter c) :
    Admissible (clusterCatalog level s.store.logs) s.registered c where
  consistent := hquieter.consistent
  level := le_of_eq hquieter.level.symm
  active id node' hnode' hactive := by
    obtain ⟨node, hnode, -, hlevel, hactive'⟩ := hquieter.nodes id node' hnode'
    rw [hquieter.level, hlevel]
    exact h.cluster.active id node hnode (hactive' hactive)
  binaries id node' hnode' := by
    obtain ⟨node, hnode, hname, hlevel, -⟩ := hquieter.nodes id node' hnode'
    rw [hname, hlevel]
    exact h.cluster.binaries id node hnode

theorem Sound.advance (hle : (clusterCatalog level s.store.logs).committedFeatureLevel ≤ committed)
    (hcautious : ∀ node ∈ (clusterCatalog level s.store.logs).nodes.repo.values, node.state.isActive = true →
      committed ≤ node.featureLevel) : Admissible (clusterCatalog level s.store.logs) s.registered
      { clusterCatalog level s.store.logs with committedFeatureLevel := committed } where
  __ := h.cluster
  level := hle
  active _ node hnode hactive := hcautious node (IndexMap.mem_values_of_lookup hnode) hactive

/-- A node registers at a level that is not below the committed one, nor the one it proposes, which is
not above the level of the other nodes. -/
theorem Sound.register {r : RegisterNode}
    (happly : r.apply (clusterCatalog level s.store.logs) = .ok c) (hlevel : r.featureLevel = binary.featureLevel)
    (hle : (clusterCatalog level s.store.logs).committedFeatureLevel ≤ committed)
    (hbinary : committed ≤ binary.featureLevel)
    (hothers : ∀ id node, (clusterCatalog level s.store.logs).nodes.getById id = some node → node.nodeId ≠ r.nodeId →
      node.state.isActive = true → committed ≤ node.featureLevel) :
    Admissible (clusterCatalog level s.store.logs) (Function.update s.registered r.nodeId (some binary))
      { c with committedFeatureLevel := committed } := by
  obtain ⟨-, hconsistent, nodeCatalogId, hnodes⟩ := RegisterNode.of_apply h.cluster.consistent happly
  have hcases (id : Nat) (node : NodeDefinition) (hnode : c.nodes.getById id = some node) :
      node.nodeId = r.nodeId ∧ node.featureLevel = r.featureLevel ∨
        node.nodeId ≠ r.nodeId ∧ (clusterCatalog level s.store.logs).nodes.getById id = some node := by
    by_cases hid : id = r.nodeCatalogId
    · obtain rfl := some.inj (((hnodes id).trans (if_pos hid)).symm.trans hnode)
      exact .inl ⟨rfl, rfl⟩
    · refine .inr ⟨fun hname => hid ?_, ((hnodes id).trans (if_neg hid)).symm.trans hnode⟩
      have hself : c.nodes.nameToId r.nodeId = some r.nodeCatalogId :=
        hconsistent.nameToId_eq_some.mpr ⟨_, (hnodes _).trans (if_pos rfl), rfl⟩
      exact some.inj ((hconsistent.nameToId_eq_some.mpr ⟨node, hnode, hname⟩).symm.trans hself)
  refine ⟨⟨hconsistent, fun id node hnode hactive => ?_, fun id node hnode => ?_⟩, hle⟩
  · rcases hcases id node hnode with ⟨-, hnew⟩ | ⟨hname, hold⟩
    · exact le_of_le_of_eq hbinary (hnew.trans hlevel).symm
    · exact hothers id node hold hname hactive
  · rcases hcases id node hnode with ⟨hname, hnew⟩ | ⟨hname, hold⟩
    · exact ⟨binary, by rw [hname, Function.update_self], (hnew.trans hlevel).symm⟩
    · rw [Function.update_of_ne hname]
      exact h.cluster.binaries id node hold

/-- What a process loads is the cluster as the log describes it, if it starts at the creator's level
or the log sets the level. -/
theorem Sound.loadCatalog (hlevel : binary.featureLevel = level ∨ s.store.logs.any setsLevel = true)
    (hload : Catalog.loadCatalog binary noBackup s.store = .ok (some inner)) :
    inner.sequence = s.store.logs.length ∧ inner.content = clusterCatalog level s.store.logs := by
  obtain ⟨catalogUuid, hsnapshot⟩ := h.snapshot
  rw [Catalog.loadCatalog, hsnapshot] at hload
  obtain ⟨c, hc, hrest⟩ := bind_eq_ok.mp hload
  obtain ⟨c', hc', ⟨⟩⟩ := bind_eq_ok.mp hrest
  obtain ⟨hstart, hzero⟩ := of_applyCatalogFile hc
  have hstart : ClusterCatalog.new binary.featureLevel = c.content := Except.ok.inj hstart
  have hall : s.store.logs.filter (c.sequence < ·.sequenceNumber) = s.store.logs := by
    rw [filter_eq_self]
    intro file hfile
    obtain ⟨i, hi⟩ := List.getElem?_of_mem hfile
    rw [h.numbered i file hi, hzero]
    exact decide_eq_true (Nat.succ_pos i)
  rw [hall] at hc'
  obtain ⟨hfold, hsequence⟩ := of_foldlM_replayLog (fun i file hfile => by
    rw [h.numbered i file hfile, hzero, Nat.zero_add]) hc'
  refine ⟨by rw [hsequence, hzero, Nat.zero_add], ?_⟩
  rw [← hstart] at hfold
  rcases hlevel with rfl | hset
  · exact (foldl_eq_of_foldlM hfold).symm
  · have hcreator := logs_withLevel level hfold
    rw [if_pos hset] at hcreator
    exact (foldl_eq_of_foldlM hcreator).symm

theorem Sound.catchUp (hP : s.processes p = some P)
    (hfile : (s.store.logs.find? fun file => file.sequenceNumber = P.inner.sequence + 1) = some file)
    (happly : applyCatalogFile P.binary noBackup P.inner file = .ok inner) : inner.sequence ≤ s.store.logs.length ∧
      inner.content = clusterCatalog level (s.store.logs.take inner.sequence) := by
  have hnumber : file.sequenceNumber = P.inner.sequence + 1 := by simpa using List.find?_some hfile
  obtain ⟨i, hi⟩ := List.getElem?_of_mem (mem_of_find?_eq_some hfile)
  obtain rfl : i = P.inner.sequence := Nat.succ.inj ((h.numbered i file hi).symm.trans hnumber)
  obtain ⟨hfold, hsequence⟩ := of_applyCatalogFile happly
  obtain ⟨hlt, -⟩ := List.getElem?_eq_some_iff.mp hi
  rw [hsequence, hnumber]
  refine ⟨hlt, ?_⟩
  rw [take_add_one, hi, Option.toList_some, clusterCatalog_append, ← (h.processes p P hP).2, hfold]
  rfl

end

variable {catalogUuid : Nat}

private theorem of_create
    (happly : applyRecords binary [.other .setStorageMode false] (.new binary catalogUuid) 0 none = .ok inner) :
    inner = ⟨0, catalogUuid, .new binary.featureLevel, [.other .setStorageMode false]⟩ := by
  obtain ⟨x, hx, ⟨⟩⟩ := bind_eq_ok.mp happly
  obtain ⟨y, hy, ⟨⟩⟩ := bind_eq_ok.mp hx
  rcases of_applyRecord hy with ⟨-, -, content, ⟨⟩, rfl⟩ | ⟨-, -, loaded, hloaded, -⟩ | ⟨-, hsafe, -⟩
  · rfl
  · cases hloaded
  · cases hsafe

theorem Inv.of_sound (hcreator : s.creator = some level) (h : s.Sound level) : s.Inv where
  fresh hnone := nomatch hcreator.symm.trans hnone
  sound _ hlevel := some.inj (hcreator.symm.trans hlevel) ▸ h

theorem Inv.safe (h : s.Inv) : s.Safe := by
  cases hcreator : s.creator with
  | some level => exact (h.sound level hcreator).safe hcreator
  | none =>
    refine ⟨fun level hlevel => ?_, fun p q P Q hP => ?_⟩
    · cases hcreator.symm.trans hlevel
    · cases ((h.fresh hcreator).2 p).symm.trans hP

variable [DecidableEq ι]

theorem Sound.setProcess (h : s.Sound level) {new : Option Process}
    (hnew : ∀ P ∈ new, P.inner.sequence ≤ s.store.logs.length ∧
      P.inner.content = clusterCatalog level (s.store.logs.take P.inner.sequence)) :
        (s.setProcess p new).Sound level where
  __ := h
  processes q Q hQ := by
    simp only [State.setProcess, Function.update_apply] at hQ
    split_ifs at hQ
    · exact hnew Q hQ
    · exact h.processes q Q hQ

theorem Sound.commit (h : s.Sound level) (hP : s.processes p = some P)
    {node : Option String} (hrestore : ∀ r ∈ records, ∀ a, r ≠ .restore a)
    (hadmissible : P.inner.content = clusterCatalog level s.store.logs → ∀ c',
      records.foldlM (fun c r => r.apply c) P.inner.content = .ok c' → Admissible P.inner.content
        (node.elim s.registered fun nodeId => Function.update s.registered nodeId (some P.binary)) c')
    (hcommit : s.commit p P records node = some s') : s'.Sound level ∧ s'.creator = s.creator := by
  obtain ⟨hcond, hcommit⟩ := ite_none_right_eq_some.mp hcommit
  obtain ⟨hsequence, hknown⟩ := hcond
  have hcontent : P.inner.content = clusterCatalog level s.store.logs := by
    rw [(h.processes p P hP).2, hsequence, take_length]
  split at hcommit
  · cases hcommit
  · rename_i hcheck
    have hwithin : ∀ r ∈ records, r.isUpgradeSafe = false → r.id.Valid ∧
        (clusterCatalog level s.store.logs).committedFeatureLevel.allows r.id = true := fun r hr hsafe =>
      ⟨P.binary.valid _ (hknown r hr), hcontent ▸ checkBatchAgainstCommitted_eq_ok.mp hcheck r hr hsafe⟩
    dsimp only at hcommit
    split at hcommit
    · rename_i e happly
      cases hcommit
      refine ⟨h.append (by rw [hsequence]) hwithin ?_ fun q Q hQ => .inl hQ, rfl⟩
      -- The batch does not apply to the cluster either, or the process would have applied it.
      have hfails : (applyFile (clusterCatalog level s.store.logs)
          ⟨P.inner.catalogUuid, P.inner.sequence + 1, records⟩).toOption = none := by
        by_contra hsome
        obtain ⟨c', hc'⟩ := Option.ne_none_iff_exists'.mp hsome
        obtain ⟨inner, hinner⟩ := applyRecords_of_known (P.inner.sequence + 1) hknown hrestore
          (hcontent ▸ toOption_eq_some.mp hc')
        rw [hinner] at happly
        cases happly
      rw [clusterCatalog_append, hfails]
      exact ⟨h.cluster, le_rfl⟩
    · rename_i inner happly
      cases hcommit
      obtain ⟨hfold, hinner⟩ := of_applyRecords happly
      have happlied : clusterCatalog level
          (s.store.logs ++ [⟨P.inner.catalogUuid, P.inner.sequence + 1, records⟩]) = inner.content := by
        have hfile : applyFile (clusterCatalog level s.store.logs)
            ⟨P.inner.catalogUuid, P.inner.sequence + 1, records⟩ = .ok inner.content := hcontent ▸ hfold
        rw [clusterCatalog_append, hfile]
        rfl
      refine ⟨h.append (by rw [hsequence]) hwithin ?_ fun q Q hQ => ?_, rfl⟩
      · rw [happlied, ← hcontent]
        exact hadmissible hcontent inner.content hfold
      · rw [Function.update_apply] at hQ
        split_ifs at hQ
        · cases hQ
          exact .inr ⟨hinner.trans (by rw [hsequence]), happlied.symm⟩
        · exact .inl hQ

theorem Sound.update (h : s.Sound level) (hP : s.processes p = some P) {op : ClusterOp}
    {records : List ClusterRecord} (hcautious : CautiousOp P op)
    (hprepare : op.prepare P.binary P.inner.content = .ok records)
    (hcommit : s.commit p P (records.map .cluster) (registers op) = some s') :
    s'.Sound level ∧ s'.creator = s.creator := by
  refine h.commit hP (forall_mem_map.mpr nofun) (fun hcontent c' hfold => ?_) hcommit
  rcases ClusterOp.prepare_cases hprepare with
    ⟨args, nodeCatalogId, rfl, rfl⟩ | ⟨committed, rfl, hle, rfl⟩ | ⟨hop, r, rfl, hregister, hadvance⟩
  · obtain ⟨c, happly, hrest⟩ := bind_eq_ok.mp hfold
    obtain ⟨hcommitted, hstopping⟩ := hcautious
    rw [Process.committed] at hcommitted
    rw [hcontent] at happly hcommitted hstopping hrest ⊢
    cases hproposed : (clusterCatalog level s.store.logs).proposeNewFeatureLevel P.binary args.nodeId with
    | none =>
      rw [hproposed] at hrest
      cases hrest
      have hsame : c'.committedFeatureLevel = _ := (RegisterNode.of_apply h.cluster.consistent happly).1
      have := h.register happly rfl le_rfl hcommitted fun id node hnode _ hactive =>
          h.cluster.active id node hnode hactive
      rw [← hsame] at this
      exact this
    | some proposed =>
      rw [hproposed] at hrest
      cases hrest
      obtain ⟨hlt, ⟨⟩⟩ := ite_none_right_eq_some.mp hproposed
      refine h.register happly rfl hlt.le ((clusterCatalog level s.store.logs).consensus_le_binary args.nodeId) ?_
      intro id node hnode hname hactive
      have hvalue := IndexMap.mem_values_of_lookup hnode
      cases hrunning : node.state.isRunning with
      | true => exact (clusterCatalog level s.store.logs).consensus_le_node hvalue hname hrunning
      | false => exact hstopping _ hproposed node hvalue hname hactive hrunning
  · cases hfold
    rw [hcontent] at hle ⊢
    exact h.advance hle (hcontent ▸ hcautious)
  · have hnone : registers op = none := by
      cases op with
      | registerNode args => exact absurd rfl (hop args)
      | _ => rfl
    obtain ⟨c, happly, ⟨⟩⟩ := bind_eq_ok.mp hfold
    rw [hnone]
    rw [hcontent] at happly ⊢
    exact h.quieter (ClusterRecord.quieter h.cluster.consistent happly hregister hadvance)

private theorem sound_create (hstore : s.store = ⟨none, []⟩) (hprocesses : ∀ q, s.processes q = none)
    (happly : applyRecords binary [.other .setStorageMode false] (.new binary catalogUuid) 0 none = .ok inner) :
    ({ (s.setProcess p (some ⟨binary, inner⟩)) with
      store := { s.store with snapshot := some inner.createSnapshot }
      creator := some binary.featureLevel } : State ι).Sound binary.featureLevel := by
  obtain rfl := of_create happly
  have hlogs : s.store.logs = [] := by rw [hstore]
  refine ⟨⟨catalogUuid, rfl⟩, by simp [hlogs], ?_, by simp [hlogs], fun q Q hQ => ?_⟩
  · simp only [hlogs]
    exact ⟨.new, nofun, nofun⟩
  · simp only [State.setProcess, Function.update_apply, hprocesses] at hQ
    split_ifs at hQ
    cases hQ
    simp only [hlogs]
    exact ⟨le_rfl, rfl⟩

theorem Inv.step {a : Action ι} (h : s.Inv) (hcautious : s.Cautious a) (hstep : s.step a = some s') : s'.Inv := by
  cases hcreator : s.creator with
  | none =>
    obtain ⟨hstore, hprocesses⟩ := h.fresh hcreator
    cases a with
    | loadOrCreate p binary catalogUuid =>
      have hsnapshot : s.store.snapshot = none := by rw [hstore]
      simp only [State.step, hprocesses, hsnapshot, Option.isSome_none, Bool.false_eq_true, if_false] at hstep
      obtain ⟨inner, hinner, ⟨⟩⟩ := bind_eq_some_iff.mp hstep
      exact Inv.of_sound rfl (sound_create hstore hprocesses (toOption_eq_some.mp hinner))
    | exit p =>
      cases hstep
      have hself : Function.update s.processes p none = s.processes :=
        Function.update_eq_self_iff.mpr (hprocesses p).symm
      exact ⟨fun _ => ⟨hstore, fun q => (congrFun hself q).trans (hprocesses q)⟩,
        fun level hlevel => nomatch hcreator.symm.trans hlevel⟩
    | catchUp | update | write => simp [State.step, hprocesses] at hstep
  | some level =>
    have h := h.sound level hcreator
    cases a with
    | loadOrCreate p binary catalogUuid =>
      obtain ⟨uuid, hsnapshot⟩ := h.snapshot
      simp only [State.step, hsnapshot] at hstep
      split at hstep
      · cases hstep
      · obtain ⟨loaded, hloaded, hrest⟩ := bind_eq_some_iff.mp hstep
        obtain ⟨inner, rfl, hrest⟩ := bind_eq_some_iff.mp hrest
        obtain ⟨-, ⟨⟩⟩ := ite_none_right_eq_some.mp hrest
        obtain ⟨hsequence, hcontent⟩ := h.loadCatalog (hcautious level hcreator) (toOption_eq_some.mp hloaded)
        refine Inv.of_sound hcreator (h.setProcess ?_)
        rintro _ ⟨⟩
        rw [hsequence, take_length]
        exact ⟨le_rfl, hcontent⟩
    | exit p =>
      cases hstep
      exact Inv.of_sound hcreator (h.setProcess (by simp))
    | catchUp p =>
      obtain ⟨P, hP, hrest⟩ := bind_eq_some_iff.mp hstep
      obtain ⟨file, hfile, hrest⟩ := bind_eq_some_iff.mp hrest
      obtain ⟨inner, hinner, ⟨⟩⟩ := bind_eq_some_iff.mp hrest
      refine Inv.of_sound hcreator (h.setProcess ?_)
      rintro _ ⟨⟩
      exact h.catchUp hP hfile (toOption_eq_some.mp hinner)
    | update p op =>
      obtain ⟨P, hP, hrest⟩ := bind_eq_some_iff.mp hstep
      obtain ⟨records, hrecords, hcommit⟩ := bind_eq_some_iff.mp hrest
      obtain ⟨hsound, hsame⟩ := h.update hP (hcautious P hP) (toOption_eq_some.mp hrecords) hcommit
      exact Inv.of_sound (hsame.trans hcreator) hsound
    | write p records =>
      obtain ⟨P, hP, hcommit⟩ := bind_eq_some_iff.mp hstep
      have hothers (records : List (RecordId × Bool)) (c : ClusterCatalog) :
          (records.map fun r => Record.other r.1 r.2).foldlM (fun c r => r.apply c) c = .ok c := by
        induction records with
        | nil => rfl
        | cons r records ih => exact ih
      obtain ⟨hsound, hsame⟩ := h.commit hP (forall_mem_map.mpr nofun) (fun hcontent c' hfold => by
        rw [hothers] at hfold
        cases hfold
        rw [hcontent]
        exact ⟨h.cluster, le_rfl⟩) hcommit
      exact Inv.of_sound (hsame.trans hcreator) hsound

/-- In every cautious run, every registered node knows every record of the log and the processes
agree on the committed level. -/
theorem safe_of_cautious_run {as : List (Action ι)} (hcautious : Guarded step Cautious (init : State ι) as)
    (hrun : run step init as = some s) : s.Safe :=
  (invariant Inv.step (by exact ⟨fun _ => ⟨rfl, fun _ => rfl⟩, nofun⟩) hcautious hrun).safe

end Steps

section Examples

private def older : Binary := .upTo 46 9 (by decide) (by decide)

def newer : Binary := .upTo 47 9 (by decide) (by decide)

private def nodeArgs (nodeId : String) : RegisterNodeArgs := ⟨nodeId, 4, [.all], nodeId, none, none, 0, 0⟩

private def upgrade : List (Action Bool) :=
  [.loadOrCreate false older 7, .update false (.advanceFeatureLevel ⟨47, 9⟩), .loadOrCreate true newer 0,
    .update true (.registerNode (nodeArgs "b")), .write true [(.core 47, false)]]

theorem upgrade_safe : ∃ s, run step init upgrade = some s ∧ s.store.logs.length = 3 ∧ s.Safe := by
  have hcautious : Guarded step Cautious init upgrade := by decide +kernel
  exact exists_and (by decide +kernel) fun s hrun _ => safe_of_cautious_run hcautious hrun

private def mixed : List (Action Bool) :=
  [.loadOrCreate false older 7, .update false (.registerNode (nodeArgs "a")), .loadOrCreate true newer 0]

/-- The two processes disagree on the committed level, and the newer one writes a record that the
registered node does not know. -/
theorem newer_binary_writes_unknown_record :
    (∃ s P Q, run step init mixed = some s ∧ s.processes false = some P ∧ s.processes true = some Q ∧
      P.inner.sequence = Q.inner.sequence ∧ P.committed ≠ Q.committed) ∧
    ∃ s node binary, run step init (mixed ++ [.write true [(.core 47, false)]]) = some s ∧
      (clusterCatalog older.featureLevel s.store.logs).nodes.getById 0 = some node ∧ node.state.isActive = true ∧
      s.registered node.nodeId = some binary ∧
      ∃ file ∈ s.store.logs, ∃ r ∈ file.records, r.isUpgradeSafe = false ∧ r.id ∉ binary.registry := by
  simp only [exists_and_left]
  decide +kernel

end Examples

end State
end VarveDB.Catalog.FeatureGate
