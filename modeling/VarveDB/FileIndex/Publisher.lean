import VarveDB.Library.Runs
import VarveDB.FileIndex.Basic
import VarveDB.Write.PersistedSnapshot

/-! Publishing a node's snapshot manifests into the shared log, interleaved with manifest writes. -/
namespace VarveDB.Publisher
open Library FileIndex

def maxManifestsPerPass : Nat := 256

variable (watermark : Option Nat) (m : PersistedSnapshot) (durable : List PersistedSnapshot)

def tablesOf : List TableKey :=
  (m.removedFiles.map Prod.fst ++ m.databases.map Prod.fst).dedup

def deltasFromSnapshot : List FileIndexDelta :=
  (tablesOf m).map fun k =>
    { nodeId := m.nodeId, dbId := k.1, tableId := k.2, snapshotSequence := m.snapshotSequenceNumber,
      added := m.addedTo k, removed := (m.removedFrom k).map ParquetFile.path }

def loadSnapshots (mostRecent : Nat) (durable : List PersistedSnapshot) : List PersistedSnapshot :=
  (orderedOldestFirst durable).reverse.take mostRecent

def loadSnapshotsAfter (after mostRecent : Nat) (durable : List PersistedSnapshot) : List PersistedSnapshot :=
  (loadSnapshots mostRecent durable).filter fun m => after < m.snapshotSequenceNumber

def above : Bool :=
  watermark.elim true fun w => w < m.snapshotSequenceNumber

def manifestsToPublish : List PersistedSnapshot :=
  let manifests := match watermark with
    | some published => loadSnapshotsAfter published maxManifestsPerPass durable
    | none => loadSnapshots maxManifestsPerPass durable
  (orderedOldestFirst manifests).filter (above watermark)

def pendingDeltas : List FileIndexDelta :=
  (manifestsToPublish watermark durable).flatMap deltasFromSnapshot

/-- How far `publish_pending` has come; `quiet` while no manifest write overlapped the pass. -/
inductive Pass where
  | idle
  | syncing (quiet : Bool)
  | listing (quiet : Bool) (watermark : Option Nat)
  | appending (quiet : Bool) (deltas : List FileIndexDelta)

def Pass.disturb : Pass → Pass
  | .idle => .idle
  | .syncing _ => .syncing false
  | .listing _ watermark => .listing false watermark
  | .appending _ deltas => .appending false deltas

/-- `drained`: a quiet pass has completed since the last manifest write began. -/
structure State where
  nodeId : String
  writing : List PersistedSnapshot
  written : List PersistedSnapshot
  durable : List PersistedSnapshot
  log : List FileIndexLogEntry
  index : FileIndex
  pass : Pass
  drained : Bool

variable (s : State)

inductive Action where
  | beginWrite (m : PersistedSnapshot)
  | write (m : PersistedSnapshot)
  | abandonWrite (m : PersistedSnapshot)
  | peerAppend (deltas : List FileIndexDelta)
  | poll
  | beginPass
  | sync
  | list
  | append (acknowledged : Bool)
  | failPass
  | restart

def State.synced : FileIndex := s.log.foldl apply s.index

def State.complete (quiet : Bool) : State := { s with pass := .idle, drained := s.drained || quiet }

/-- A manifest's PUT overwrites the one stored under its number; a pass may end without learning that its entry was
stored. -/
def step : Action → Option State
  | .beginWrite m =>
    if m.nodeId = s.nodeId then
      some { s with writing := m :: s.writing, pass := s.pass.disturb, drained := false }
    else none
  | .write m =>
    if m ∈ s.writing then
      some { s with
        writing := s.writing.erase m, written := s.written ++ [m], durable := putSnapshot s.durable m }
    else none
  | .abandonWrite m => if m ∈ s.writing then some { s with writing := s.writing.erase m } else none
  | .peerAppend deltas =>
    if ∀ d ∈ deltas, d.nodeId ≠ s.nodeId then some { s with log := s.log ++ [⟨s.log.length + 1, deltas⟩] } else none
  | .poll => some { s with index := s.synced }
  | .beginPass => match s.pass with
    | .idle => some { s with pass := .syncing s.writing.isEmpty }
    | _ => none
  | .sync => match s.pass with
    | .syncing quiet =>
      some { s with index := s.synced, pass := .listing quiet (s.synced.watermarks.lookup s.nodeId) }
    | _ => none
  | .list => match s.pass with
    | .listing quiet watermark =>
      match pendingDeltas watermark s.durable with
      | [] => some (s.complete quiet)
      | delta :: deltas => some { s with pass := .appending quiet (delta :: deltas) }
    | _ => none
  | .append acknowledged => match s.pass with
    | .appending quiet deltas =>
      let entry : FileIndexLogEntry := ⟨s.synced.sequence + 1, deltas⟩
      if acknowledged then some ({ s with log := s.log ++ [entry], index := s.synced.apply entry }.complete quiet)
      else some { s with log := s.log ++ [entry], index := s.synced, pass := .idle }
    | _ => none
  | .failPass => some { s with pass := .idle }
  | .restart => some { s with index := new, pass := .idle }

end VarveDB.Publisher
