import VarveDB.Library.Runs
import VarveDB.FileIndex.Basic

/-! The shared log behind the file index, over one object store whose single operations are atomic. -/
namespace VarveDB.FileIndexLog
open Library FileIndex

structure ObjectStore where
  snapshot : Option FileIndexSnapshot
  logs : KeyedList FileIndexLogEntry.sequence

namespace ObjectStore

def empty : ObjectStore := ⟨none, .empty _⟩

variable (store : ObjectStore) (sequence : Nat)

def sequences : List Nat := store.logs.entries.map FileIndexLogEntry.sequence

def listAfter (after : Nat) : List Nat := store.sequences.filter (after < ·)

def get : Option FileIndexLogEntry :=
  store.logs.entries.find? fun e => e.sequence = sequence

def create (entry : FileIndexLogEntry) : ObjectStore :=
  { store with logs := store.logs.insertNew entry }

def delete : ObjectStore :=
  { store with logs := store.logs.retain fun e => e.sequence ≠ sequence }

def snapshotSequence : Nat := store.snapshot.elim 0 FileIndexSnapshot.sequence

end ObjectStore

def maxAppendAttempts : Nat := 16

inductive AfterSync where
  | ret
  | append (deltas : List FileIndexDelta) (attempt : Nat)

inductive Phase where
  | loading
  | listing (k : AfterSync)
  | fetching (k : AfterSync) (todo : List Nat) (got : List FileIndexLogEntry)
  | restoring (k : AfterSync) (entries : List FileIndexLogEntry)
  | resetting (k : AfterSync) (entries : List FileIndexLogEntry) (snapshot : FileIndexSnapshot)
  | refilling (k : AfterSync) (entries : List FileIndexLogEntry) (snapshot : FileIndexSnapshot)
  | applying (k : AfterSync) (entries : List FileIndexLogEntry)
  | creating (entry : FileIndexLogEntry) (attempt : Nat)
  | created (entry : FileIndexLogEntry)
  | rollupDue
  | rolling
  | putting (snapshot : FileIndexSnapshot)
  | pruning (through : Nat)
  | deleting (doomed : List Nat)

def Phase.exclusive : Phase → Bool
  | .loading => true
  | .refilling .. => true
  | _ => false

def Phase.isRefilling : Phase → Bool
  | .refilling .. => true
  | _ => false

structure Outcome where
  store : ObjectStore
  index : FileIndex
  next : Option Phase
  committed : List FileIndexLogEntry

def sortBySequence (entries : List FileIndexLogEntry) : List FileIndexLogEntry :=
  entries.insertionSort fun a b => a.sequence ≤ b.sequence

variable (index : FileIndex)

def gap (entries : List FileIndexLogEntry) : Bool :=
  match entries.head? with
  | none => false
  | some first => index.sequence + 1 < first.sequence

def afterSync : AfterSync → Option Phase
  | .ret => none
  | .append deltas attempt => some (.creating ⟨index.sequence + 1, deltas⟩ attempt)

variable (snapshotInterval : Nat)

/-- `sync`, `append`, `load` and `write_snapshot`, one request or index access at a time. -/
def Phase.advance (store : ObjectStore) (index : FileIndex) : Phase → Option Outcome
  | .loading => match store.snapshot with
    | some snapshot => some ⟨store, index.restore snapshot, some (.listing .ret), []⟩
    | none => some ⟨store, index, some (.listing .ret), []⟩
  | .listing k => some ⟨store, index, some (.fetching k (store.listAfter index.sequence) []), []⟩
  | .fetching k (number :: todo) got => match store.get number with
    | some entry => some ⟨store, index, some (.fetching k todo (got ++ [entry])), []⟩
    | none => some ⟨store, index, none, []⟩
  | .fetching k [] got =>
    let entries := sortBySequence got
    if gap index entries then some ⟨store, index, some (.restoring k entries), []⟩
    else some ⟨store, index, some (.applying k entries), []⟩
  | .restoring k entries => match store.snapshot with
    | some snapshot => some ⟨store, index, some (.resetting k entries snapshot), []⟩
    | none => some ⟨store, index, some (.applying k entries), []⟩
  | .resetting k entries snapshot => some ⟨store, new, some (.refilling k entries snapshot), []⟩
  | .refilling k entries snapshot => some ⟨store, index.restore snapshot, some (.applying k entries), []⟩
  | .applying k (entry :: entries) => some ⟨store, index.apply entry, some (.applying k entries), []⟩
  | .applying k [] => some ⟨store, index, afterSync index k, []⟩
  | .creating entry attempt =>
    if entry.sequence ∈ store.sequences then
      if attempt + 1 < maxAppendAttempts then
        some ⟨store, index, some (.listing (.append entry.deltas (attempt + 1))), []⟩
      else some ⟨store, index, none, []⟩
    else some ⟨store.create entry, index, some (.created entry), [entry]⟩
  | .created entry => some ⟨store, index.apply entry, some .rollupDue, []⟩
  | .rollupDue =>
    if snapshotInterval = 0 ∨ ¬ snapshotInterval ∣ index.sequence then some ⟨store, index, none, []⟩
    else some ⟨store, index, some .rolling, []⟩
  | .rolling => some ⟨store, index, some (.putting index.toSnapshot), []⟩
  | .putting snapshot => some ⟨{ store with snapshot := some snapshot }, index, some (.pruning snapshot.sequence), []⟩
  | .pruning through => some ⟨store, index, some (.deleting (store.sequences.filter (· ≤ through))), []⟩
  | .deleting [] => some ⟨store, index, none, []⟩
  | .deleting (_ :: _) => none

inductive Call where
  | load
  | sync
  | append (deltas : List FileIndexDelta)
  | writeSnapshot

/-- An append of no deltas returns at once and commits nothing. -/
def Call.first : Call → Option Phase
  | .load => some .loading
  | .sync => some (.listing .ret)
  | .append [] => none
  | .append (delta :: deltas) => some (.listing (.append (delta :: deltas) 0))
  | .writeSnapshot => some .rolling

structure Node where
  index : FileIndex
  calls : List Phase

def Node.canStart (node : Node) : Call → Bool
  | .load => node.index = new && node.calls.isEmpty
  | _ => node.calls.all fun ph => match ph with
    | .loading => false
    | _ => true

def Node.resume (node : Node) (i : Nat) (index : FileIndex) : Option Phase → Node
  | some ph => ⟨index, node.calls.set i ph⟩
  | none => ⟨index, node.calls.eraseIdx i⟩

/-- The store, the nodes, and a record of every entry whose creation succeeded, in order. -/
structure Cluster (ι : Type) where
  store : ObjectStore
  nodes : ι → Node
  committed : List FileIndexLogEntry

inductive Action (ι : Type) where
  | start (n : ι) (call : Call)
  | advance (n : ι) (i : Nat)
  | prune (n : ι) (i : Nat) (sequence : Nat) (deleted : Bool)
  | fail (n : ι) (i : Nat)
  | crash (n : ι)

variable {ι : Type} [DecidableEq ι] (s : Cluster ι)

def Cluster.setNode (n : ι) (node : Node) : Cluster ι :=
  { s with nodes := Function.update s.nodes n node }

/-- Deletions of a rollup happen in any order and may each fail; any call may end
early; a crashed process comes back with a new index. -/
def step : Action ι → Option (Cluster ι)
  | .start n call =>
    if (s.nodes n).canStart call then
      some (s.setNode n { s.nodes n with calls := (s.nodes n).calls ++ call.first.toList })
    else none
  | .advance n i => do
    let ph ← (s.nodes n).calls[i]?
    let o ← ph.advance snapshotInterval s.store (s.nodes n).index
    some { store := o.store, committed := s.committed ++ o.committed,
           nodes := Function.update s.nodes n ((s.nodes n).resume i o.index o.next) }
  | .prune n i number deleted => match (s.nodes n).calls[i]? with
    | some (.deleting doomed) =>
      if number ∈ doomed then
        some { store := if deleted then s.store.delete number else s.store, committed := s.committed,
               nodes := Function.update s.nodes n ((s.nodes n).resume i (s.nodes n).index
                 (some (.deleting (doomed.erase number)))) }
      else none
    | _ => none
  | .fail n i =>
    if i < (s.nodes n).calls.length then
      some (s.setNode n ((s.nodes n).resume i (s.nodes n).index none))
    else none
  | .crash n => some (s.setNode n ⟨new, []⟩)

end VarveDB.FileIndexLog
