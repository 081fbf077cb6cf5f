import VarveDB.Compaction.Apply

/-! The allocator of Parquet file ids over the life of a node. -/
namespace VarveDB
open Library Runs List PersistedSnapshot
open Compaction (Process Delivery CompactionNotice)

namespace PersistedSnapshot

variable (m : PersistedSnapshot)

def Lists (k : TableKey) (f : ParquetFile) : Prop := f ∈ m.addedTo k ∨ f ∈ m.removedFrom k

def fileIds : List Nat := (m.databases ++ m.removedFiles).flatMap fun t => t.2.map ParquetFile.id

theorem mem_fileIds {m : PersistedSnapshot} {id : Nat} : id ∈ m.fileIds ↔ ∃ k f, m.Lists k f ∧ f.id = id := by
  simp only [fileIds, Lists, addedTo, removedFrom, filesOf, mem_flatMap, mem_append, mem_map, mem_ite_nil_right]
  constructor
  · rintro ⟨t, ht, f, hf, hid⟩
    exact ⟨t.1, f, ht.imp (fun ht => ⟨t, ht, rfl, hf⟩) fun ht => ⟨t, ht, rfl, hf⟩, hid⟩
  · rintro ⟨k, f, ⟨t, ht, -, hf⟩ | ⟨t, ht, -, hf⟩, hid⟩
    · exact ⟨t, .inl ht, f, hf, hid⟩
    · exact ⟨t, .inr ht, f, hf, hid⟩

end PersistedSnapshot

variable {number walSequence catalogSequence next : Nat} {removed : List (TableKey × ParquetFile)}
  {durable : List PersistedSnapshot} {e : TableKey × ParquetFile} {checkpoints : List Mark} {nodeId : String}
  {listed : Bool}

namespace FileIds

structure Mark where
  number : Nat
  nextFileId : Nat
  deriving DecidableEq

def markOf (m : PersistedSnapshot) : Mark := ⟨m.snapshotSequenceNumber, m.nextFileId⟩

/-- The number is taken with the flush of a WAL file, the files due for deletion when the buffer is snapshotted; a
task then creates the manifest and adds what the jobs write. -/
inductive SnapshotPhase where
  | idle
  | planned (number : Nat)
  | collected (number : Nat) (removed : List (TableKey × ParquetFile))
  | writing (snapshot : PersistedSnapshot)

/-- The snapshot side of a process. `minted` holds files handed over to the file list and not
yet added to the manifest. -/
structure Writer where
  replaying : Bool
  loadedNumber : Nat
  phase : SnapshotPhase
  minted : List (TableKey × ParquetFile)

structure Node where
  base : Compaction.Node
  writer : Writer
  recorded : List Nat
  checkpoints : List Mark

structure WrittenFile where
  table : TableKey
  path : String
  sizeBytes : Nat
  rowCount : Nat
  chunkTime : Int
  minTime : Int
  maxTime : Int

def WrittenFile.withId (w : WrittenFile) (id : Nat) : ParquetFile :=
  ⟨id, w.path, w.sizeBytes, w.rowCount, w.chunkTime, w.minTime, w.maxTime⟩

inductive Action where
  | compaction (a : Compaction.Action)
  | plan
  | replaySnapshot (number : Nat)
  | collect (due : List (TableKey × Option Int))
  | create (walSequence catalogSequence : Nat)
  | mint (file : WrittenFile)
  | addParquetFile (e : TableKey × ParquetFile)
  | persistSnapshot
  | checkpoint (m : PersistedSnapshot)
  | finishReplay
  | crash
  | restart (checkpointsListed : Bool)

/-- The mark a restart begins from: with checkpoints listed, that of the newest manifest above the
newest checkpoint, or else the checkpoint's own; without, that of the newest manifest. -/
def restoredMark (durable : List PersistedSnapshot) (checkpoints : List Mark) (listed : Bool) : Option Mark :=
  match if listed then checkpoints.argmax Mark.number else none with
  | none => (newestSnapshot durable).map markOf
  | some c =>
    match newestSnapshot (durable.filter fun m => c.number < m.snapshotSequenceNumber) with
    | some m => some (markOf m)
    | none => some c

namespace Node

def empty (nodeId : String) : Node := ⟨⟨nodeId, [], none, [], []⟩, ⟨false, 0, .idle, []⟩, [], []⟩

variable (s : Node)

def setProcess (p : Compaction.Process) : Node := { s with base.process := some p }

def startProcess (listed : Bool) : Compaction.Process :=
  let mark := restoredMark s.base.durable s.checkpoints listed
  { Compaction.Process.restart s.base.durable with
    nextFileId := mark.elim 0 Mark.nextFileId
    lastSnapshotSequenceNumber := mark.elim 0 Mark.number }

/-- A replayed WAL file runs its snapshot again under the recorded number if that is above the one the restart loaded,
and the tracker counts it as its own next number. -/
def step : Action → Option Node
  | .compaction .crash => none
  | .compaction .restart => none
  | .compaction a =>
    if s.writer.replaying then none
    else (Compaction.step s.base a).map fun base => { s with base }
  | .plan => do
    let p ← s.base.process
    match s.writer.phase with
    | .idle =>
      if s.writer.replaying then none
      else
        let number := p.lastSnapshotSequenceNumber + 1
        some { s.setProcess { p with lastSnapshotSequenceNumber := number } with
          writer := { s.writer with phase := .planned number }, recorded := s.recorded ++ [number] }
    | _ => none
  | .replaySnapshot number => do
    let p ← s.base.process
    match s.writer.phase with
    | .idle =>
      if s.writer.replaying ∧ number ∈ s.recorded ∧ s.writer.loadedNumber < number then
        some { s.setProcess { p with lastSnapshotSequenceNumber := p.lastSnapshotSequenceNumber + 1 } with
          writer := { s.writer with phase := .planned number } }
      else none
    | _ => none
  | .collect due => do
    let p ← s.base.process
    match s.writer.phase with
    | .planned number =>
      let (removed, files) := p.persistedFiles.removeFilesForDeletion due
      some { s.setProcess { p with persistedFiles := files } with
        writer := { s.writer with phase := .collected number removed } }
    | _ => none
  | .create walSequence catalogSequence => do
    let p ← s.base.process
    match s.writer.phase with
    | .collected number removed =>
      let snapshot := PersistedSnapshot.new s.base.nodeId number walSequence catalogSequence p.nextFileId
      some { s with writer := { s.writer with
        phase := .writing { snapshot with removedFiles := removed.map fun e => (e.1, [e.2]) } } }
    | _ => none
  | .mint file => do
    let p ← s.base.process
    match s.writer.phase with
    | .writing _ =>
      let parquetFile := file.withId p.nextFileId
      some { s.setProcess { p with
          nextFileId := p.nextFileId + 1
          persistedFiles := p.persistedFiles.addPersistedFile file.table parquetFile } with
        writer := { s.writer with minted := s.writer.minted ++ [(file.table, parquetFile)] } }
    | _ => none
  | .addParquetFile e => do
    let p ← s.base.process
    match s.writer.phase with
    | .writing snapshot =>
      if e ∈ s.writer.minted then
        some { s with writer := { s.writer with
          phase := .writing (snapshot.addParquetFile p.nextFileId e.1 e.2), minted := s.writer.minted.erase e } }
      else none
    | _ => none
  | .persistSnapshot => do
    let _ ← s.base.process
    match s.writer.phase with
    | .writing snapshot =>
      if s.writer.minted = [] then
        some { s with base.durable := putSnapshot s.base.durable snapshot, writer := { s.writer with phase := .idle } }
      else none
    | _ => none
  | .checkpoint m => if m ∈ s.base.durable then some { s with checkpoints := s.checkpoints ++ [markOf m] } else none
  | .finishReplay =>
    match s.writer.phase with
    | .idle => some { s with writer := { s.writer with replaying := false } }
    | _ => none
  | .crash => some { s with base.process := none, writer := ⟨false, 0, .idle, []⟩ }
  | .restart listed =>
    match s.base.process with
    | none => some { s.setProcess (s.startProcess listed) with
        writer := ⟨true, (s.startProcess listed).lastSnapshotSequenceNumber, .idle, []⟩ }
    | some _ => none

end Node
def SnapshotPhase.Names : SnapshotPhase → TableKey → ParquetFile → Prop
  | .collected _ removed, k, f => (k, f) ∈ removed
  | .writing snapshot, k, f => snapshot.Lists k f
  | _, _, _ => False

def Names (c : Compaction.Delivery) (k : TableKey) (f : ParquetFile) : Prop :=
  k = c.notice.table ∧ (f = c.merged ∨ f ∈ c.removed)

def SnapshotPhase.Stamped (phase : SnapshotPhase) : Prop :=
  ∀ m, phase = .writing m → ∀ id ∈ m.fileIds, id < m.nextFileId

def Stamped (c : Compaction.Delivery) : Prop :=
  ∀ m, c.stage = .persisting m → (∀ id ∈ m.fileIds, id < m.nextFileId) ∧ ∀ k f, m.Lists k f → Names c k f

def Held (p : Compaction.Process) (w : Writer) (k : TableKey) (f : ParquetFile) : Prop :=
  f ∈ p.persistedFiles.files k ∨ (k, f) ∈ w.minted ∨ w.phase.Names k f ∨ ∃ c ∈ p.deliveries, Names c k f

namespace Node

def Known (s : Node) (k : TableKey) (f : ParquetFile) : Prop :=
  (∃ m ∈ s.base.durable, m.Lists k f) ∨ ∃ p ∈ s.base.process, Held p s.writer k f

def marks (s : Node) : List Mark := s.base.durable.map markOf ++ s.checkpoints

/-- An id stands for one file in all that durable manifests name: no two files they list share
one, and a removal by id meets the removed file itself. -/
def IdsUnique (s : Node) : Prop :=
  ∀ m ∈ s.base.durable, ∀ m' ∈ s.base.durable, ∀ k k' f f', m.Lists k f → m'.Lists k' f' → f.id = f'.id →
    k = k' ∧ f = f'

/-- The manifest's next id lies above all ids of lower manifests, and its own ids below the next id of every higher
one and of every checkpoint that reaches it. -/
def InIdOrder (s : Node) (m : PersistedSnapshot) : Prop :=
  (∀ d ∈ s.base.durable, d.snapshotSequenceNumber < m.snapshotSequenceNumber → ∀ id ∈ d.fileIds, id < m.nextFileId) ∧
  (∀ d ∈ s.base.durable, m.snapshotSequenceNumber < d.snapshotSequenceNumber → ∀ id ∈ m.fileIds, id < d.nextFileId) ∧
  ∀ c ∈ s.checkpoints, m.snapshotSequenceNumber ≤ c.number → ∀ id ∈ m.fileIds, id < c.nextFileId

instance (s : Node) (m : PersistedSnapshot) : Decidable (s.InIdOrder m) := inferInstanceAs (Decidable (_ ∧ _ ∧ _))

def compactionManifest (s : Node) (id : Nat) : Option PersistedSnapshot := do
  let p ← s.base.process
  let c ← p.find id
  match c.stage with
  | .persisting m => some m
  | _ => none

def snapshotManifest (s : Node) : Option PersistedSnapshot :=
  match s.writer.phase with
  | .writing m => some m
  | _ => none

def Safe (s : Node) : Action → Prop
  | .compaction (.persist id _) => ∀ m ∈ s.compactionManifest id, s.InIdOrder m
  | .persistSnapshot => ∀ m ∈ s.snapshotManifest, s.InIdOrder m
  | _ => True

instance (s : Node) (a : Action) : Decidable (s.Safe a) := by
  rcases a with ⟨_ | _⟩ | _ <;> dsimp only [Node.Safe] <;> infer_instance

/-- Ids known to the node stand for one file each and lie below the allocator; a manifest's next id
lies above its own ids and, once durable, above those of every manifest numbered up to it. -/
structure Invariant (s : Node) : Prop where
  unique : ∀ k k' f f', s.Known k f → s.Known k' f' → f.id = f'.id → k = k' ∧ f = f'
  bounded : ∀ p ∈ s.base.process, ∀ k f, s.Known k f → f.id < p.nextFileId
  marks : ∀ m ∈ s.base.durable, ∀ mark ∈ s.marks, m.snapshotSequenceNumber ≤ mark.number →
    ∀ id ∈ m.fileIds, id < mark.nextFileId
  phase : s.writer.phase.Stamped
  deliveries : ∀ p ∈ s.base.process, ∀ c ∈ p.deliveries, Stamped c

variable {s s' : Node} {p p' : Process} {k : TableKey} {f : ParquetFile} {m : PersistedSnapshot}

theorem Invariant.empty (nodeId : String) : Invariant (Node.empty nodeId) := by
  have hknown : ∀ k f, ¬(Node.empty nodeId).Known k f := by simp [Known, Node.empty]
  refine ⟨fun k _ f _ h => absurd h (hknown k f), fun _ _ k f h => absurd h (hknown k f), ?_, nofun, ?_⟩ <;>
    simp [Node.empty]

section
variable (hp : s.base.process = some p)
include hp

theorem known_file (hf : f ∈ p.persistedFiles.files k) : s.Known k f := .inr ⟨p, hp, .inl hf⟩

theorem known_minted (hf : (k, f) ∈ s.writer.minted) : s.Known k f :=
  .inr ⟨p, hp, .inr (.inl hf)⟩

theorem known_phase (hf : s.writer.phase.Names k f) : s.Known k f :=
  .inr ⟨p, hp, .inr (.inr (.inl hf))⟩

theorem known_delivery {c : Delivery} (hc : c ∈ p.deliveries) (hf : Names c k f) : s.Known k f :=
  .inr ⟨p, hp, .inr (.inr (.inr ⟨c, hc, hf⟩))⟩

end

theorem Invariant.delivery (h : Invariant s) (hp : s.base.process = some p) {new : Option (TableKey × ParquetFile)}
    {c : Delivery} (hc : c ∈ p.deliveries) : Stamped c ∧ ∀ k f, Names c k f → s.Known k f ∨ new = some (k, f) :=
  ⟨h.deliveries p hp c hc, fun _ _ hf => .inl (known_delivery hp hc hf)⟩

/-- A step of a process. What it names was known, or is the file whose id it mints. -/
theorem Invariant.process (h : Invariant s) (new : Option (TableKey × ParquetFile)) (hp : s.base.process = some p)
    (hp' : s'.base.process = some p') (hle : p.nextFileId ≤ p'.nextFileId)
    (hnew : ∀ e ∈ new, e.2.id = p.nextFileId ∧ p.nextFileId < p'.nextFileId)
    (hdurable : ∀ m ∈ s'.base.durable, m ∈ s.base.durable ∨ ∀ k f, m.Lists k f → s.Known k f)
    (hfiles : ∀ k f, f ∈ p'.persistedFiles.files k → f ∈ p.persistedFiles.files k ∨ new = some (k, f))
    (hminted : ∀ e ∈ s'.writer.minted, e ∈ s.writer.minted ∨ new = some e)
    (hphase : ∀ k f, s'.writer.phase.Names k f → s.Known k f) (hstamped : s'.writer.phase.Stamped)
    (hdeliveries : ∀ c ∈ p'.deliveries, Stamped c ∧ ∀ k f, Names c k f → s.Known k f ∨ new = some (k, f))
    (hmarks : ∀ m ∈ s'.base.durable, ∀ mark ∈ s'.marks, m.snapshotSequenceNumber ≤ mark.number →
      ∀ id ∈ m.fileIds, id < mark.nextFileId) : Invariant s' := by
  have hsame {q : Process} (hq : q ∈ s'.base.process) : q = p' := some.inj (hq.symm.trans hp')
  have hknown {k : TableKey} {f : ParquetFile} (hf : s'.Known k f) : s.Known k f ∨ new = some (k, f) := by
    rcases hf with ⟨m, hm, hf⟩ | ⟨q, hq, hf⟩
    · exact .inl ((hdurable m hm).elim (fun hm => .inl ⟨m, hm, hf⟩) fun hm => hm k f hf)
    · obtain rfl := hsame hq
      rcases hf with hf | hf | hf | ⟨c, hc, hf⟩
      · exact (hfiles k f hf).imp_left (known_file hp)
      · exact (hminted _ hf).imp_left (known_minted hp)
      · exact .inl (hphase k f hf)
      · exact (hdeliveries c hc).2 k f hf
  have hlt {k k' : TableKey} {f f' : ParquetFile} (hf : s.Known k f) (hf' : new = some (k', f')) : f.id < f'.id :=
    (hnew _ hf').1 ▸ h.bounded p hp k f hf
  refine ⟨fun k k' f f' hf hf' heq => ?_, fun q hq k f hf => ?_, hmarks, hstamped, fun q hq c hc => ?_⟩
  · rcases hknown hf with hf | hf <;> rcases hknown hf' with hf' | hf'
    · exact h.unique k k' f f' hf hf' heq
    · exact absurd heq (hlt hf hf').ne
    · exact absurd heq.symm (hlt hf' hf).ne
    · exact Prod.mk.inj (some.inj (hf.symm.trans hf'))
  · rw [hsame hq]
    rcases hknown hf with hf | hf
    · exact (h.bounded p hp k f hf).trans_le hle
    · obtain ⟨hid, hlt⟩ := hnew _ hf
      exact hid.trans_lt hlt
  · exact (hdeliveries c (hsame hq ▸ hc)).1

/-- What stands in id order is stored. -/
theorem Invariant.marks_put (h : Invariant s) (hm : ∀ id ∈ m.fileIds, id < m.nextFileId) (horder : s.InIdOrder m) :
    ∀ d ∈ putSnapshot s.base.durable m, ∀ mark ∈ (putSnapshot s.base.durable m).map markOf ++ s.checkpoints,
      d.snapshotSequenceNumber ≤ mark.number → ∀ id ∈ d.fileIds, id < mark.nextFileId := by
  intro d hd mark hmark hle
  obtain ⟨hlower, hhigher, hreached⟩ := horder
  rcases mem_putSnapshot.mp hd with ⟨hold, hne⟩ | rfl <;> rcases mem_append.mp hmark with hmark | hmark
  · obtain ⟨d', hd', rfl⟩ := mem_map.mp hmark
    rcases mem_putSnapshot.mp hd' with ⟨hold', -⟩ | rfl
    · exact h.marks d hold _ (mem_append_left _ (mem_map_of_mem hold')) hle
    · exact hlower d hold (Nat.lt_of_le_of_ne hle hne)
  · exact h.marks d hold mark (mem_append_right _ hmark) hle
  · obtain ⟨d', hd', rfl⟩ := mem_map.mp hmark
    rcases mem_putSnapshot.mp hd' with ⟨hold', hne⟩ | rfl
    · exact hhigher d' hold' (Nat.lt_of_le_of_ne hle hne.symm)
    · exact hm
  · exact hreached mark hmark hle

theorem mem_putSnapshot_known (hlisted : ∀ k f, m.Lists k f → s.Known k f) {d : PersistedSnapshot}
    (hd : d ∈ putSnapshot s.base.durable m) : d ∈ s.base.durable ∨ ∀ k f, d.Lists k f → s.Known k f := by
  rcases mem_putSnapshot.mp hd with ⟨hd, -⟩ | rfl
  · exact .inl hd
  · exact .inr hlisted

variable {f : ParquetFile} {k : TableKey} {w : Writer}

section Compactions
variable {c : Delivery} {id : Nat}

theorem deliver_ok (h : Invariant s) (hp : s.base.process = some p) (notice : CompactionNotice) :
    Invariant { s with base := s.base.deliver p notice } := by
  obtain ⟨hleft, hremoved⟩ :=
      p.persistedFiles.mem_applyCompaction notice.table (notice.mergedFile p.nextFileId) notice.removedPaths
  let merged := notice.mergedFile p.nextFileId
  have hfiles (k : TableKey) (f : ParquetFile)
      (hf : f ∈ (p.persistedFiles.applyCompaction notice.table [merged] notice.removedPaths).2.2.files k) :
      f ∈ p.persistedFiles.files k ∨ some (notice.table, merged) = some (k, f) :=
    (hleft k f hf).imp_right fun ⟨hk, hf⟩ => by rw [hk, hf]
  have hnew : ∀ e ∈ some (notice.table, merged), e.2.id = p.nextFileId ∧ p.nextFileId < p.nextFileId + 1 := by
    rintro e ⟨⟩
    exact ⟨rfl, Nat.lt_succ_self _⟩
  -- the two outcomes differ in whether the delivery goes on; both have minted the id
  simp only [Compaction.Node.deliver]
  split
  · exact h.process (some (notice.table, merged)) hp rfl (Nat.le_succ _) hnew (fun _ => .inl) hfiles (fun _ => .inl)
      (fun _ _ => known_phase hp) h.phase (fun c hc => h.delivery hp hc) h.marks
  · refine h.process (some (notice.table, merged)) hp rfl (Nat.le_succ _) hnew (fun _ => .inl) hfiles (fun _ => .inl)
      (fun _ _ => known_phase hp) h.phase (fun c hc => ?_) h.marks
    rcases KeyedList.mem_insertNew.mp hc with hc | ⟨rfl, -⟩
    · exact h.delivery hp hc
    · refine ⟨nofun, ?_⟩
      rintro k f ⟨rfl, rfl | hf⟩
      · exact .inr rfl
      · exact (hremoved f hf).imp (known_file hp) fun hf => by rw [hf]

theorem advance_ok (h : Invariant s) (hp : s.base.process = some p) (hc : c ∈ p.deliveries)
    {stage : Compaction.Stage} (last : Nat)
    (hstage : ∀ m, stage = .persisting m → (∀ id ∈ m.fileIds, id < m.nextFileId) ∧ ∀ k f, m.Lists k f → Names c k f) :
    Invariant (s.setProcess { p.advance c stage with lastSnapshotSequenceNumber := last }) := by
  refine h.process none hp rfl le_rfl nofun (fun _ => .inl) (fun _ _ => .inl) (fun _ => .inl)
    (fun _ _ => known_phase hp) h.phase (fun c' hc' => ?_) h.marks
  rcases Process.mem_advance.mp hc' with ⟨hc', -⟩ | rfl
  · exact h.delivery hp hc'
  · exact ⟨hstage, fun _ _ hf => .inl (known_delivery hp hc hf)⟩

theorem names_of_compactionSnapshot (hf : (Compaction.compactionSnapshot nodeId number walSequence catalogSequence next
      c.notice.table c.merged c.removed).Lists k f) : Names c k f := by
  rw [PersistedSnapshot.Lists, Compaction.addedTo_compactionSnapshot, Compaction.removedFrom_compactionSnapshot] at hf
  by_cases hk : c.notice.table = k
  · exact ⟨hk.symm, by simpa [hk] using hf⟩
  · simp [hk] at hf

variable (h : Invariant s)
include h

theorem stamp_ok (hp : s.base.process = some p) (hc : c ∈ p.deliveries) (number catalogSequence : Nat) :
    Invariant (s.setProcess (p.advance c (.persisting (Compaction.compactionSnapshot s.base.nodeId number
      p.lastPersistedWalSequenceNumber catalogSequence p.nextFileId c.notice.table c.merged c.removed)))) := by
  refine advance_ok h hp hc p.lastSnapshotSequenceNumber ?_
  rintro m ⟨⟩
  refine ⟨fun id hid => ?_, fun k f hf => names_of_compactionSnapshot hf⟩
  obtain ⟨k, f, hf, rfl⟩ := mem_fileIds.mp hid
  exact h.bounded p hp k f (known_delivery hp hc (names_of_compactionSnapshot hf))

theorem persist_ok (hp : s.base.process = some p) (hc : c ∈ p.deliveries)
    (hstage : c.stage = .persisting m) (horder : s.InIdOrder m) (result : Compaction.PutResult) :
    Invariant { s with base := s.base.persist p c m result } := by
  obtain ⟨hm, hlists⟩ := h.deliveries p hp c hc m hstage
  have hdeliveries : ∀ c' ∈ (p.finish c.mergedId).deliveries, Stamped c' ∧ ∀ k f, Names c' k f → s.Known k f ∨
      none = some (k, f) :=
    fun c' hc' => h.delivery hp (Process.mem_finish.mp hc').1
  have hdurable {d : PersistedSnapshot} := mem_putSnapshot_known (d := d) fun k f hf =>
      known_delivery hp hc (hlists k f hf)
  cases result with
  | failed =>
    exact h.process none hp rfl le_rfl nofun (fun _ => .inl) (fun _ _ => .inl) (fun _ => .inl)
      (fun _ _ => known_phase hp)
      h.phase hdeliveries h.marks
  | ok | unacknowledged =>
    exact h.process none hp rfl le_rfl nofun (fun _ => hdurable) (fun _ _ => .inl) (fun _ => .inl)
      (fun _ _ => known_phase hp) h.phase hdeliveries (h.marks_put hm horder)

private theorem compaction_ok {a : Compaction.Action} (hsafe : s.Safe (.compaction a))
    {base : Compaction.Node} (hcrash : a ≠ .crash) (hrestart : a ≠ .restart)
    (hstep : Compaction.step s.base a = some base) : Invariant { s with base } := by
  cases a
  case crash => exact absurd rfl hcrash
  case restart => exact absurd rfl hrestart
  all_goals obtain ⟨p, hp, hstep⟩ := bind_eq_some_iff.mp hstep
  case deliver =>
    split at hstep
    · exact some.inj hstep ▸ h
    · exact some.inj hstep ▸ deliver_ok h hp _
  all_goals
    obtain ⟨c, hfind, hstep⟩ := bind_eq_some_iff.mp hstep
    have hc := Process.mem_of_find hfind
    split at hstep <;> cases hstep
  · exact advance_ok h hp hc _ nofun
  · exact stamp_ok h hp hc _ _
  · next m hstage _ =>
    have horder : s.InIdOrder m := hsafe m (by simp [compactionManifest, hp, hfind, hstage])
    exact persist_ok h hp hc hstage horder _

end Compactions

section Snapshots

/-- A step of the snapshot under way that mints and stores nothing: what it names was known, and a
manifest it leaves has its next id above its own ids. -/
theorem snapshot_ok (h : Invariant s) (hp : s.base.process = some p) {files : PersistedFiles} {last : Nat}
    {recorded : List Nat} (hfiles : ∀ k f, f ∈ files.files k → f ∈ p.persistedFiles.files k)
    (hminted : ∀ e ∈ w.minted, e ∈ s.writer.minted) (hphase : ∀ k f, w.phase.Names k f → s.Known k f)
    (hstamped : w.phase.Stamped) :
    Invariant { s.setProcess { p with persistedFiles := files, lastSnapshotSequenceNumber := last } with
      writer := w, recorded } :=
  h.process none hp rfl le_rfl nofun (fun _ => .inl) (fun k f hf => .inl (hfiles k f hf))
    (fun e he => .inl (hminted e he)) hphase hstamped (fun _ hc => h.delivery hp hc) h.marks

private theorem lists_new (hf : ({ new nodeId number walSequence catalogSequence next with
      removedFiles := removed.map fun e => (e.1, [e.2]) } : PersistedSnapshot).Lists k f) : (k, f) ∈ removed := by
  simp only [PersistedSnapshot.Lists, addedTo, removedFrom, new,
    filesOf, flatMap_nil, not_mem_nil, false_or, flatMap_map, mem_flatMap, mem_ite_nil_right, mem_singleton] at hf
  obtain ⟨e, he, rfl, rfl⟩ := hf
  exact he

private theorem lists_addParquetFile {next : Nat} (hf : (m.addParquetFile next e.1 e.2).Lists k f) :
    m.Lists k f ∨ (k, f) = e := by
  simp only [PersistedSnapshot.Lists, addedTo, removedFrom,
    addParquetFile, filesOf, flatMap_append, flatMap_singleton, mem_append, mem_ite_nil_right, mem_singleton] at hf
  rcases hf with (hf | ⟨rfl, rfl⟩) | hf
  · exact .inl (.inl hf)
  · exact .inr rfl
  · exact .inl (.inr hf)

section
variable (h : Invariant s) (hp : s.base.process = some p)
include h hp

theorem create_ok {number : Nat} (hphase : s.writer.phase = .collected number removed)
    (walSequence catalogSequence : Nat)
    (hm : m = { new s.base.nodeId number walSequence catalogSequence p.nextFileId with
      removedFiles := removed.map fun e => (e.1, [e.2]) }) :
    Invariant { s with writer := { s.writer with phase := .writing m } } := by
  have hknown {k : TableKey} {f : ParquetFile} (hf : m.Lists k f) : s.Known k f := by
    subst hm
    exact known_phase hp (hphase ▸ lists_new hf)
  refine h.process none hp hp le_rfl nofun (fun _ => .inl) (fun _ _ => .inl) (fun _ => .inl)
    (fun _ _ => hknown) ?_ (fun _ hc => h.delivery hp hc) h.marks
  rintro m' ⟨⟩ id hid
  obtain ⟨k, f, hf, rfl⟩ := mem_fileIds.mp hid
  exact hm ▸ h.bounded p hp k f (hknown hf)

private theorem mint_ok (file : WrittenFile) : Invariant { s.setProcess { p with
        nextFileId := p.nextFileId + 1
        persistedFiles := p.persistedFiles.addPersistedFile file.table (file.withId p.nextFileId) } with
      writer := { s.writer with minted := s.writer.minted ++ [(file.table, file.withId p.nextFileId)] } } := by
  refine h.process (some (file.table, file.withId p.nextFileId)) hp rfl (Nat.le_succ _) ?_ (fun _ => .inl) ?_ ?_
    (fun _ _ => known_phase hp) h.phase (fun _ hc => h.delivery hp hc) h.marks
  · rintro e ⟨⟩
    exact ⟨rfl, Nat.lt_succ_self _⟩
  · exact fun k f hf => (PersistedFiles.mem_addPersistedFile hf).imp_right fun ⟨hk, hf⟩ => by rw [hk, hf]
  · exact fun e he => (mem_snoc.mp he).imp_right fun he => by rw [he]

variable (hphase : s.writer.phase = .writing m)
include hphase

private theorem addParquetFile_ok (he : e ∈ s.writer.minted) : Invariant { s with writer := { s.writer with
      phase := .writing (m.addParquetFile p.nextFileId e.1 e.2), minted := s.writer.minted.erase e } } := by
  have hknown {k : TableKey} {f : ParquetFile} (hf : (m.addParquetFile p.nextFileId e.1 e.2).Lists k f) :
      s.Known k f := by
    rcases lists_addParquetFile hf with hf | rfl
    · exact known_phase hp (by rw [hphase]; exact hf)
    · exact known_minted hp he
  refine h.process none hp hp le_rfl nofun (fun _ => .inl) (fun _ _ => .inl)
    (fun _ he => .inl (mem_of_mem_erase he)) (fun _ _ => hknown) ?_ (fun _ hc => h.delivery hp hc) h.marks
  rintro m' ⟨⟩ id hid
  obtain ⟨k, f, hf, rfl⟩ := mem_fileIds.mp hid
  exact h.bounded p hp k f (hknown hf)

theorem persistSnapshot_ok (horder : s.InIdOrder m) : Invariant { s with
      base.durable := putSnapshot s.base.durable m, writer := { s.writer with phase := .idle } } :=
  h.process none hp hp le_rfl nofun
    (fun _ => mem_putSnapshot_known fun _ _ hf =>
      known_phase hp (by rw [hphase]; exact hf)) (fun _ _ => .inl) (fun _ => .inl)
    (fun _ _ hf => hf.elim) nofun (fun _ hc => h.delivery hp hc) (h.marks_put (h.phase m hphase) horder)

end

end Snapshots

/-- The mark a restart begins from is a stored one, and no manifest has a higher number. -/
theorem restoredMark_eq_some {mark : Mark} (h : restoredMark durable checkpoints listed = some mark) :
    mark ∈ durable.map markOf ++ checkpoints ∧ ∀ m ∈ durable, m.snapshotSequenceNumber ≤ mark.number := by
  unfold restoredMark at h
  split at h
  · obtain ⟨m, hm, rfl⟩ := map_eq_some_iff.mp h
    exact ⟨mem_append_left _ (mem_map_of_mem (newestSnapshot_mem hm)), fun d hd => newestSnapshot_max hm hd⟩
  · rename_i c hc
    have hmem : c ∈ checkpoints := by
      split at hc
      · exact argmax_mem hc
      · cases hc
    split at h
    · rename_i m hm
      cases h
      obtain ⟨hin, hgt⟩ := mem_filter.mp (newestSnapshot_mem hm)
      refine ⟨mem_append_left _ (mem_map_of_mem hin), fun d hd => ?_⟩
      rcases Nat.lt_or_ge c.number d.snapshotSequenceNumber with hlt | hge
      · exact newestSnapshot_max hm (mem_filter.mpr ⟨hd, decide_eq_true hlt⟩)
      · exact hge.trans (of_decide_eq_true hgt).le
    · rename_i hnone
      cases h
      refine ⟨mem_append_right _ hmem, fun d hd => Nat.not_lt.mp fun hlt => ?_⟩
      have hempty := newestSnapshot_eq_none hnone
      exact absurd (decide_eq_true hlt) (filter_eq_nil_iff.mp hempty d hd)

private theorem restoredMark_eq_none (h : restoredMark durable checkpoints listed = none) : durable = [] := by
  unfold restoredMark at h
  split at h
  · exact newestSnapshot_eq_none (Option.map_eq_none_iff.mp h)
  · split at h <;> cases h

theorem restart_ok (h : Invariant s) (listed : Bool) (hphase : w.phase = .idle) (hminted : w.minted = []) :
    Invariant { s.setProcess (s.startProcess listed) with writer := w } := by
  have hknown : ∀ k f, ({ s.setProcess (s.startProcess listed) with writer := w } : Node).Known k f →
      ∃ m ∈ s.base.durable, m.Lists k f := by
    rintro k f (hf | ⟨q, ⟨⟩, hf | hf | hf | ⟨c, hc, -⟩⟩)
    · exact hf
    · obtain ⟨m, hm, hf⟩ := PersistedFiles.added_of_mem_newFromPersistedSnapshots hf
      exact ⟨m, hm, .inl hf⟩
    · simp [hminted] at hf
    · rw [hphase] at hf
      exact hf.elim
    · exact absurd hc (KeyedList.not_mem_empty c)
  refine ⟨fun k k' f f' hf hf' => h.unique k k' f f' (.inl (hknown k f hf)) (.inl (hknown k' f' hf')), ?_,
    h.marks, ?_, ?_⟩
  · rintro q ⟨⟩ k f hf
    obtain ⟨m, hm, hf⟩ := hknown k f hf
    have hid : f.id ∈ m.fileIds := mem_fileIds.mpr ⟨k, f, hf, rfl⟩
    simp only [startProcess]
    cases hmark : restoredMark s.base.durable s.checkpoints listed with
    | none => rw [restoredMark_eq_none hmark] at hm; cases hm
    | some mark =>
      obtain ⟨hin, hmax⟩ := restoredMark_eq_some hmark
      exact h.marks m hm mark hin (hmax m hm) f.id hid
  · simp [SnapshotPhase.Stamped, hphase]
  · rintro q ⟨⟩ c hc
    exact absurd hc (KeyedList.not_mem_empty c)

theorem Invariant.step (h : Invariant s) {a : Action} (hsafe : s.Safe a) (hstep : s.step a = some s') :
    Invariant s' := by
  cases a
  case compaction a =>
    cases a with
    | crash | restart => cases hstep
    | _ =>
      obtain ⟨-, hstep⟩ := Option.ite_none_left_eq_some.mp hstep
      obtain ⟨base, hbase, rfl⟩ := map_eq_some_iff.mp hstep
      exact compaction_ok h hsafe nofun nofun hbase
  case checkpoint m =>
    obtain ⟨hm, ⟨⟩⟩ := ite_none_right_eq_some.mp hstep
    refine { h with marks := fun d hd mark hmark => h.marks d hd mark ?_ }
    rcases mem_append.mp hmark with hmark | hmark
    · exact mem_append_left _ hmark
    · rcases mem_snoc.mp hmark with hmark | rfl
      · exact mem_append_right _ hmark
      · exact mem_append_left _ (mem_map_of_mem hm)
  case finishReplay =>
    rw [Node.step] at hstep
    split at hstep <;> cases hstep
    exact { h with }
  case crash =>
    cases hstep
    have hknown {k : TableKey} {f : ParquetFile}
        (hf : Known { s with base.process := none, writer := ⟨false, 0, .idle, []⟩ } k f) :
        s.Known k f := hf.imp_right fun ⟨_, hp, _⟩ => nomatch hp
    exact ⟨fun k k' f f' hf hf' => h.unique k k' f f' (hknown hf) (hknown hf'), nofun, h.marks, nofun, nofun⟩
  case restart listed =>
    rw [Node.step] at hstep
    split at hstep <;> cases hstep
    exact restart_ok h listed rfl rfl
  all_goals
    obtain ⟨p, hp, hstep⟩ := bind_eq_some_iff.mp hstep
    split at hstep
  all_goals try cases hstep
  -- the branches that yield a state, in the order of the actions
  · obtain ⟨-, hstep⟩ := Option.ite_none_left_eq_some.mp hstep
    exact some.inj hstep ▸ snapshot_ok h hp (fun _ _ hf => hf) (fun _ he => he) (fun _ _ hf => hf.elim) nofun
  · obtain ⟨-, hstep⟩ := ite_none_right_eq_some.mp hstep
    exact some.inj hstep ▸ snapshot_ok h hp (fun _ _ hf => hf) (fun _ he => he) (fun _ _ hf => hf.elim) nofun
  · obtain ⟨hleft, hremoved⟩ := p.persistedFiles.mem_removeFilesForDeletion _
    exact snapshot_ok h hp hleft (fun _ he => he) (fun k f hf => known_file hp (hremoved (k, f) hf)) nofun
  · next hphase => exact create_ok h hp hphase _ _ rfl
  · exact mint_ok h hp _
  · next hphase =>
    obtain ⟨he, hstep⟩ := ite_none_right_eq_some.mp hstep
    exact some.inj hstep ▸ addParquetFile_ok h hp hphase he
  · next m hphase =>
    obtain ⟨hminted, hstep⟩ := ite_none_right_eq_some.mp hstep
    exact some.inj hstep ▸ persistSnapshot_ok h hp hphase (hsafe m (by simp [snapshotManifest, hphase]))

end Node

/-- In every run of a node that stores its manifests in id order, an id stands for one file in every
state reached. -/
theorem ids_unique_of_safe (nodeId : String) {as : List Action} {s : Node}
    (hsafe : Guarded Node.step Node.Safe (.empty nodeId) as) (hrun : run Node.step (.empty nodeId) as = some s) :
    s.IdsUnique :=
  fun m hm m' hm' k k' f f' hf hf' =>
    (invariant (Node.Invariant.step ·) (Node.Invariant.empty nodeId) hsafe hrun).unique k k' f f'
    (.inl ⟨m, hm, hf⟩) (.inl ⟨m', hm', hf'⟩)

private def written (path : String) (time : Int) : WrittenFile := ⟨(0, 0), path, 10, 1, 0, time, time⟩

private def snapshotOf (file : WrittenFile) (id : Nat) : List Action :=
  [.plan, .collect [], .create 1 1, .mint file, .addParquetFile (file.table, file.withId id), .persistSnapshot]

private def merge : Compaction.CompactionNotice := ⟨"node0", 0, 0, "merged", 20, 2, 0, 0, 1, ["a", "b"]⟩

private def mergedInTurn : List Action :=
  [.restart true, .finishReplay] ++ snapshotOf (written "a" 0) 0 ++ snapshotOf (written "b" 1) 1 ++
  [.compaction (.deliver merge), .compaction (.reserve 2), .compaction (.stamp 2 1), .compaction (.persist 2 .ok),
    .crash, .restart true, .finishReplay] ++ snapshotOf (written "c" 2) 3

theorem merged_in_turn_ids_unique : ∃ s, run Node.step (.empty "node0") mergedInTurn = some s ∧
    s.base.durable.map PersistedSnapshot.fileIds = [[0], [1], [2, 0, 1], [3]] ∧ s.IdsUnique := by
  exact exists_and (by decide) fun s hs _ => ids_unique_of_safe "node0" (by decide) hs

/-- A compaction numbered four records the next id while snapshot three is under way, whose job then mints that id;
after a restart it is minted again. -/
private def mergedDuringSnapshot : List Action :=
  [.restart true, .finishReplay] ++ snapshotOf (written "a" 0) 0 ++ snapshotOf (written "b" 1) 1 ++
  [.plan, .collect [], .create 1 1, .compaction (.deliver merge), .compaction (.reserve 2), .compaction (.stamp 2 1),
    .mint (written "c" 2), .addParquetFile ((0, 0), (written "c" 2).withId 3), .persistSnapshot,
    .compaction (.persist 2 .ok), .crash, .restart true, .finishReplay] ++ snapshotOf (written "d" 3) 3

theorem merge_during_snapshot_reuses_id : ∃ s, run Node.step (.empty "node0") mergedDuringSnapshot = some s ∧
    ¬s.IdsUnique := by
  refine exists_of_decide (fun s => (∃ m ∈ s.base.durable, (written "c" 2).withId 3 ∈ m.addedTo (0, 0)) ∧
    ∃ m ∈ s.base.durable, (written "d" 3).withId 3 ∈ m.addedTo (0, 0)) (by decide)
    fun s hs ⟨⟨m, hm, hc⟩, m', hm', hd⟩ h => ?_
  have heq := (h m hm m' hm' _ _ _ _ (.inl hc) (.inl hd) rfl).2
  exact absurd heq (by decide)

end FileIds
end VarveDB
