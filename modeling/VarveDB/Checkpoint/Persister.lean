import VarveDB.Checkpoint.Fold
import VarveDB.Library.Runs

/-! The checkpoint side of a persister over crashes and restarts. -/
namespace VarveDB.Checkpoint
open Library Runs
open Wal (i64Min)

structure StoredSnapshot where
  snapshot : PersistedSnapshot
  month : Nat

namespace StoredSnapshot

abbrev number (x : StoredSnapshot) : Nat := x.snapshot.snapshotSequenceNumber

end StoredSnapshot

/-- The months still to build, oldest first, each with its snapshots as they were loaded, newest first. -/
structure BackgroundBuild where
  remaining : List (Nat × List PersistedSnapshot)
  currentMonth : Nat
  currentMonthCheckpoint : Option PersistedSnapshotCheckpoint

/-- What a running server holds. `due` marks a persisted snapshot whose checkpoint write,
if its interval has passed, is still to come. -/
structure Process where
  cachedCheckpoint : Option CachedCheckpoint
  previousMonthPuts : List PersistedSnapshotCheckpoint
  build : Option BackgroundBuild
  due : Bool

structure Persister where
  snapshots : List StoredSnapshot
  checkpoints : List PersistedSnapshotCheckpoint
  month : Nat
  process : Option Process

inductive Action where
  | advance (months : Nat)
  | persistSnapshot (m : PersistedSnapshot)
  | persistSnapshotThenCrash (m : PersistedSnapshot)
  | persistCheckpoint
  | landPreviousMonth (c : PersistedSnapshotCheckpoint)
  | losePreviousMonth (c : PersistedSnapshotCheckpoint)
  | cleanup (c : PersistedSnapshotCheckpoint)
  | crash
  /-- A start-up; the two lists it asks the object store for can fail. -/
  | start (latestKnown listed : Bool)
  | buildMonth (persisted : Bool)
  | finishBuild

def checkpointsToRetainPerMonth : Nat := 2

variable (cs : List PersistedSnapshotCheckpoint) (p : Process) (c : PersistedSnapshotCheckpoint) (b : BackgroundBuild)
  (currentMonth : Nat)

def putCheckpoint : List PersistedSnapshotCheckpoint :=
  cs.filter (fun d => ¬ (d.yearMonth = c.yearMonth ∧
    d.lastSnapshotSequenceNumber = c.lastSnapshotSequenceNumber)) ++ [c]

def sortedMonths (months : List Nat) : List Nat := months.dedup.insertionSort (· ≤ ·)

def latestOfMonth (month : Nat) : Option PersistedSnapshotCheckpoint :=
  (cs.filter fun c => c.yearMonth = month).argmax PersistedSnapshotCheckpoint.lastSnapshotSequenceNumber

def latestPerMonth : List PersistedSnapshotCheckpoint :=
  (sortedMonths (cs.map PersistedSnapshotCheckpoint.yearMonth)).filterMap (latestOfMonth cs)

def overlapping (minSequence : Nat) : List PersistedSnapshotCheckpoint → List PersistedSnapshotCheckpoint
  | [] => []
  | c :: rest =>
    if minSequence ≤ c.lastSnapshotSequenceNumber ∨
        rest.head?.any (fun next => minSequence ≤ next.lastSnapshotSequenceNumber) then
      c :: overlapping minSequence rest
    else overlapping minSequence rest

def listLatestCheckpointsPerMonth (minSequence : Option Nat) : List PersistedSnapshotCheckpoint :=
  match minSequence with
  | none => latestPerMonth cs
  | some n => overlapping n (latestPerMonth cs)

def mergeCheckpoints : List PersistedSnapshotCheckpoint → Option PersistedSnapshotCheckpoint
  | [] => none
  | c :: rest => some (rest.foldl PersistedSnapshotCheckpoint.merge c)

namespace Process

def warmCheckpointCache : Process :=
  if p.cachedCheckpoint.isSome then p
  else { p with cachedCheckpoint := some ⟨c, buildFileIndex c.databases⟩ }

def rollover : CachedCheckpoint × List PersistedSnapshotCheckpoint :=
  match p.cachedCheckpoint with
  | some cached =>
    if cached.checkpoint.yearMonth = currentMonth then (cached, p.previousMonthPuts)
    else (.new currentMonth, p.previousMonthPuts ++ [cached.checkpoint])
  | none => (.new currentMonth, p.previousMonthPuts)

def updateCachedCheckpoint (snapshot : PersistedSnapshot) : Process :=
  { p with
    cachedCheckpoint := some ((p.rollover currentMonth).1.applySnapshot snapshot)
    previousMonthPuts := (p.rollover currentMonth).2
    due := true }

def finishBuild : Process :=
  match b.currentMonthCheckpoint with
  | some c => { p with build := none }.warmCheckpointCache c
  | none => { p with build := none }

end Process

def BackgroundBuild.next (month : Nat) (loaded : List PersistedSnapshot)
    (rest : List (Nat × List PersistedSnapshot)) : BackgroundBuild :=
  { b with
    remaining := rest
    currentMonthCheckpoint :=
      if month = b.currentMonth then some (foldSnapshots month loaded.reverse).checkpoint
      else b.currentMonthCheckpoint }

namespace Persister

variable (s : Persister) (n : Nat) (latestKnown listed : Bool)

def loadSnapshots : List StoredSnapshot := s.snapshots.reverse.take n

/-- Snapshots without files carry no time and are skipped. -/
def groupByMonth (loaded : List StoredSnapshot) : List (Nat × List PersistedSnapshot) :=
  let dated := loaded.filter fun x => x.snapshot.maxTime ≠ i64Min
  (sortedMonths (dated.map StoredSnapshot.month)).map fun month =>
    (month, (dated.filter fun x => x.month = month).map StoredSnapshot.snapshot)

def sequenceCutoff : Option Nat :=
  s.snapshots.getLast?.map fun latest => latest.number - n

def loadedCheckpoints : List PersistedSnapshotCheckpoint :=
  if listed then listLatestCheckpointsPerMonth s.checkpoints (if latestKnown then s.sequenceCutoff n else none)
  else []

/-- `WriteBufferImpl::new`. Snapshots newer than the checkpoints go to the file list only,
not to the checkpoint cache. -/
def startProcess : Process :=
  let idle : Process := ⟨none, [], none, false⟩
  match s.loadedCheckpoints n latestKnown listed with
  | [] =>
    if s.loadSnapshots n = [] then idle
    else { idle with build := some ⟨groupByMonth (s.loadSnapshots n), s.month, none⟩ }
  | c :: cs =>
    match (c :: cs).find? (fun c => c.yearMonth = s.month) with
    | some c => idle.warmCheckpointCache c
    | none => idle

def Admissible (snapshots : List StoredSnapshot) (m : PersistedSnapshot) : Prop :=
  ∀ x ∈ snapshots, x.number < m.snapshotSequenceNumber

instance (snapshots : List StoredSnapshot) (m : PersistedSnapshot) : Decidable (Admissible snapshots m) :=
  inferInstanceAs (Decidable (∀ x ∈ snapshots, _))

def Superseded (c : PersistedSnapshotCheckpoint) : Prop :=
  checkpointsToRetainPerMonth ≤ (cs.filter fun d => d.yearMonth = c.yearMonth ∧
    c.lastSnapshotSequenceNumber < d.lastSnapshotSequenceNumber).length

instance (cs : List PersistedSnapshotCheckpoint) (c : PersistedSnapshotCheckpoint) : Decidable (Superseded cs c) :=
  inferInstanceAs (Decidable (_ ≤ _))

def step (s : Persister) : Action → Option Persister
  | .advance months => some { s with month := s.month + months }
  | .persistSnapshot m =>
    match s.process with
    | none => none
    | some p =>
      if Admissible s.snapshots m then
        some { s with
          snapshots := s.snapshots ++ [⟨m, s.month⟩]
          process := some (p.updateCachedCheckpoint s.month m) }
      else none
  | .persistSnapshotThenCrash m =>
    if s.process.isSome ∧ Admissible s.snapshots m then
      some { s with snapshots := s.snapshots ++ [⟨m, s.month⟩], process := none }
    else none
  | .persistCheckpoint =>
    match s.process with
    | none => none
    | some p =>
      match p.cachedCheckpoint with
      | none => none
      | some cached =>
        if p.due then
          some { s with
            checkpoints := putCheckpoint s.checkpoints cached.checkpoint
            process := some { p with due := false } }
        else none
  | .landPreviousMonth c =>
    match s.process with
    | none => none
    | some p =>
      if c ∈ p.previousMonthPuts then
        some { s with
          checkpoints := putCheckpoint s.checkpoints c
          process := some { p with previousMonthPuts := p.previousMonthPuts.erase c } }
      else none
  | .losePreviousMonth c =>
    match s.process with
    | none => none
    | some p =>
      if c ∈ p.previousMonthPuts then
        some { s with process := some { p with previousMonthPuts := p.previousMonthPuts.erase c } }
      else none
  | .cleanup c =>
    if s.process.isSome ∧ Superseded s.checkpoints c then
      some { s with checkpoints := s.checkpoints.filter fun d => d ≠ c }
    else none
  | .crash => some { s with process := none }
  | .start latestKnown listed =>
    if s.process.isSome then none else some { s with process := some (s.startProcess n latestKnown listed) }
  | .buildMonth persisted =>
    match s.process with
    | none => none
    | some p =>
      match p.build with
      | none => none
      | some b =>
        match b.remaining with
        | [] => none
        | (month, loaded) :: rest =>
          some { s with
            checkpoints :=
              if persisted then putCheckpoint s.checkpoints (foldSnapshots month loaded.reverse).checkpoint
              else s.checkpoints
            process := some { p with build := some (b.next month loaded rest) } }
  | .finishBuild =>
    match s.process with
    | none => none
    | some p =>
      match p.build with
      | none => none
      | some b => if b.remaining = [] then some { s with process := some (p.finishBuild b) } else none

inductive Stepped (n : Nat) (s : Persister) : Action → Persister → Prop
  | advance (months : Nat) : Stepped n s (.advance months) { s with month := s.month + months }
  | persistSnapshot {p : Process} {m : PersistedSnapshot} (hp : s.process = some p)
      (hm : Admissible s.snapshots m) : Stepped n s (.persistSnapshot m) { s with
          snapshots := s.snapshots ++ [⟨m, s.month⟩]
          process := some (p.updateCachedCheckpoint s.month m) }
  | persistSnapshotThenCrash {m : PersistedSnapshot} (hm : Admissible s.snapshots m) :
      Stepped n s (.persistSnapshotThenCrash m) { s with snapshots := s.snapshots ++ [⟨m, s.month⟩], process := none }
  | persistCheckpoint {p : Process} {cached : CachedCheckpoint} (hp : s.process = some p)
      (hcached : p.cachedCheckpoint = some cached) : Stepped n s .persistCheckpoint { s with
          checkpoints := putCheckpoint s.checkpoints cached.checkpoint
          process := some { p with due := false } }
  | landPreviousMonth {p : Process} {c : PersistedSnapshotCheckpoint} (hp : s.process = some p)
      (hc : c ∈ p.previousMonthPuts) : Stepped n s (.landPreviousMonth c) { s with
          checkpoints := putCheckpoint s.checkpoints c
          process := some { p with previousMonthPuts := p.previousMonthPuts.erase c } }
  | losePreviousMonth {p : Process} {c : PersistedSnapshotCheckpoint} (hp : s.process = some p) :
      Stepped n s (.losePreviousMonth c)
        { s with process := some { p with previousMonthPuts := p.previousMonthPuts.erase c } }
  | cleanup {c : PersistedSnapshotCheckpoint} (hc : Superseded s.checkpoints c) :
      Stepped n s (.cleanup c) { s with checkpoints := s.checkpoints.filter fun d => d ≠ c }
  | crash : Stepped n s .crash { s with process := none }
  | start (latestKnown listed : Bool) : Stepped n s (.start latestKnown listed)
      { s with process := some (s.startProcess n latestKnown listed) }
  | buildMonth (persisted : Bool) {p : Process} {b : BackgroundBuild} {month : Nat}
      {loaded : List PersistedSnapshot} {rest : List (Nat × List PersistedSnapshot)}
      (hp : s.process = some p) (hb : p.build = some b) (hremaining : b.remaining = (month, loaded) :: rest) :
      Stepped n s (.buildMonth persisted) { s with
          checkpoints :=
            if persisted then putCheckpoint s.checkpoints (foldSnapshots month loaded.reverse).checkpoint
            else s.checkpoints
          process := some { p with build := some (b.next month loaded rest) } }
  | finishBuild {p : Process} {b : BackgroundBuild} (hp : s.process = some p) (hb : p.build = some b)
      (hremaining : b.remaining = []) :
      Stepped n s .finishBuild { s with process := some (p.finishBuild b) }

theorem stepped_of_step {n : Nat} {s s' : Persister} {a : Action} (h : s.step n a = some s') : Stepped n s a s' := by
  cases a <;> simp only [step] at h
  iterate 3 all_goals try split at h
  -- the branches that yield a state
  all_goals cases h
  · exact .advance _
  · next hp hm => exact .persistSnapshot hp hm
  · next hm => exact .persistSnapshotThenCrash hm.2
  · next hp _ cached hcached hdue => exact .persistCheckpoint hp hcached
  · next hp hc => exact .landPreviousMonth hp hc
  · next hp hc => exact .losePreviousMonth hp
  · next hc => exact .cleanup hc.2
  · exact .crash
  · exact .start ..
  · next hp _ b hb _ month loaded rest hremaining => exact .buildMonth _ hp hb hremaining
  · next hp _ b hb hremaining => exact .finishBuild hp hb hremaining

def empty : Persister := ⟨[], [], 0, none⟩

def latestUpTo (c : PersistedSnapshotCheckpoint) : List PersistedSnapshotCheckpoint :=
  latestPerMonth (cs.filter fun d => d.yearMonth ≤ c.yearMonth ∧
    d.lastSnapshotSequenceNumber ≤ c.lastSnapshotSequenceNumber)

def snapshotsUpTo (number : Nat) : List PersistedSnapshot :=
  (s.snapshots.filter fun x => x.number ≤ number).map StoredSnapshot.snapshot

/-- Every stored checkpoint, merged with the latest one of each earlier month, lists the
files that folding all manifests up to its number lists. -/
def CheckpointsComplete : Prop :=
  ∀ c ∈ s.checkpoints, ∃ merged, mergeCheckpoints (latestUpTo s.checkpoints c) = some merged ∧
    ∀ k f, (k, f) ∈ merged.databases ↔
      f ∈ (PersistedFiles.newFromPersistedSnapshots (s.snapshotsUpTo c.lastSnapshotSequenceNumber)).files k

end Persister
end VarveDB.Checkpoint
