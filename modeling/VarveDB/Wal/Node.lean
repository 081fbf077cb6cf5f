import VarveDB.Library.Runs
import VarveDB.Wal.SnapshotTracker

/-! An ingesting node over its object store: flushes, snapshots, manifests, clean-up, crashes and restarts. -/
namespace VarveDB.Wal
open Library.Runs

structure Row where
  series : Nat
  time : Int
deriving DecidableEq

def i64Min : Int := -2 ^ 63
def i64Max : Int := 2 ^ 63 - 1

structure WalContents where
  walFileNumber : Nat
  maxTimestamp : Int
  rows : List Row
  snapshot : Option SnapshotDetails
deriving DecidableEq

def WalContents.period (w : WalContents) : WalPeriod := ⟨w.walFileNumber, w.maxTimestamp⟩

structure Manifest where
  snapshotSequenceNumber : Nat
  walFileSequenceNumber : Nat
  rows : List Row
deriving DecidableEq

structure WalFileRemover where
  oldestWalFile : Option Nat
  lastSnapshotted : Option Nat

inductive Cleanup where
  | idle
  | due
  | deleting (next stop : Nat)

/-- A WAL file is in `flushing` until its PUT, and in `stored` until the queryable buffer has it; `replaying` holds
the snapshot number the restart began from. -/
structure Process where
  replaying : Option Nat
  remaining : List WalContents
  walBuffer : List Row
  walFileNumber : Nat
  tracker : SnapshotTracker
  permit : Option SnapshotDetails
  flushing : List WalContents
  stored : List WalContents
  buffer : List Row
  persisting : Option (SnapshotDetails × List Row)
  cleanup : Cleanup
  remover : WalFileRemover
  reserved : List Nat
  stamped : List (Nat × Nat)

/-- The object store and the process on it. The last three fields record the WAL files and
manifests ever PUT and the rows whose write was acknowledged. -/
structure Node where
  store : List WalContents
  manifests : List Manifest
  process : Option Process
  written : List WalContents
  puts : List Manifest
  acknowledged : List Row

inductive Action where
  | write (rows : List Row)
  | flush (force : Bool) (now : Int)
  | put (w : WalContents)
  | giveUp (w : WalContents)
  | notify (w : WalContents)
  | persistSnapshot
  | beginCleanup
  | deleteNext
  | endCleanup
  | reserve
  | stamp (number : Nat)
  | persistCompaction (number walNumber : Nat) (rows : List Row)
  | failCompaction (number walNumber : Nat)
  | crash
  | restart
  | replayFile
  | finishReplay

def intoWalContents (number : Nat) (rows : List Row) (now : Int) : WalContents :=
  ⟨number, if rows = [] then now + 1 else rows.foldl (fun latest r => max latest r.time) i64Min, rows, none⟩

def newestManifest (manifests : List Manifest) : Option Manifest := manifests.argmax Manifest.snapshotSequenceNumber

variable (s : Node)

namespace Node

def putManifest (m : Manifest) : Node :=
  { s with
    manifests := s.manifests.filter (fun m' => m'.snapshotSequenceNumber ≠ m.snapshotSequenceNumber) ++ [m]
    puts := s.puts ++ [m] }

def lastSnapshotSequenceNumber : Nat := (newestManifest s.manifests).elim 0 Manifest.snapshotSequenceNumber

def lastWalSequenceNumber : Nat := (newestManifest s.manifests).elim 0 Manifest.walFileSequenceNumber

def loadAllWalFiles : List WalContents :=
  s.store.insertionSort fun w w' => w.walFileNumber ≤ w'.walFileNumber

end Node

namespace Process

def new : Process where
  replaying := some s.lastSnapshotSequenceNumber
  remaining := s.loadAllWalFiles.filter fun w => s.lastWalSequenceNumber < w.walFileNumber
  walBuffer := []
  walFileNumber := s.lastWalSequenceNumber + 1
  tracker := ⟨s.lastSnapshotSequenceNumber, []⟩
  permit := none
  flushing := []
  stored := []
  buffer := []
  persisting := none
  cleanup := .idle
  remover := ⟨s.loadAllWalFiles.head?.map WalContents.walFileNumber,
    (newestManifest s.manifests).map Manifest.walFileSequenceNumber⟩
  reserved := []
  stamped := []

variable (cfg : Config) (p : Process) (rows : List Row) (details : SnapshotDetails)

def lastPersistedWalSequenceNumber : Nat := p.remover.lastSnapshotted.getD 0

/-- A snapshot waits for the permit while holding the flush lock, so the flush happens only once the permit is free.
-/
def flush (force : Bool) (now : Int) : Option Process :=
  if p.walBuffer = [] ∧ force = false then none
  else
    let contents := intoWalContents p.walFileNumber p.walBuffer now
    let tracker := p.tracker.addWalPeriod contents.period
    match tracker.snapshot cfg force with
    | none => some { p with
        walBuffer := [], walFileNumber := p.walFileNumber + 1, tracker, flushing := p.flushing ++ [contents] }
    | some (details, tracker) =>
      if p.permit = none then some { p with
        walBuffer := [], walFileNumber := p.walFileNumber + 1, tracker, permit := some details,
        flushing := p.flushing ++ [{ contents with snapshot := some details }] }
      else none

/-- The flush ends without the file and frees its permit; the new buffer is swapped out and failed, which uses up a
number but adds no period. -/
def giveUp (w : WalContents) : Process :=
  { p with
    flushing := p.flushing.erase w
    permit := if w.snapshot.isSome then none else p.permit
    walBuffer := []
    walFileNumber := p.walFileNumber + 1 }

def bufferRows : Process := { p with buffer := p.buffer ++ rows }

def covers (r : Row) : Bool := cfg.roundDown r.time < details.endTimeMarker

def bufferAndPersist : Process :=
  { p with
    buffer := (p.buffer ++ rows).filter fun r => !covers cfg details r
    persisting := some (details, (p.buffer ++ rows).filter (covers cfg details)) }

def notify (w : WalContents) : Process :=
  let p := { p with stored := p.stored.erase w }
  match w.snapshot with
  | none => p.bufferRows w.rows
  | some details => p.bufferAndPersist cfg w.rows details

def snapshotDone : Process := { p with cleanup := if p.permit.isSome then .due else .idle }

def beginCleanup (info : SnapshotDetails) : Process :=
  let oldest := p.remover.oldestWalFile.getD 1
  let last := info.lastWalSequenceNumber
  if cfg.walFilesToKeep < last - oldest then
    { p with
      remover.lastSnapshotted := some last
      cleanup := .deleting oldest (oldest + (last - oldest - cfg.walFilesToKeep)) }
  else { p with remover.lastSnapshotted := some last, cleanup := .idle, permit := none }

/-- The tracker repeats its decision for a file that records a snapshot; the snapshot runs again only if its number is
above the one the restart began from. -/
def replayFile (lastSnapshot : Nat) (w : WalContents) (rest : List WalContents) : Process :=
  let tracker := p.tracker.addWalPeriod w.period
  let p := { p with remaining := rest, walFileNumber := w.walFileNumber + 1, tracker }
  match w.snapshot with
  | none => p.bufferRows w.rows
  | some details =>
    let p := match tracker.snapshot cfg details.forced with
      | none => p
      | some (info, tracker) => { p with tracker, permit := some info }
    if details.snapshotSequenceNumber ≤ lastSnapshot then (p.bufferRows w.rows).snapshotDone
    else p.bufferAndPersist cfg w.rows details

end Process

namespace Node

/-- Writes, flushes and compactions wait for the replay to finish; a WAL file whose number is taken is not stored, and
the process can then only stop. -/
def step (cfg : Config) (s : Node) : Action → Option Node
  | .write rows => do
    let p ← s.process
    if p.replaying = none then some { s with process := some { p with walBuffer := p.walBuffer ++ rows } } else none
  | .flush force now => do
    let p ← s.process
    if p.replaying = none then
      let p' ← p.flush cfg force now
      some { s with process := some p' }
    else none
  | .put w => do
    let p ← s.process
    if w ∈ p.flushing ∧ ∀ w' ∈ s.store, w'.walFileNumber ≠ w.walFileNumber then
      some { s with
        store := s.store ++ [w], written := s.written ++ [w]
        process := some { p with flushing := p.flushing.erase w, stored := p.stored ++ [w] } }
    else none
  | .giveUp w => do
    let p ← s.process
    if w ∈ p.flushing then some { s with process := some (p.giveUp w) } else none
  | .notify w => do
    let p ← s.process
    if w ∈ p.stored then
      some { s with process := some (p.notify cfg w), acknowledged := s.acknowledged ++ w.rows }
    else none
  | .persistSnapshot => do
    let p ← s.process
    let (details, rows) ← p.persisting
    some { s.putManifest ⟨details.snapshotSequenceNumber, details.lastWalSequenceNumber, rows⟩ with
      process := some { p with persisting := none }.snapshotDone }
  | .beginCleanup => do
    let p ← s.process
    match p.cleanup, p.permit with
    | .due, some info => some { s with process := some (p.beginCleanup cfg info) }
    | _, _ => none
  | .deleteNext => do
    let p ← s.process
    match p.cleanup with
    | .deleting next stop =>
      if next < stop then
        some { s with
          store := s.store.filter fun w => w.walFileNumber ≠ next
          process := some { p with cleanup := .deleting (next + 1) stop } }
      else none
    | _ => none
  | .endCleanup => do
    let p ← s.process
    match p.cleanup with
    | .deleting next stop =>
      if next < stop then none
      else some { s with
        process := some { p with remover.oldestWalFile := some stop, cleanup := .idle, permit := none } }
    | _ => none
  | .reserve => do
    let p ← s.process
    if p.replaying = none then
      let (number, tracker) := p.tracker.reserveSnapshotSequenceNumber
      some { s with process := some { p with tracker, reserved := p.reserved ++ [number] } }
    else none
  | .stamp number => do
    let p ← s.process
    if number ∈ p.reserved then
      some { s with process := some { p with
        reserved := p.reserved.erase number, stamped := p.stamped ++ [(number, p.lastPersistedWalSequenceNumber)] } }
    else none
  | .persistCompaction number walNumber rows => do
    let p ← s.process
    if (number, walNumber) ∈ p.stamped then
      some { s.putManifest ⟨number, walNumber, rows⟩ with
        process := some { p with stamped := p.stamped.erase (number, walNumber) } }
    else none
  | .failCompaction number walNumber => do
    let p ← s.process
    if (number, walNumber) ∈ p.stamped then
      some { s with process := some { p with stamped := p.stamped.erase (number, walNumber) } }
    else none
  | .crash => do
    let _ ← s.process
    some { s with process := none }
  | .restart =>
    match s.process with
    | none => some { s with process := some (Process.new s) }
    | some _ => none
  | .replayFile => do
    let p ← s.process
    match p.replaying, p.remaining, p.persisting, p.cleanup with
    | some lastSnapshot, w :: rest, none, .idle =>
      some { s with process := some (p.replayFile cfg lastSnapshot w rest) }
    | _, _, _, _ => none
  | .finishReplay => do
    let p ← s.process
    match p.replaying, p.remaining, p.persisting, p.cleanup with
    | some _, [], none, .idle => some { s with process := some { p with replaying := none } }
    | _, _, _, _ => none

def empty : Node := ⟨[], [], none, [], [], []⟩

inductive Stepped (cfg : Config) (s : Node) : Action → Node → Prop where
  | write {p : Process} {rows : List Row} (hp : s.process = some p) (hrun : p.replaying = none) :
      Stepped cfg s (.write rows) { s with process := some { p with walBuffer := p.walBuffer ++ rows } }
  | flushPlain {p : Process} {force : Bool} {now : Int} (hp : s.process = some p) (hrun : p.replaying = none) :
      Stepped cfg s (.flush force now) { s with
        process := some { p with
          walBuffer := [], walFileNumber := p.walFileNumber + 1
          tracker := p.tracker.addWalPeriod (intoWalContents p.walFileNumber p.walBuffer now).period
          flushing := p.flushing ++ [intoWalContents p.walFileNumber p.walBuffer now] } }
  | flushSnapshot {p : Process} {force : Bool} {now : Int} {d : SnapshotDetails} {tracker : SnapshotTracker}
      (hp : s.process = some p) (hrun : p.replaying = none) (hpermit : p.permit = none)
      (hsnap : (p.tracker.addWalPeriod (intoWalContents p.walFileNumber p.walBuffer now).period).snapshot cfg force =
        some (d, tracker)) :
      Stepped cfg s (.flush force now) { s with
        process := some { p with
          walBuffer := [], walFileNumber := p.walFileNumber + 1, tracker, permit := some d
          flushing := p.flushing ++ [{ intoWalContents p.walFileNumber p.walBuffer now with snapshot := some d }] } }
  | put {p : Process} {w : WalContents} (hp : s.process = some p) (hw : w ∈ p.flushing) :
      Stepped cfg s (.put w) { s with
        store := s.store ++ [w], written := s.written ++ [w]
        process := some { p with flushing := p.flushing.erase w, stored := p.stored ++ [w] } }
  | giveUp {p : Process} {w : WalContents} (hp : s.process = some p) (hw : w ∈ p.flushing) :
      Stepped cfg s (.giveUp w) { s with process := some (p.giveUp w) }
  | notify {p : Process} {w : WalContents} (hp : s.process = some p) (hw : w ∈ p.stored) :
      Stepped cfg s (.notify w) { s with process := some (p.notify cfg w), acknowledged := s.acknowledged ++ w.rows }
  | persistSnapshot {p : Process} {d : SnapshotDetails} {rows : List Row} (hp : s.process = some p)
      (hj : p.persisting = some (d, rows)) :
      Stepped cfg s .persistSnapshot { s.putManifest ⟨d.snapshotSequenceNumber, d.lastWalSequenceNumber, rows⟩ with
        process := some { p with persisting := none }.snapshotDone }
  | beginCleanup {p : Process} {info : SnapshotDetails} (hp : s.process = some p) (hc : p.cleanup = .due)
      (hpermit : p.permit = some info) :
      Stepped cfg s .beginCleanup { s with process := some (p.beginCleanup cfg info) }
  | deleteNext {p : Process} {next stop : Nat} (hp : s.process = some p) (hc : p.cleanup = .deleting next stop)
      (hlt : next < stop) :
      Stepped cfg s .deleteNext { s with
        store := s.store.filter fun w => w.walFileNumber ≠ next
        process := some { p with cleanup := .deleting (next + 1) stop } }
  | endCleanup {p : Process} {next stop : Nat} (hp : s.process = some p) (hc : p.cleanup = .deleting next stop) :
      Stepped cfg s .endCleanup { s with
        process := some { p with remover.oldestWalFile := some stop, cleanup := .idle, permit := none } }
  | reserve {p : Process} (hp : s.process = some p) (hrun : p.replaying = none) :
      Stepped cfg s .reserve { s with
        process := some { p with
          tracker := p.tracker.reserveSnapshotSequenceNumber.2
          reserved := p.reserved ++ [p.tracker.reserveSnapshotSequenceNumber.1] } }
  | stamp {p : Process} {n : Nat} (hp : s.process = some p) (hn : n ∈ p.reserved) :
      Stepped cfg s (.stamp n) { s with
        process := some { p with
          reserved := p.reserved.erase n, stamped := p.stamped ++ [(n, p.lastPersistedWalSequenceNumber)] } }
  | persistCompaction {p : Process} {n walNumber : Nat} {rows : List Row} (hp : s.process = some p)
      (hx : (n, walNumber) ∈ p.stamped) :
      Stepped cfg s (.persistCompaction n walNumber rows) { s.putManifest ⟨n, walNumber, rows⟩ with
        process := some { p with stamped := p.stamped.erase (n, walNumber) } }
  | failCompaction {p : Process} {n walNumber : Nat} (hp : s.process = some p) (hx : (n, walNumber) ∈ p.stamped) :
      Stepped cfg s (.failCompaction n walNumber) { s with
        process := some { p with stamped := p.stamped.erase (n, walNumber) } }
  | crash : Stepped cfg s .crash { s with process := none }
  | restart : Stepped cfg s .restart { s with process := some (Process.new s) }
  | replayFile {p : Process} {n : Nat} {w : WalContents} {rest : List WalContents} (hp : s.process = some p)
      (hrep : p.replaying = some n) (hrem : p.remaining = w :: rest) (hj : p.persisting = none)
        (hc : p.cleanup = .idle) :
      Stepped cfg s .replayFile { s with process := some (p.replayFile cfg n w rest) }
  | finishReplay {p : Process} (hp : s.process = some p) (hrem : p.remaining = []) :
      Stepped cfg s .finishReplay { s with process := some { p with replaying := none } }

theorem stepped_of_step {cfg : Config} {s s' : Node} {a : Action} (h : s.step cfg a = some s') :
    Stepped cfg s a s' := by
  cases a
  case restart =>
    simp only [step] at h
    split at h <;> cases h
    exact .restart
  case persistSnapshot =>
    obtain ⟨p, hp, h⟩ := bind_eq_some_iff.mp h
    obtain ⟨⟨d, rows⟩, hj, h⟩ := bind_eq_some_iff.mp h
    exact some.inj h ▸ .persistSnapshot hp hj
  case flush force now =>
    obtain ⟨p, hp, h⟩ := bind_eq_some_iff.mp h
    obtain ⟨hrun, h⟩ := ite_none_right_eq_some.mp h
    obtain ⟨p', hflush, ⟨⟩⟩ := bind_eq_some_iff.mp h
    unfold Process.flush at hflush
    split at hflush
    · cases hflush
    · simp only at hflush
      split at hflush
      · exact some.inj hflush ▸ .flushPlain hp hrun
      · rename_i hsnap
        obtain ⟨hpermit, hflush⟩ := ite_none_right_eq_some.mp hflush
        exact some.inj hflush ▸ .flushSnapshot hp hrun hpermit hsnap
  all_goals obtain ⟨p, hp, h⟩ := bind_eq_some_iff.mp h
  all_goals try split at h
  all_goals try cases h
  -- the branches that yield a state, in the order of the actions
  · next hrun => exact .write hp hrun
  · next hw => exact .put hp hw.1
  · next hw => exact .giveUp hp hw
  · next hw => exact .notify hp hw
  · next hc hpermit => exact .beginCleanup hp hc hpermit
  · next hc =>
    obtain ⟨hlt, h⟩ := ite_none_right_eq_some.mp h
    exact some.inj h ▸ .deleteNext hp hc hlt
  · next hc =>
    obtain ⟨-, h⟩ := Option.ite_none_left_eq_some.mp h
    exact some.inj h ▸ .endCleanup hp hc
  · next hrun => exact .reserve hp hrun
  · next hn => exact .stamp hp hn
  · next hx => exact .persistCompaction hp hx
  · next hx => exact .failCompaction hp hx
  · exact .crash
  · next hrep hrem hj hc => exact .replayFile hp hrep hrem hj hc
  · next hrem _ _ => exact .finishReplay hp hrem

end Node
end VarveDB.Wal
