import VarveDB.Catalog.Loading
import VarveDB.Library.Runs

/-! Writers of the catalog's log: nodes with a catalog in memory and a write permit, and the calls that hold
it. -/
namespace VarveDB.Catalog.Commit
open Library

variable {α κ ρ ι : Type}

structure InnerCatalog (κ : Type) where
  content : κ
  sequence : Nat
  deriving DecidableEq

/-- What the loops use of the catalog. The application of a record can fail after it has changed something. -/
structure Ops (α κ ρ : Type) where
  prepare : α → InnerCatalog κ → Option (List ρ)
  allowed : InnerCatalog κ → List ρ → Bool
  applyRecord : InnerCatalog κ → ρ → InnerCatalog κ × Bool
  isRestore : ρ → Bool

def Ops.applyEach (ops : Ops α κ ρ) (c : InnerCatalog κ) : List ρ → InnerCatalog κ × Bool
  | [] => (c, true)
  | r :: rs =>
    match ops.applyRecord c r with
    | (c, true) => ops.applyEach c rs
    | (c, false) => (c, false)

def Ops.applyRecords (ops : Ops α κ ρ) (c : InnerCatalog κ) (sequence : Nat) (records : List ρ) :
    InnerCatalog κ × Bool :=
  match ops.applyEach c records with
  | (c, true) => ({ c with sequence }, true)
  | (c, false) => (c, false)

/-- An update or a commit that lost a race, one whose batch was refused at the level of sequence number `before`, or
`update_to_sequence_number`. -/
inductive CatchUp (α : Type) where
  | retryUpdate (args : α)
  | recheckUpdate (args : α) (before : Nat)
  | retryCommit
  | recheckCommit (before : Nat)
  | bounded (updateTo : Nat)
  deriving DecidableEq

inductive Phase (α ρ : Type) where
  | preparing (args : α)
  | persisting (args : Option α) (records : List ρ)
  | acknowledging (sequence : Nat) (records : List ρ)
  | loading (k : CatchUp α) (sequence : Nat)
  | preloading (k : CatchUp α) (sequence : Nat) (records : List ρ)
  | announcing (k : CatchUp α) (sequence : Nat) (restored : Bool)
  | checkpointing (k : CatchUp α) (sequence : Nat)
  deriving DecidableEq

abbrev Logs (ρ : Type) := Nat → Option (List ρ)

structure Node (α κ ρ : Type) where
  permit : Nat
  inner : InnerCatalog κ
  call : Option (Phase α ρ)
  deriving DecidableEq

structure Outcome (α κ ρ : Type) where
  logs : Logs ρ
  node : Node α κ ρ
  acked : Option (Nat × List ρ)

namespace Node

variable (ops : Ops α κ ρ) (node : Node α κ ρ) (sequence : Nat)

def caughtUp : CatchUp α → Node α κ ρ
  | .retryUpdate args => { node with permit := node.inner.sequence, call := some (.preparing args) }
  | .recheckUpdate args before =>
    if node.inner.sequence ≠ before then { node with permit := node.inner.sequence, call := some (.preparing args) }
    else { node with call := none }
  | .retryCommit => { node with permit := node.inner.sequence, call := none }
  | .recheckCommit before =>
    if node.inner.sequence ≠ before then { node with permit := node.inner.sequence, call := none }
    else { node with call := none }
  | .bounded _ => { node with call := none }

def applyFile (k : CatchUp α) (sequence : Nat) (records : List ρ) : Node α κ ρ :=
  match ops.applyRecords node.inner sequence records with
  | (inner, true) =>
    { permit := match k with
        | .bounded _ => sequence
        | _ => node.permit
      inner
      call := some (.announcing k sequence (records.any ops.isRestore)) }
  | (inner, false) => { node with inner, call := none }

def applyOwn (records : List ρ) : Node α κ ρ :=
  match ops.applyRecords node.inner sequence records with
  | (inner, true) => { permit := sequence, inner, call := some (.acknowledging sequence records) }
  | (inner, false) => { node with inner, call := none }

def inBounds : CatchUp α → Bool
  | .bounded updateTo => sequence ≤ updateTo
  | _ => true

def advance (logs : Logs ρ) (node : Node α κ ρ) : Option (Outcome α κ ρ) :=
  match node.call with
  | none => none
  | some (.preparing args) =>
    match ops.prepare args node.inner with
    | none => some ⟨logs, { node with call := none }, none⟩
    | some records =>
      if ops.allowed node.inner records then
        some ⟨logs, { node with call := some (.persisting (some args) records) }, none⟩
      else some ⟨logs, { node with
        call := some (.loading (.recheckUpdate args node.inner.sequence) (node.permit + 1)) }, none⟩
  | some (.persisting args records) =>
    match logs (node.permit + 1) with
    | none =>
      some ⟨Function.update logs (node.permit + 1) (some records), node.applyOwn ops (node.permit + 1) records, none⟩
    | some _ =>
      some ⟨logs, { node with call := some (.loading (args.elim .retryCommit .retryUpdate) (node.permit + 1)) }, none⟩
  | some (.acknowledging sequence records) => some ⟨logs, { node with call := none }, some (sequence, records)⟩
  | some (.loading k sequence) =>
    match if inBounds sequence k then logs sequence else none with
    | some records => some ⟨logs, { node with call := some (.preloading k sequence records) }, none⟩
    | none => some ⟨logs, node.caughtUp k, none⟩
  | some (.preloading k sequence records) => some ⟨logs, node.applyFile ops k sequence records, none⟩
  | some (.announcing k sequence restored) =>
    if restored then some ⟨logs, { node with call := some (.checkpointing k sequence) }, none⟩
    else some ⟨logs, { node with call := some (.loading k (sequence + 1)) }, none⟩
  | some (.checkpointing k sequence) => some ⟨logs, { node with call := some (.loading k (sequence + 1)) }, none⟩

def beginCommit (sequenceAtBegin : Nat) (records : List ρ) : Node α κ ρ :=
  if records.isEmpty ∨ node.permit ≠ sequenceAtBegin then node
  else if ops.allowed node.inner records then { node with call := some (.persisting none records) }
  else { node with call := some (.loading (.recheckCommit node.inner.sequence) (node.permit + 1)) }

end Node

structure State (α κ ρ ι : Type) where
  logs : Logs ρ
  nodes : ι → Node α κ ρ
  acked : List (Nat × List ρ)

/-- A call starts, makes its next request, or ends with an error at any await; a log file may be
written although the request that writes it fails. -/
inductive Action (α ρ ι : Type) where
  | update (n : ι) (args : α)
  | commit (n : ι) (sequenceAtBegin : Nat) (records : List ρ)
  | updateTo (n : ι) (sequence : Nat)
  | advance (n : ι)
  | fail (n : ι)
  | persistUnanswered (n : ι)
  deriving DecidableEq

variable (s : State α κ ρ ι)

namespace State
variable [DecidableEq ι]

def init (content : κ) : State α κ ρ ι := ⟨fun _ => none, fun _ => ⟨0, ⟨content, 0⟩, none⟩, []⟩

def setNode (n : ι) (node : Node α κ ρ) : State α κ ρ ι :=
  { s with nodes := Function.update s.nodes n node }

def start (n : ι) (node : Node α κ ρ) : Option (State α κ ρ ι) :=
  if (s.nodes n).call.isNone then some (s.setNode n node) else none

def step (ops : Ops α κ ρ) (s : State α κ ρ ι) : Action α ρ ι → Option (State α κ ρ ι)
  | .update n args => s.start n { s.nodes n with call := some (.preparing args) }
  | .commit n sequenceAtBegin records => s.start n ((s.nodes n).beginCommit ops sequenceAtBegin records)
  | .updateTo n sequence =>
    s.start n { s.nodes n with call := some (.loading (.bounded sequence) ((s.nodes n).permit + 1)) }
  | .advance n => do
    let o ← (s.nodes n).advance ops s.logs
    some { logs := o.logs, nodes := Function.update s.nodes n o.node, acked := s.acked ++ o.acked.toList }
  | .fail n => if (s.nodes n).call.isSome then some (s.setNode n { s.nodes n with call := none }) else none
  | .persistUnanswered n =>
    match (s.nodes n).call with
    | some (.persisting _ records) =>
      match s.logs ((s.nodes n).permit + 1) with
      | none => some { (s.setNode n { s.nodes n with call := none }) with
          logs := Function.update s.logs ((s.nodes n).permit + 1) (some records) }
      | some _ => none
    | _ => none

end State

def replay (ops : Ops α κ ρ) (content : κ) (logs : Logs ρ) : Nat → Option (InnerCatalog κ)
  | 0 => some ⟨content, 0⟩
  | s + 1 => do
    let c ← replay ops content logs s
    let records ← logs (s + 1)
    match ops.applyRecords c (s + 1) records with
    | (c, true) => some c
    | (_, false) => none

/-- A node whose permit no call holds has applied the log files up to its permit's number once
each and in order, and an acknowledged batch is what its log file holds. -/
structure ExactlyOnce (ops : Ops α κ ρ) (content : κ) (s : State α κ ρ ι) : Prop where
  settled : ∀ n, (s.nodes n).call = none → (s.nodes n).inner.sequence = (s.nodes n).permit ∧
    replay ops content s.logs (s.nodes n).permit = some (s.nodes n).inner
  acknowledged : ∀ a ∈ s.acked, s.logs a.1 = some a.2

section Loaded
variable [CatalogContent κ ρ] (binary : Binary) (load : RestoreCatalog → Apply (Catalog.InnerCatalog κ ρ))
  (prepare : α → Catalog.InnerCatalog κ ρ → Option (List ρ))
open CatalogContent (committedFeatureLevel restore)

def ofCatalog (c : Catalog.InnerCatalog κ ρ) : InnerCatalog (Nat × κ × List ρ) :=
  ⟨(c.catalogUuid, c.content, c.orderedRecords), c.sequence⟩

def InnerCatalog.catalog (c : InnerCatalog (Nat × κ × List ρ)) : Catalog.InnerCatalog κ ρ :=
  ⟨c.sequence, c.content.1, c.content.2.1, c.content.2.2⟩

/-- The operations of a catalog and its records; the backup of a restore is loaded when the restore is applied. -/
def catalogOps : Ops α (Nat × κ × List ρ) ρ where
  prepare args c := prepare args c.catalog
  allowed c records := (checkBatchAgainstCommitted κ records (committedFeatureLevel c.catalog.content)).isOk
  applyRecord c r :=
    let preload := (restore κ r).bind fun source =>
      (load source).toOption.map fun loaded => loaded.raised (committedFeatureLevel c.catalog.content)
    match Catalog.applyRecord binary (c.catalog, preload) r with
    | .ok (c, _) => (ofCatalog c, true)
    | .error _ => (c, false)
  isRestore r := (restore κ r).isSome

def applied (x : InnerCatalog κ × Bool) : Option (InnerCatalog κ) := if x.2 then some x.1 else none

variable {binary load prepare} {c : Catalog.InnerCatalog κ ρ} {r : ρ} {records : List ρ}

private theorem applied_applyEach_cons {p : Option (Catalog.InnerCatalog κ ρ)}
    (hp : (restore κ r).bind (fun source => (load source).toOption.map fun loaded =>
      loaded.raised (committedFeatureLevel c.content)) = p) :
    applied ((catalogOps binary load prepare).applyEach (ofCatalog c) (r :: records)) =
      (Catalog.applyRecord binary (c, p) r).toOption.bind fun x =>
        applied ((catalogOps binary load prepare).applyEach (ofCatalog x.1) records) := by
  have happly : (catalogOps binary load prepare).applyRecord (ofCatalog c) r =
      match Catalog.applyRecord binary (c, p) r with
      | .ok (c, _) => (ofCatalog c, true)
      | .error _ => (ofCatalog c, false) := hp ▸ rfl
  rw [Ops.applyEach, happly]
  cases Catalog.applyRecord binary (c, p) r <;> rfl

private theorem applied_applyEach (hrestore : ∀ r ∈ records, restore κ r = none) :
    applied ((catalogOps binary load prepare).applyEach (ofCatalog c) records) =
      (records.foldlM (Catalog.applyRecord binary) (c, none)).toOption.map fun x => ofCatalog x.1 := by
  induction records generalizing c with
  | nil => rfl
  | cons r rs ih =>
    obtain ⟨hr, hrs⟩ := List.forall_mem_cons.mp hrestore
    rw [applied_applyEach_cons (p := none) (by rw [hr]; rfl), List.foldlM_cons]
    cases happly : Catalog.applyRecord binary (c, none) r with
    | error e => rfl
    | ok x =>
      obtain ⟨c', p⟩ := x
      obtain rfl : p = none := by
        rcases of_applyRecord happly with ⟨-, -, _, -, h⟩ | ⟨-, h, -⟩ | ⟨-, -, h⟩
        · exact congrArg Prod.snd h
        · simp [hr] at h
        · exact congrArg Prod.snd h
      exact ih hrs

/-- Batches are applied to a node's catalog as log files are to a loaded one, if a restore comes first in its batch. -/
theorem applied_applyRecords (htail : ∀ r ∈ records.tail, restore κ r = none) (uuid sequence : Nat) :
    applied ((catalogOps binary load prepare).applyRecords (ofCatalog c) sequence records) =
      (applyCatalogFile binary load c ⟨uuid, sequence, records⟩).toOption.map ofCatalog := by
  have heach : applied ((catalogOps binary load prepare).applyRecords (ofCatalog c) sequence records) =
      (applied ((catalogOps binary load prepare).applyEach (ofCatalog c) records)).map fun c =>
        { c with sequence } := by
    rw [Ops.applyRecords]
    generalize (catalogOps binary load prepare).applyEach (ofCatalog c) records = x
    obtain ⟨c, _ | _⟩ := x <;> rfl
  have hfile (p : Option (Catalog.InnerCatalog κ ρ)) : (applyRecords binary records c sequence p).toOption =
      (records.foldlM (Catalog.applyRecord binary) (c, p)).toOption.map fun x => { x.1 with sequence } := by
    rw [applyRecords]
    cases records.foldlM (Catalog.applyRecord binary) (c, p) <;> rfl
  rw [heach]
  cases records with
  | nil => rfl
  | cons r rs =>
    replace htail : ∀ r ∈ rs, restore κ r = none := htail
    have hrs : rs.filterMap (restore κ) = [] := List.filterMap_eq_nil_iff.mpr htail
    cases hr : restore κ r with
    | none =>
      rw [applied_applyEach (List.forall_mem_cons.mpr ⟨hr, htail⟩)]
      simp only [applyCatalogFile, preloadRestore, List.filterMap_cons, hr, hrs, ok_bind, hfile, Option.map_map]
      rfl
    | some source =>
      have hone : (r :: rs).filterMap (restore κ) = [source] := by rw [List.filterMap_cons, hr, hrs]
      simp only [applyCatalogFile, preloadRestore, hone]
      rw [applied_applyEach_cons (congrArg (Option.bind · _) hr), Option.bind_some]
      cases hload : load source with
      | error e =>
        cases happly : Catalog.applyRecord binary (c, none) r with
        | error e => simp only [Except.toOption, Option.map_none, happly]; rfl
        | ok x =>
          rcases of_applyRecord happly with ⟨-, h, -⟩ | ⟨-, -, loaded, h, -⟩ | ⟨-, hsafe, -⟩
          · cases hr.symm.trans h
          · cases h
          · cases hr.symm.trans (CatalogContent.restore_eq_none_of_safe r hsafe)
      | ok loaded =>
        have hloaded : (Except.ok loaded : Apply (Catalog.InnerCatalog κ ρ)).toOption = some loaded := rfl
        simp only [ok_bind, hfile, List.foldlM_cons, hloaded, Option.map_some]
        cases happly : Catalog.applyRecord binary (c, some (loaded.raised (committedFeatureLevel c.content))) r with
        | error e => rfl
        | ok x =>
          rcases of_applyRecord happly with ⟨-, h, -⟩ | ⟨-, -, _, -, rfl⟩ | ⟨-, hsafe, -⟩
          · cases hr.symm.trans h
          · change Option.map _ (applied _) = _
            simp only [applied_applyEach htail, ok_bind, Option.map_map]
            rfl
          · cases hr.symm.trans (CatalogContent.restore_eq_none_of_safe r hsafe)

/-- So what a node has applied exactly once is what a process loads from the log files. -/
theorem replay_catalogOps {logs : Logs ρ} (hc : c.sequence = 0)
    (hlogs : ∀ n records, logs n = some records → ∀ r ∈ records.tail, restore κ r = none) (uuid n : Nat) :
    replay (catalogOps binary load prepare) (ofCatalog c).content logs n =
      ((List.range n).foldlM (fun c i => (logs (i + 1)).bind fun records =>
        (applyCatalogFile binary load c ⟨uuid, i + 1, records⟩).toOption) c).map ofCatalog := by
  induction n with
  | zero => simp [replay, ofCatalog, hc]
  | succ n ih =>
    rw [replay, ih, List.range_succ, List.foldlM_append]
    cases (List.range n).foldlM (fun c i => (logs (i + 1)).bind fun records =>
        (applyCatalogFile binary load c ⟨uuid, i + 1, records⟩).toOption) c with
    | none => rfl
    | some c' =>
      cases hrecords : logs (n + 1) with
      | none => simp [hrecords]
      | some records =>
        have happly : applied ((catalogOps binary load prepare).applyRecords (ofCatalog c') (n + 1) records) = _ :=
          applied_applyRecords (hlogs _ _ hrecords) uuid (n + 1)
        simp [hrecords, ← happly]
        generalize (catalogOps binary load prepare).applyRecords (ofCatalog c') (n + 1) records = x
        obtain ⟨c, _ | _⟩ := x <;> rfl

end Loaded
end VarveDB.Catalog.Commit
