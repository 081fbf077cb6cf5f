import VarveDB.Wal.Recorded

/-! Snapshot sequence numbers across restarts. -/
namespace VarveDB.Wal
open Library Runs List Process

/-- Every manifest ever PUT has a number of its own, and the next number to be minted is above
that of every manifest in the store. -/
def Node.NumbersUsedOnce (s : Node) : Prop :=
  (s.puts.map Manifest.snapshotSequenceNumber).Nodup ∧
  ∀ p, s.process = some p → ∀ m ∈ s.manifests,
    m.snapshotSequenceNumber < p.tracker.reserveSnapshotSequenceNumber.1

/-- Timestamps leave room for one gen1 duration, flushes do not overlap, no PUT of a WAL file is given up, and at a
restart each snapshot recorded above the newest manifest has its own or is numbered right after. -/
def Node.Orderly (cfg : Config) (s : Node) : Action → Prop
  | .write rows => ∀ r ∈ rows, r.time + cfg.gen1Duration ≤ i64Max
  | .flush _ now => now + 1 + cfg.gen1Duration ≤ i64Max ∧ ∀ p ∈ s.process, p.stored ++ p.flushing = []
  | .giveUp _ => False
  | .restart =>
    (∀ m ∈ s.manifests, m.walFileSequenceNumber ≤ s.lastWalSequenceNumber) ∧
    ∀ w ∈ s.store, s.lastWalSequenceNumber < w.walFileNumber → ∀ d ∈ w.snapshot,
      (∃ m ∈ s.manifests, m.snapshotSequenceNumber = d.snapshotSequenceNumber) ∨
      d.snapshotSequenceNumber = s.lastSnapshotSequenceNumber + 1
  | _ => True

instance (cfg : Config) (s : Node) (a : Action) : Decidable (s.Orderly cfg a) := by
  cases a <;> dsimp only [Node.Orderly] <;> infer_instance

def Node.NonNegative : Action → Prop
  | .write rows => ∀ r ∈ rows, 0 ≤ r.time
  | _ => True

instance (a : Action) : Decidable (Node.NonNegative a) := by
  cases a <;> dsimp only [Node.NonNegative] <;> infer_instance

def Process.compactions (p : Process) : List Nat := p.reserved ++ p.stamped.map Prod.fst

def Process.retired (ms : List Manifest) (p : Process) : Nat :=
  p.permit.elim (watermark ms) SnapshotDetails.lastWalSequenceNumber

inductive PermitUse (ms : List Manifest) (seen : List WalContents) (p : Process) : Prop where
  | free (hpermit : p.permit = none) (hpersisting : p.persisting = none) (hcleanup : p.cleanup = .idle)
      (hflight : ∀ f ∈ p.stored ++ p.flushing, f.snapshot = none)
  | flushing (d : SnapshotDetails) (f : WalContents) (hpermit : p.permit = some d) (hpersisting : p.persisting = none)
      (hcleanup : p.cleanup = .idle) (hflight : f ∈ p.stored ++ p.flushing) (hf : f ∈ seen) (hfd : f.snapshot = some d)
      (hd : ¬ Taken ms d)
  | persisting (d : SnapshotDetails) (f : WalContents) (rows : List Row) (hpermit : p.permit = some d)
      (hpersisting : p.persisting = some (d, rows)) (hcleanup : p.cleanup = .idle)
      (hflight : ∀ f ∈ p.stored ++ p.flushing, f.snapshot = none) (hf : f ∈ seen) (hfd : f.snapshot = some d)
      (hd : ¬ Taken ms d)
  | cleaning (d : SnapshotDetails) (hpermit : p.permit = some d) (hpersisting : p.persisting = none)
      (hcleanup : p.cleanup ≠ .idle) (hflight : ∀ f ∈ p.stored ++ p.flushing, f.snapshot = none)
      (hmark : watermark ms = d.lastWalSequenceNumber)

structure Counted (ms : List Manifest) (p : Process) : Prop where
  manifests : ∀ m ∈ ms, m.snapshotSequenceNumber ≤ p.tracker.lastSnapshotSequenceNumber
  permit : ∀ d, p.permit = some d → d.snapshotSequenceNumber ≤ p.tracker.lastSnapshotSequenceNumber
  compactions : ∀ n ∈ p.compactions, n ≤ p.tracker.lastSnapshotSequenceNumber
  distinct : p.compactions.Nodup
  unwritten : ∀ n ∈ p.compactions, ∀ m ∈ ms, m.snapshotSequenceNumber ≠ n
  apart : ∀ n ∈ p.compactions, ∀ d, p.permit = some d → d.snapshotSequenceNumber ≠ n

structure Bounded (ms : List Manifest) (p : Process) : Prop where
  stamped : ∀ x ∈ p.stamped, x.2 ≤ watermark ms
  persisted : p.lastPersistedWalSequenceNumber ≤ watermark ms
  deleting : ∀ next stop, p.cleanup = .deleting next stop → stop ≤ watermark ms

structure Alive (cfg : Config) (s : Node) (p : Process) (seen : List WalContents) : Prop where
  recorded : Recorded cfg s.manifests (seen ++ p.remaining)
  split : seen ++ p.remaining = s.written ++ p.flushing
  replaying : p.replaying ≠ none → p.stored ++ p.flushing = [] ∧ p.compactions = []
  running : p.replaying = none → p.remaining = []
  single : (p.stored ++ p.flushing).length ≤ 1
  permit : PermitUse s.manifests seen p
  tracked : p.tracker.walPeriods = (above (p.retired s.manifests) seen).map WalContents.period
  numbered : ∀ f ∈ seen, f.walFileNumber < p.walFileNumber
  mark_lt : watermark s.manifests < p.walFileNumber
  mark_lt_remaining : ∀ f ∈ p.remaining, watermark s.manifests < f.walFileNumber
  untaken : ∀ f ∈ seen, ∀ d, f.snapshot = some d → ¬ Taken s.manifests d → p.permit = some d
  counted : Counted s.manifests p
  bounded : Bounded s.manifests p
  replay : ∀ n, p.replaying = some n → ∀ f ∈ p.remaining, ∀ d, f.snapshot = some d →
    (Taken s.manifests d ∧ d.snapshotSequenceNumber ≤ n) ∨
    (¬ Taken s.manifests d ∧ d.snapshotSequenceNumber = n + 1 ∧ p.tracker.lastSnapshotSequenceNumber = n)

/-- The invariant of orderly runs: manifests are never replaced, the files a restart would replay are
all in the store, and a running process agrees with both. -/
structure Invariant (cfg : Config) (s : Node) : Prop where
  puts : s.manifests = s.puts
  distinct : (s.manifests.map Manifest.snapshotSequenceNumber).Nodup
  recorded : Recorded cfg s.manifests s.written
  sublist : s.store.Sublist s.written
  stored : above (watermark s.manifests) s.store = above (watermark s.manifests) s.written
  alive : ∀ p, s.process = some p → ∃ seen, Alive cfg s p seen

variable {tracker : SnapshotTracker} {reserved : List Nat} {l : Nat}

section
variable {cfg : Config} {s : Node} {p p' : Process} {seen rest : List WalContents} {f w : WalContents}
  {d : SnapshotDetails}
  {ms : List Manifest} {m : Manifest} {n : Nat} {rows : List Row} {stamped : List (Nat × Nat)} {force : Bool}

theorem PermitUse.congr (h : PermitUse ms seen p) (hpermit : p'.permit = p.permit)
    (hpersisting : p'.persisting = p.persisting) (hcleanup : p'.cleanup = p.cleanup)
    (hflight : p'.stored ++ p'.flushing = p.stored ++ p.flushing) : PermitUse ms seen p' := by
  rcases h with ⟨hp, hj, hc, hfl⟩ | ⟨d, g, hp, hj, hc, hfl, hg, hgd, hd⟩ |
    ⟨d, g, rows, hp, hj, hc, hfl, hg, hgd, hd⟩ | ⟨d, hp, hj, hc, hfl, hmark⟩
  · exact .free (hpermit.trans hp) (hpersisting.trans hj) (hcleanup.trans hc) (hflight ▸ hfl)
  · exact .flushing d g (hpermit.trans hp) (hpersisting.trans hj) (hcleanup.trans hc) (hflight ▸ hfl) hg hgd hd
  · exact .persisting d g rows (hpermit.trans hp) (hpersisting.trans hj) (hcleanup.trans hc) (hflight ▸ hfl) hg hgd hd
  · exact .cleaning d (hpermit.trans hp) (hpersisting.trans hj) (hcleanup ▸ hc) (hflight ▸ hfl) hmark

theorem periods_append_singleton (hl : l < f.walFileNumber) :
    (above l (seen ++ [f])).map WalContents.period = (above l seen).map WalContents.period ++ [f.period] := by
  simp [above, hl]

theorem not_taken_of_gt (hle : ∀ m ∈ ms, m.snapshotSequenceNumber ≤ n)
    (hd : n < d.snapshotSequenceNumber) : ¬ Taken ms d := by
  rintro ⟨m, hm, he⟩
  have := hle m hm
  omega

theorem tracked_after {t t' : SnapshotTracker} {files : List WalContents}
    (hinc : Increasing WalContents.walFileNumber files) (ht : t.walPeriods = (above l files).map WalContents.period)
    (hsnap : t.snapshot cfg force = some (d, t')) :
    t'.walPeriods = (above d.lastWalSequenceNumber files).map WalContents.period := by
  have hincp : Increasing WalPeriod.walFileNumber t.walPeriods := ht ▸ increasing_periods (hinc.filter _)
  have hplanned : Planned cfg t.walPeriods d := ⟨_, force, t', hsnap⟩
  obtain ⟨p, hp, hlast⟩ := hplanned.last_mem
  rw [ht] at hp
  obtain ⟨g, hg, rfl⟩ := mem_map.mp hp
  have hle : l ≤ d.lastWalSequenceNumber := by
    rw [← hlast]
    exact Nat.le_of_lt (mem_above.mp hg).2
  rw [SnapshotTracker.snapshot_walPeriods hsnap hincp, ht, filter_period, above_above hle]

theorem eq_singleton_of_length_le_one {l : List WalContents} (hl : l.length ≤ 1) (hw : w ∈ l) : l = [w] := by
  match l, hl, hw with
  | [_], _, hw => rw [mem_singleton.mp hw]

theorem Counted.of_subperm (h : Counted ms p)
    (hsub : List.Subperm (reserved ++ stamped.map Prod.fst) p.compactions) :
    Counted ms { p with reserved, stamped } where
  __ := h
  compactions n hn := h.compactions n (hsub.subset hn)
  distinct := by
    obtain ⟨l, hperm, hsub⟩ := hsub
    exact hperm.nodup_iff.mp (hsub.nodup h.distinct)
  unwritten n hn := h.unwritten n (hsub.subset hn)
  apart n hn := h.apart n (hsub.subset hn)

section
variable (h : Alive cfg s p seen)
include h

private theorem Alive.retired_lt : p.retired s.manifests < p.walFileNumber := by
  cases h.permit with
  | free hp => simpa [retired, hp] using h.mark_lt
  | flushing d f hp _ _ _ hf hfd hd | persisting d f _ hp _ _ _ hf hfd hd =>
    have hlt := Nat.lt_of_le_of_lt (h.recorded.last_bounds (mem_append_left _ hf) hfd hd).2 (h.numbered f hf)
    simpa [retired, hp] using hlt
  | cleaning d hp _ _ _ hmark => simpa [retired, hp, hmark] using h.mark_lt

theorem Alive.taken_of_permit_none (hp : p.permit = none) :
    ∀ f ∈ seen, ∀ d, f.snapshot = some d → Taken s.manifests d := by
  intro f hf d hfd
  by_contra hd
  cases hp.symm.trans (h.untaken f hf d hfd hd)

private theorem Alive.flush_plain (hrun : p.replaying = none) (hsafe : p.stored ++ p.flushing = [])
    (hf : f.walFileNumber = p.walFileNumber) (hplain : f.snapshot = none) : Alive cfg s { p with
      walBuffer := [], walFileNumber := p.walFileNumber + 1
      tracker := p.tracker.addWalPeriod f.period, flushing := p.flushing ++ [f] } (seen ++ [f]) := by
  obtain ⟨hstored, hflushing⟩ := append_eq_nil_iff.mp hsafe
  have hrem := h.running hrun
  have hrec : Recorded cfg s.manifests seen := by simpa [hrem] using h.recorded
  have hflight : ∀ g ∈ p.stored ++ (p.flushing ++ [f]), g.snapshot = none := by
    intro g hg
    rw [hstored, hflushing, nil_append, nil_append] at hg
    rw [mem_singleton.mp hg, hplain]
  have hlt : ∀ g ∈ seen, g.walFileNumber < f.walFileNumber := fun g hg => hf ▸ h.numbered g hg
  refine { h with
    recorded := ?_, split := ?_, replaying := ?_, single := ?_, permit := ?_, tracked := ?_, numbered := ?_
    mark_lt := Nat.lt_succ_of_lt h.mark_lt, untaken := ?_, counted := { h.counted with },
      bounded := { h.bounded with } }
  · simpa [hrem] using hrec.append hlt (by simp [hplain])
  · simpa [hrem, ← append_assoc] using h.split
  · exact fun hne => absurd hrun hne
  · simp [hstored, hflushing]
  · cases h.permit with
    | free hp hj hc => exact .free hp hj hc hflight
    | flushing _ _ _ _ _ hg => exact absurd hg (hsafe ▸ not_mem_nil)
    | persisting d g rows hp hj hc _ hg hgd hd =>
        exact .persisting d g rows hp hj hc hflight (mem_append_left _ hg) hgd hd
    | cleaning d hp hj hc _ hmark => exact .cleaning d hp hj hc hflight hmark
  · exact (congrArg (· ++ [f.period]) h.tracked).trans (periods_append_singleton (hf ▸ h.retired_lt)).symm
  · exact forall_mem_snoc.mpr ⟨fun g hg => Nat.lt_succ_of_lt (h.numbered g hg), hf ▸ Nat.lt_succ_self _⟩
  · exact forall_mem_snoc.mpr ⟨h.untaken, fun d hgd => nomatch hplain.symm.trans hgd⟩

private theorem Alive.flush_snapshot (hrun : p.replaying = none)
    (hsafe : p.stored ++ p.flushing = []) (hpermit : p.permit = none) (hf : f.walFileNumber = p.walFileNumber)
    (hfd : f.snapshot = some d)
    (hsnap : (p.tracker.addWalPeriod f.period).snapshot cfg force = some (d, tracker)) : Alive cfg s { p with
      walBuffer := [], walFileNumber := p.walFileNumber + 1, tracker, permit := some d
      flushing := p.flushing ++ [f] } (seen ++ [f]) := by
  obtain ⟨hstored, hflushing⟩ := append_eq_nil_iff.mp hsafe
  have hrem := h.running hrun
  have hrec : Recorded cfg s.manifests seen := by simpa [hrem] using h.recorded
  have hlt : ∀ g ∈ seen, g.walFileNumber < f.walFileNumber := fun g hg => hf ▸ h.numbered g hg
  have htrack : (p.tracker.addWalPeriod f.period).walPeriods =
      (above (watermark s.manifests) (seen ++ [f])).map WalContents.period := by
    rw [periods_append_singleton (hf ▸ h.mark_lt)]
    simpa [SnapshotTracker.addWalPeriod, retired, hpermit] using h.tracked
  obtain ⟨hseq, hcount⟩ := SnapshotTracker.snapshot_number hsnap
  have hcount' : tracker.lastSnapshotSequenceNumber = p.tracker.lastSnapshotSequenceNumber + 1 := hcount
  have hd : ¬ Taken s.manifests d := not_taken_of_gt h.counted.manifests (by omega)
  have hplan : Planned cfg (periodsUpTo (watermark s.manifests) f.walFileNumber (seen ++ [f])) d := by
    rw [periodsUpTo_of_le (forall_mem_snoc.mpr ⟨fun g hg => Nat.le_of_lt (hlt g hg), le_rfl⟩), ← htrack]
    exact ⟨_, force, tracker, hsnap⟩
  have hrec' := hrec.append hlt fun d' hd' => by
    cases hfd.symm.trans hd'
    exact ⟨hd, hplan, h.taken_of_permit_none hpermit⟩
  refine { h with
    recorded := ?_, split := ?_, replaying := ?_, single := ?_, permit := ?_, tracked := ?_, numbered := ?_
    mark_lt := Nat.lt_succ_of_lt h.mark_lt, untaken := ?_, counted := ?_, bounded := { h.bounded with }, replay := ?_ }
  · simpa [hrem] using hrec'
  · simpa [hrem, ← append_assoc] using h.split
  · exact fun hne => absurd hrun hne
  · simp [hstored, hflushing]
  · cases h.permit with
    | free _ hj hc => exact .flushing d f rfl hj hc (by simp) (by simp) hfd hd
    | flushing _ _ hp | persisting _ _ _ hp | cleaning _ hp => cases hpermit.symm.trans hp
  · exact tracked_after hrec'.increasing htrack hsnap
  · exact forall_mem_snoc.mpr ⟨fun g hg => Nat.lt_succ_of_lt (h.numbered g hg), hf ▸ Nat.lt_succ_self _⟩
  · exact forall_mem_snoc.mpr ⟨fun g hg d' hgd => absurd (h.taken_of_permit_none hpermit g hg d' hgd),
      fun _ hgd _ => hfd.symm.trans hgd⟩
  · refine ⟨fun m hm => ?_, ?_, fun n hn => ?_, h.counted.distinct, h.counted.unwritten, ?_⟩
    · have := h.counted.manifests m hm
      simp only [hcount']
      omega
    · rintro d' ⟨⟩
      simp only [hcount']
      omega
    · have := h.counted.compactions n hn
      simp only [hcount']
      omega
    · rintro n hn d' ⟨⟩
      have := h.counted.compactions n hn
      omega
  · exact fun n hn => nomatch hrun.symm.trans hn

private theorem Alive.of_flushing (hw : w ∈ p.flushing) : p.stored = [] ∧ p.flushing = [w] := by
  have heq := eq_singleton_of_length_le_one h.single (mem_append_right _ hw)
  rcases append_eq_singleton_iff.mp heq with hl | hl
  · exact hl
  · rw [hl.2] at hw
    cases hw

theorem Alive.of_stored (hw : w ∈ p.stored) : p.stored = [w] ∧ p.flushing = [] := by
  have heq := eq_singleton_of_length_le_one h.single (mem_append_left _ hw)
  rcases append_eq_singleton_iff.mp heq with hl | hl
  · rw [hl.1] at hw
    cases hw
  · exact hl

theorem Alive.running_of_flight (hw : w ∈ p.stored ++ p.flushing) : p.replaying = none := by
  by_contra hne
  exact absurd hw ((h.replaying hne).1 ▸ not_mem_nil)

theorem Alive.stored_untaken (hw : w ∈ p.stored) (hwd : w.snapshot = some d) :
    p.permit = some d ∧ p.persisting = none ∧ p.cleanup = .idle ∧ w ∈ seen ∧ ¬ Taken s.manifests d := by
  obtain ⟨hstored, hflushing⟩ := h.of_stored hw
  have hmem : w ∈ p.stored ++ p.flushing := mem_append_left _ hw
  cases h.permit with
  | free _ _ _ hfl | persisting _ _ _ _ _ _ hfl | cleaning _ _ _ _ hfl => cases (hfl w hmem).symm.trans hwd
  | flushing d' g hp hj hc hg hgs hgd hd =>
    rw [hstored, hflushing, append_nil] at hg
    obtain rfl := mem_singleton.mp hg
    cases hwd.symm.trans hgd
    exact ⟨hp, hj, hc, hgs, hd⟩

theorem Alive.notify_ok (hw : w ∈ p.stored) : Alive cfg s (p.notify cfg w) seen := by
  obtain ⟨hstored, hflushing⟩ := h.of_stored hw
  have hrun := h.running_of_flight (mem_append_left _ hw)
  have hempty : p.stored.erase w ++ p.flushing = [] := by simp [hstored, hflushing]
  have hnone : ∀ g ∈ p.stored.erase w ++ p.flushing, g.snapshot = none := hempty ▸ nofun
  unfold notify
  rcases hwd : w.snapshot with _ | d
  · refine { h with
      replaying := fun hne => absurd hrun hne, single := ?_, permit := ?_, counted := { h.counted with },
      bounded := { h.bounded with } }
    · exact le_of_eq_of_le (congrArg List.length hempty) (Nat.zero_le 1)
    · cases h.permit with
      | free hp hj hc => exact .free hp hj hc hnone
      | flushing d g _ _ _ hg _ hgd =>
        rw [hstored, hflushing, append_nil] at hg
        rw [mem_singleton.mp hg, hwd] at hgd
        cases hgd
      | persisting d g rows hp hj hc _ hg hgd hd => exact .persisting d g rows hp hj hc hnone hg hgd hd
      | cleaning d hp hj hc _ hmark => exact .cleaning d hp hj hc hnone hmark
  · obtain ⟨hp, -, hc, hws, hd⟩ := h.stored_untaken hw hwd
    refine { h with
      replaying := fun hne => absurd hrun hne, single := le_of_eq_of_le (congrArg List.length hempty) (Nat.zero_le 1)
      permit := .persisting d w _ hp rfl hc hnone hws hwd hd, counted := { h.counted with },
        bounded := { h.bounded with } }

theorem Alive.persisting_untaken (hj : p.persisting = some (d, rows)) :
    p.permit = some d ∧ (∀ g ∈ p.stored ++ p.flushing, g.snapshot = none) ∧
      ∃ f ∈ seen, f.snapshot = some d ∧ ¬ Taken s.manifests d := by
  cases h.permit with
  | free _ hj' | flushing _ _ _ hj' | cleaning _ _ hj' => cases hj.symm.trans hj'
  | persisting d' f rows' hpermit hj' _ hfl hf hfd hd =>
    cases hj.symm.trans hj'
    exact ⟨hpermit, hfl, f, hf, hfd, hd⟩

theorem Alive.cleaning (hc : p.cleanup ≠ .idle) :
    ∃ d, p.permit = some d ∧ p.persisting = none ∧ (∀ f ∈ p.stored ++ p.flushing, f.snapshot = none) ∧
      watermark s.manifests = d.lastWalSequenceNumber := by
  cases h.permit with
  | free _ _ hc' | flushing _ _ _ _ hc' | persisting _ _ _ _ _ hc' => exact absurd hc' hc
  | cleaning d hpermit hj _ hfl hmark => exact ⟨d, hpermit, hj, hfl, hmark⟩

theorem Alive.drop_permit (hc : p.cleanup ≠ .idle)
    {remover : WalFileRemover} (hlast : remover.lastSnapshotted.getD 0 ≤ watermark s.manifests) :
    Alive cfg s { p with remover, cleanup := .idle, permit := none } seen := by
  obtain ⟨d, hpermit, hj, hfl, hmark⟩ := h.cleaning hc
  refine { h with
    permit := .free rfl hj rfl hfl, tracked := ?_, untaken := ?_
    counted := { h.counted with permit := ?_, apart := ?_ }
    bounded := ⟨h.bounded.stamped, hlast, fun _ _ he => by cases he⟩ }
  · simpa [retired, hpermit, hmark] using h.tracked
  · intro f hf d' hfd hd'
    obtain rfl := some.inj (hpermit.symm.trans (h.untaken f hf d' hfd hd'))
    have := (h.recorded.last_bounds (mem_append_left _ hf) hfd hd').1
    omega
  · exact fun _ he => by cases he
  · exact fun _ _ _ he => by cases he

private theorem Alive.beginCleanup_ok (hc : p.cleanup = .due) (hpermit : p.permit = some d) :
    Alive cfg s (p.beginCleanup cfg d) seen := by
  have hdue : p.cleanup ≠ .idle := by simp [hc]
  obtain ⟨d', hpermit', hj, hfl, hmark⟩ := h.cleaning hdue
  obtain rfl := some.inj (hpermit.symm.trans hpermit')
  simp only [beginCleanup]
  split
  · refine { h with
      permit := .cleaning d hpermit hj (by simp) hfl hmark, counted := { h.counted with }
      bounded := ⟨h.bounded.stamped, Nat.le_of_eq hmark.symm, ?_⟩ }
    intro next stop he
    obtain ⟨-, rfl⟩ := Cleanup.deleting.inj he
    omega
  · exact h.drop_permit hdue (Nat.le_of_eq hmark.symm)

theorem Alive.running_of_compaction (hn : n ∈ p.compactions) : p.replaying = none := by
  by_contra hne
  exact absurd hn ((h.replaying hne).2 ▸ not_mem_nil)

theorem Alive.reserve_ok (hrun : p.replaying = none) : Alive cfg s { p with
      tracker := p.tracker.reserveSnapshotSequenceNumber.2
      reserved := p.reserved ++ [p.tracker.reserveSnapshotSequenceNumber.1] } seen := by
  have hperm : List.Perm ((p.reserved ++ [p.tracker.lastSnapshotSequenceNumber + 1]) ++ p.stamped.map Prod.fst)
      ((p.tracker.lastSnapshotSequenceNumber + 1) :: p.compactions) := by
    rw [append_assoc, singleton_append]
    exact perm_middle
  have hmem {P : Nat → Prop} (hnew : P (p.tracker.lastSnapshotSequenceNumber + 1))
      (hold : ∀ n ∈ p.compactions, P n) n hn :=
    forall_mem_cons.mpr ⟨hnew, hold⟩ n (hperm.mem_iff.mp hn)
  refine { h with
    replaying := fun hne => absurd hrun hne, permit := h.permit.congr rfl rfl rfl rfl, counted := ?_
    bounded := { h.bounded with }, replay := fun n hn => nomatch hrun.symm.trans hn }
  refine ⟨fun m hm => Nat.le_succ_of_le (h.counted.manifests m hm),
    fun d hd => Nat.le_succ_of_le (h.counted.permit d hd),
    hmem le_rfl fun n hn => Nat.le_succ_of_le (h.counted.compactions n hn), ?_,
    hmem (fun m hm => ?_) h.counted.unwritten, hmem (fun d hd => ?_) h.counted.apart⟩
  · refine hperm.nodup_iff.mpr (nodup_cons.mpr ⟨fun hn => ?_, h.counted.distinct⟩)
    have := h.counted.compactions _ hn
    omega
  · have := h.counted.manifests m hm
    omega
  · have := h.counted.permit d hd
    omega

theorem Alive.of_subperm (hrun : p.replaying = none)
    (hsub : List.Subperm (reserved ++ stamped.map Prod.fst) p.compactions)
    (hstamped : ∀ x ∈ stamped, x.2 ≤ watermark s.manifests) : Alive cfg s { p with reserved, stamped } seen :=
  { h with
    replaying := fun hne => absurd hrun hne, permit := h.permit.congr rfl rfl rfl rfl
    counted := h.counted.of_subperm hsub, bounded := ⟨hstamped, h.bounded.persisted, h.bounded.deleting⟩ }

theorem Alive.stamp_ok (hn : n ∈ p.reserved) : Alive cfg s { p with
      reserved := p.reserved.erase n, stamped := p.stamped ++ [(n, p.lastPersistedWalSequenceNumber)] } seen := by
  refine h.of_subperm (h.running_of_compaction (mem_append_left _ hn)) (List.Perm.subperm ?_) ?_
  · rw [map_append, map_singleton, ← append_assoc]
    exact (perm_append_singleton _ _).trans ((perm_cons_erase hn).symm.append_right _)
  · exact forall_mem_snoc.mpr ⟨h.bounded.stamped, h.bounded.persisted⟩

theorem Alive.dropCompaction_ok {x : Nat × Nat} (hx : x ∈ p.stamped) :
    Alive cfg s { p with stamped := p.stamped.erase x } seen :=
  h.of_subperm (h.running_of_compaction (mem_append_right _ (mem_map_of_mem hx)))
    (((erase_sublist).map _).append_left _).subperm
    fun y hy => h.bounded.stamped y (mem_of_mem_erase hy)

theorem Alive.replay_free (hrep : p.replaying = some n) (hj : p.persisting = none) (hc : p.cleanup = .idle) :
    p.permit = none := by
  cases h.permit with
  | free hp => exact hp
  | flushing _ _ _ _ _ hg => exact absurd hg ((h.replaying (by simp [hrep])).1 ▸ not_mem_nil)
  | persisting _ _ _ _ hj' => cases hj.symm.trans hj'
  | cleaning _ _ _ hc' => exact absurd hc hc'

theorem Alive.replay_tracked (hrem : p.remaining = w :: rest) (hpermit : p.permit = none) :
    (p.tracker.addWalPeriod w.period).walPeriods =
      (above (watermark s.manifests) (seen ++ [w])).map WalContents.period := by
  rw [periods_append_singleton (h.mark_lt_remaining w (by simp [hrem]))]
  simpa [SnapshotTracker.addWalPeriod, retired, hpermit] using h.tracked

private theorem Alive.replay_periods (hrem : p.remaining = w :: rest) (hpermit : p.permit = none) :
    (p.tracker.addWalPeriod w.period).walPeriods =
      periodsUpTo (watermark s.manifests) w.walFileNumber (seen ++ p.remaining) := by
  have happend : seen ++ p.remaining = (seen ++ [w]) ++ rest := by simp [hrem]
  have hinc := happend ▸ h.recorded.increasing
  rw [h.replay_tracked hrem hpermit, happend,
    periodsUpTo_append fun g hg => hinc.lt_of_append (mem_append_right _ (mem_singleton_self w)) hg,
    periodsUpTo_of_le (hinc.append_left.le_getLast (by simp))]

section
variable (hrep : p.replaying = some n) (hrem : p.remaining = w :: rest) (hj : p.persisting = none)
  (hc : p.cleanup = .idle)
include hrep hrem hj hc

theorem Alive.replay_plain (htaken : ∀ d, w.snapshot = some d → Taken s.manifests d) {cleanup : Cleanup}
    (hidle : cleanup = .idle) : Alive cfg s { p with
      remaining := rest, walFileNumber := w.walFileNumber + 1, tracker := p.tracker.addWalPeriod w.period
      buffer := rows, cleanup } (seen ++ [w]) := by
  subst hidle
  have hpermit := h.replay_free hrep hj hc
  obtain ⟨hflight, -⟩ := h.replaying (by simp [hrep])
  have happend : (seen ++ [w]) ++ rest = seen ++ p.remaining := by simp [hrem]
  have hinc := happend.symm ▸ h.recorded.increasing
  have hmem : ∀ g ∈ rest, g ∈ p.remaining := fun g hg => hrem ▸ mem_cons_of_mem _ hg
  refine { h with
    recorded := happend.symm ▸ h.recorded
    split := happend.trans h.split
    running := fun hne => nomatch hrep.symm.trans hne
    permit := .free hpermit hj rfl (hflight ▸ nofun)
    tracked := ?_
    numbered := fun g hg => Nat.lt_succ_of_le (hinc.append_left.le_getLast (by simp) g hg)
    mark_lt := Nat.lt_succ_of_lt (h.mark_lt_remaining w (by simp [hrem]))
    mark_lt_remaining := fun g hg => h.mark_lt_remaining g (hmem g hg)
    untaken := ?_
    counted := { h.counted with }
    bounded := ⟨h.bounded.stamped, h.bounded.persisted, fun _ _ he => nomatch he⟩
    replay := fun n hn g hg => h.replay n hn g (hmem g hg) }
  · simpa [retired, hpermit] using h.replay_tracked hrem hpermit
  · exact forall_mem_snoc.mpr ⟨h.untaken, fun d hgd => absurd (htaken d hgd)⟩

private theorem Alive.replay_snapshot {taken : List Row} (hwd : w.snapshot = some d) (hd : ¬ Taken s.manifests d)
    (hsnap : (p.tracker.addWalPeriod w.period).snapshot cfg force = some (d, tracker)) : Alive cfg s { p with
      remaining := rest, walFileNumber := w.walFileNumber + 1, tracker, permit := some d
      buffer := rows, persisting := some (d, taken) } (seen ++ [w]) := by
  have hpermit := h.replay_free hrep hj hc
  obtain ⟨hflight, hcomp⟩ := h.replaying (by simp [hrep])
  have happend : (seen ++ [w]) ++ rest = seen ++ p.remaining := by simp [hrem]
  have hinc := happend.symm ▸ h.recorded.increasing
  have hmem : ∀ g ∈ rest, g ∈ p.remaining := fun g hg => hrem ▸ mem_cons_of_mem _ hg
  have hw : w ∈ seen ++ p.remaining := by simp [hrem]
  have hnone : ∀ i, i ∉ p.compactions := by simp [hcomp]
  obtain ⟨hseq, hcount⟩ := SnapshotTracker.snapshot_number hsnap
  refine { h with
    recorded := happend.symm ▸ h.recorded
    split := happend.trans h.split
    running := fun hne => nomatch hrep.symm.trans hne
    permit := .persisting d w taken rfl rfl hc (hflight ▸ nofun) (by simp) hwd hd
    tracked := tracked_after hinc.append_left (h.replay_tracked hrem hpermit) hsnap
    numbered := fun g hg => Nat.lt_succ_of_le (hinc.append_left.le_getLast (by simp) g hg)
    mark_lt := Nat.lt_succ_of_lt (h.mark_lt_remaining w (by simp [hrem]))
    mark_lt_remaining := fun g hg => h.mark_lt_remaining g (hmem g hg)
    untaken := ?_
    counted := ⟨fun m hm => ?_, ?_, ?_, h.counted.distinct, h.counted.unwritten, ?_⟩
    bounded := { h.bounded with }
    replay := ?_ }
  · exact forall_mem_snoc.mpr ⟨fun g hg d' hgd => absurd (h.taken_of_permit_none hpermit g hg d' hgd),
      fun _ hgd _ => hwd.symm.trans hgd⟩
  · have hle := h.counted.manifests m hm
    exact Nat.le_trans hle (Nat.le_trans (Nat.le_succ _) (Nat.le_of_eq hcount.symm))
  · rintro d' ⟨⟩
    exact Nat.le_of_eq (hseq.trans hcount.symm)
  · exact fun i hi => absurd hi (hnone i)
  · exact fun i hi => absurd hi (hnone i)
  · intro i hi g hg d' hgd
    have hle := h.recorded.latest w hw d hwd hd g (mem_append_right _ (hmem g hg)) (by simp [hgd])
    have hlt := hinc.lt_of_append (mem_append_right seen (mem_singleton_self w)) hg
    omega

theorem Alive.replayFile_ok : Alive cfg s (p.replayFile cfg n w rest) (seen ++ [w]) := by
  have hpermit := h.replay_free hrep hj hc
  have hmem : w ∈ p.remaining := by simp [hrem]
  have hperiods := h.replay_periods hrem hpermit
  rcases hwd : w.snapshot with _ | d
  · simp only [replayFile, hwd]
    exact h.replay_plain hrep hrem hj hc (fun d hd => nomatch hwd.symm.trans hd) hc
  · rcases h.replay n hrep w hmem d hwd with ⟨htaken, hle⟩ | ⟨hd, hseq, hcount⟩
    · obtain ⟨hforced, hquiet⟩ := h.recorded.quiet w (mem_append_right _ hmem) d hwd htaken (h.mark_lt_remaining w hmem)
      have hsnap : (p.tracker.addWalPeriod w.period).snapshot cfg d.forced = none := by
        rw [hforced]
        exact (hperiods ▸ hquiet).snapshot_eq_none
      simp only [replayFile, hwd, hsnap, hle, if_true]
      refine h.replay_plain hrep hrem hj hc (fun d' hd' => ?_) (by simp [bufferRows, hpermit])
      exact some.inj (hwd.symm.trans hd') ▸ htaken
    · have hplan := h.recorded.planned w (mem_append_right _ hmem) d hwd hd
      rw [← hperiods] at hplan
      obtain ⟨tracker, hsnap⟩ := hplan.again (hseq.trans (congrArg (· + 1) hcount.symm))
      have hgt : ¬ d.snapshotSequenceNumber ≤ n := by omega
      simp only [replayFile, hwd, hsnap, hgt, if_false]
      exact h.replay_snapshot hrep hrem hj hc hwd hd hsnap

end

private theorem Alive.finishReplay_ok (hrem : p.remaining = []) : Alive cfg s { p with replaying := none } seen :=
  { h with
    replaying := fun hne => absurd rfl hne
    running := fun _ => hrem
    permit := h.permit.congr rfl rfl rfl rfl
    counted := { h.counted with }
    bounded := { h.bounded with }
    replay := fun _ hn => nomatch hn }

end

theorem putManifest_of_fresh (hm : ∀ m' ∈ s.manifests, m'.snapshotSequenceNumber ≠ m.snapshotSequenceNumber) :
    s.putManifest m = { s with manifests := s.manifests ++ [m], puts := s.puts ++ [m] } := by
  rw [Node.putManifest, filter_eq_self.mpr fun m' hm' => by simpa using hm m' hm']

theorem seq_le_last (hm : m ∈ s.manifests) : m.snapshotSequenceNumber ≤ s.lastSnapshotSequenceNumber := by
  unfold Node.lastSnapshotSequenceNumber newestManifest
  rcases h : s.manifests.argmax Manifest.snapshotSequenceNumber with _ | m'
  · rw [argmax_eq_none.mp h] at hm
    cases hm
  · exact le_of_mem_argmax hm h

theorem lastWal_le : s.lastWalSequenceNumber ≤ watermark s.manifests := by
  unfold Node.lastWalSequenceNumber newestManifest
  rcases h : s.manifests.argmax Manifest.snapshotSequenceNumber with _ | m
  · exact Nat.zero_le _
  · exact walFileSequenceNumber_le_watermark (argmax_mem h)

private theorem lastPersisted_new : (new s).lastPersistedWalSequenceNumber = s.lastWalSequenceNumber := by
  unfold lastPersistedWalSequenceNumber new Node.lastWalSequenceNumber
  cases newestManifest s.manifests <;> rfl

section
variable (inv : Invariant cfg s)
include inv

theorem Invariant.put_ok (hp : s.process = some p) (hw : w ∈ p.flushing) : Invariant cfg { s with
      store := s.store ++ [w], written := s.written ++ [w]
      process := some { p with flushing := p.flushing.erase w, stored := p.stored ++ [w] } } := by
  obtain ⟨seen, h⟩ := inv.alive p hp
  obtain ⟨hstored, hflushing⟩ := h.of_flushing hw
  have hrec := h.recorded
  rw [h.split, hflushing] at hrec
  have hflight : (p.stored ++ [w]) ++ p.flushing.erase w = p.stored ++ p.flushing := by simp [hstored, hflushing]
  refine { inv with recorded := hrec, sublist := inv.sublist.append (.refl _), stored := ?_, alive := ?_ }
  · simp only [above_append, inv.stored]
  · rintro p' ⟨⟩
    refine ⟨seen, { h with
      split := ?_, replaying := ?_, single := hflight.symm ▸ h.single, permit := h.permit.congr rfl rfl rfl hflight
      counted := { h.counted with }, bounded := { h.bounded with } }⟩
    · simpa [hflushing] using h.split
    · exact fun hne => hflight.symm ▸ h.replaying hne

theorem Invariant.put_fresh (hm : ∀ m' ∈ s.manifests, m'.snapshotSequenceNumber ≠ m.snapshotSequenceNumber)
    (hrec : Recorded cfg (s.manifests ++ [m]) s.written)
    (halive : ∃ seen, Alive cfg { s with manifests := s.manifests ++ [m] } p' seen) :
    Invariant cfg { s.putManifest m with process := some p' } := by
  rw [putManifest_of_fresh hm]
  refine ⟨?_, ?_, hrec, inv.sublist, ?_, ?_⟩
  · exact congrArg (· ++ [m]) inv.puts
  · rw [map_append, map_singleton]
    refine nodup_append.mpr ⟨inv.distinct, nodup_singleton _, ?_⟩
    intro n hn n' hn' heq
    obtain ⟨m', hm', rfl⟩ := mem_map.mp hn
    exact hm m' hm' (heq.trans (mem_singleton.mp hn'))
  · have hle : watermark s.manifests ≤ watermark (s.manifests ++ [m]) := by
      rw [watermark_append_singleton]
      exact Nat.le_max_left _ _
    calc above (watermark (s.manifests ++ [m])) s.store
        = above (watermark (s.manifests ++ [m])) (above (watermark s.manifests) s.store) := (above_above hle).symm
      _ = above (watermark (s.manifests ++ [m])) s.written := by rw [inv.stored, above_above hle]
  · rintro p'' ⟨⟩
    obtain ⟨seen, h⟩ := halive
    exact ⟨seen, { h with counted := { h.counted with }, bounded := { h.bounded with } }⟩

section
variable (hp : s.process = some p)
include hp

theorem Invariant.persistSnapshot_ok (hj : p.persisting = some (d, rows)) :
    Invariant cfg { s.putManifest ⟨d.snapshotSequenceNumber, d.lastWalSequenceNumber, rows⟩ with
      process := some { p with persisting := none }.snapshotDone } := by
  obtain ⟨seen, h⟩ := inv.alive p hp
  obtain ⟨hpermit, hfl, f, hf, hfd, hd⟩ := h.persisting_untaken hj
  have hmem : f ∈ seen ++ p.remaining := mem_append_left _ hf
  obtain ⟨hlow, hhigh⟩ := h.recorded.last_bounds hmem hfd hd
  obtain ⟨hrec, hmark⟩ :=
      h.recorded.take (m := ⟨d.snapshotSequenceNumber, d.lastWalSequenceNumber, rows⟩) hmem hfd hd rfl rfl
  have hgrow := Nat.le_trans (Nat.le_of_lt hlow) (Nat.le_of_eq hmark.symm)
  have htaken :=
      h.recorded.taken_append (m := ⟨d.snapshotSequenceNumber, d.lastWalSequenceNumber, rows⟩) hmem hfd hd rfl
  have hdone : { p with persisting := none }.snapshotDone = { p with persisting := none, cleanup := .due } := by
    simp [snapshotDone, hpermit]
  refine inv.put_fresh (fun m hm he => hd ⟨m, hm, he⟩) (Recorded.append_left p.flushing (h.split ▸ hrec)) ⟨seen, ?_⟩
  rw [hdone]
  refine { h with
    recorded := hrec, permit := .cleaning d hpermit rfl (by simp) hfl hmark, tracked := ?_
    mark_lt := ?_, mark_lt_remaining := ?_, untaken := ?_, counted := ?_, bounded := ?_, replay := ?_ }
  · simpa [retired, hpermit] using h.tracked
  · exact lt_of_eq_of_lt hmark (Nat.lt_of_le_of_lt hhigh (h.numbered f hf))
  · intro g hg
    exact lt_of_eq_of_lt hmark (Nat.lt_of_le_of_lt hhigh (h.recorded.increasing.lt_of_append hf hg))
  · exact fun g hg d' hgd hd' => absurd (htaken g (mem_append_left _ hg) d' hgd) hd'
  · refine { h.counted with manifests := ?_, unwritten := ?_ }
    · exact forall_mem_snoc.mpr ⟨h.counted.manifests, h.counted.permit d hpermit⟩
    · exact fun n hn => forall_mem_snoc.mpr ⟨h.counted.unwritten n hn, h.counted.apart n hn d hpermit⟩
  · refine ⟨fun x hx => ?_, ?_, fun _ _ hne => by cases hne⟩
    · exact Nat.le_trans (h.bounded.stamped x hx) hgrow
    · exact Nat.le_trans h.bounded.persisted hgrow
  · intro n hn g hg d' hgd
    refine Or.inl ⟨htaken g (mem_append_right _ hg) d' hgd, ?_⟩
    rcases h.replay n hn g hg d' hgd with ⟨-, hle⟩ | ⟨hd', -, -⟩
    · exact hle
    · have heq := h.recorded.untaken_unique hmem (mem_append_right _ hg) hfd hgd hd hd'
      exact absurd (h.recorded.increasing.lt_of_append hf hg) (heq ▸ Nat.lt_irrefl _)

private theorem Invariant.deleteNext_ok {next stop : Nat}
    (hc : p.cleanup = .deleting next stop) (hlt : next < stop) : Invariant cfg { s with
      store := s.store.filter fun w => w.walFileNumber ≠ next
      process := some { p with cleanup := .deleting (next + 1) stop } } := by
  obtain ⟨seen, h⟩ := inv.alive p hp
  have hstop := h.bounded.deleting next stop hc
  obtain ⟨d, hpermit, hj, hfl, hmark⟩ := h.cleaning (by simp [hc])
  refine { inv with sublist := (filter_sublist).trans inv.sublist, stored := ?_, alive := ?_ }
  · rw [← inv.stored, above, filter_filter, above]
    refine filter_congr fun w _ => ?_
    rw [Bool.eq_iff_iff]
    simp only [Bool.and_eq_true, decide_eq_true_eq]
    omega
  · rintro p' ⟨⟩
    refine ⟨seen, { h with
      permit := .cleaning d hpermit hj (by simp) hfl hmark, counted := { h.counted with }
      bounded := ⟨h.bounded.stamped, h.bounded.persisted, ?_⟩ }⟩
    intro next' stop' he
    obtain ⟨-, rfl⟩ := Cleanup.deleting.inj he
    exact hstop

theorem Invariant.persistCompaction_ok {walNumber : Nat}
    (hx : (n, walNumber) ∈ p.stamped) : Invariant cfg { s.putManifest ⟨n, walNumber, rows⟩ with
      process := some { p with stamped := p.stamped.erase (n, walNumber) } } := by
  obtain ⟨seen, h⟩ := inv.alive p hp
  have hn : n ∈ p.compactions := mem_append_right _ (mem_map_of_mem hx)
  have hrem := h.running (h.running_of_compaction hn)
  have hseq : ∀ f ∈ seen ++ p.remaining, ∀ d, f.snapshot = some d → ¬ Taken s.manifests d →
      n ≠ d.snapshotSequenceNumber := by
    intro f hf d hfd hd he
    rw [hrem, append_nil] at hf
    exact h.counted.apart n hn d (h.untaken f hf d hfd hd) he.symm
  obtain ⟨hrec, hmark⟩ := h.recorded.add_manifest (m := ⟨n, walNumber, rows⟩) (h.bounded.stamped _ hx) hseq
  have hdrop := h.dropCompaction_ok hx
  have hperm : List.Perm p.compactions (n :: (p.reserved ++ (p.stamped.erase (n, walNumber)).map Prod.fst)) :=
    (((perm_cons_erase hx).map Prod.fst).append_left _).trans perm_middle
  have hne := (nodup_cons.mp (hperm.nodup_iff.mp h.counted.distinct)).1
  have htaken : ∀ d, (∃ f ∈ seen, f.snapshot = some d) → ¬ Taken s.manifests d →
      ¬ Taken (s.manifests ++ [⟨n, walNumber, rows⟩]) d := by
    rintro d ⟨f, hf, hfd⟩ hd ⟨m, hm, he⟩
    rcases mem_snoc.mp hm with hm | rfl
    · exact hd ⟨m, hm, he⟩
    · exact hseq f (mem_append_left _ hf) d hfd hd he
  refine inv.put_fresh (fun m hm => h.counted.unwritten n hn m hm) (Recorded.append_left p.flushing (h.split ▸ hrec))
    ⟨seen, ?_⟩
  refine { hdrop with
    recorded := hrec, permit := ?_, tracked := ?_, mark_lt := lt_of_eq_of_lt hmark h.mark_lt
    mark_lt_remaining := fun f hf => lt_of_eq_of_lt hmark (h.mark_lt_remaining f hf), untaken := ?_
    counted := { hdrop.counted with manifests := ?_, unwritten := ?_ }
    bounded := ⟨fun x hx' => le_of_le_of_eq (hdrop.bounded.stamped x hx') hmark.symm,
      le_of_le_of_eq h.bounded.persisted hmark.symm,
        fun i j hij => le_of_le_of_eq (h.bounded.deleting i j hij) hmark.symm⟩
    replay := fun i hi f hf => absurd hf (hrem ▸ not_mem_nil) }
  · cases hdrop.permit with
    | free hp hj hc hfl => exact .free hp hj hc hfl
    | flushing d g hp hj hc hfl hg hgd hd => exact .flushing d g hp hj hc hfl hg hgd (htaken d ⟨g, hg, hgd⟩ hd)
    | persisting d g rows hp hj hc hfl hg hgd hd =>
        exact .persisting d g rows hp hj hc hfl hg hgd (htaken d ⟨g, hg, hgd⟩ hd)
    | cleaning d hp hj hc hfl hmark' => exact .cleaning d hp hj hc hfl (hmark.trans hmark')
  · simpa [retired, hmark] using h.tracked
  · intro f hf d hfd hd
    exact h.untaken f hf d hfd fun ⟨m, hm, he⟩ => hd ⟨m, mem_append_left _ hm, he⟩
  · exact forall_mem_snoc.mpr ⟨h.counted.manifests, h.counted.compactions n hn⟩
  · exact fun n' hn' => forall_mem_snoc.mpr ⟨hdrop.counted.unwritten n' hn', by rintro rfl; exact hne hn'⟩

end

/-- A restart replays exactly the files above the watermark. -/
theorem Invariant.remaining_new (hsafe : s.Orderly cfg .restart) : s.lastWalSequenceNumber = watermark s.manifests ∧
    (new s).remaining = above (watermark s.manifests) s.written := by
  have hmark : s.lastWalSequenceNumber = watermark s.manifests := Nat.le_antisymm lastWal_le (watermark_le hsafe.1)
  have hload : s.loadAllWalFiles = s.store :=
    List.Pairwise.insertionSort_eq ((inv.recorded.increasing.sublist inv.sublist).imp fun h => Nat.le_of_lt h)
  refine ⟨hmark, ?_⟩
  rw [← inv.stored, ← hmark, above, ← hload]
  rfl

theorem Invariant.restart_ok (hsafe : s.Orderly cfg .restart) : ∃ seen, Alive cfg s (new s) seen := by
  obtain ⟨hmark, hrem⟩ := inv.remaining_new hsafe
  have hsnaps := hsafe.2
  have hinc := inv.recorded.increasing
  have hcut : (s.written.filter fun f => f.walFileNumber ≤ watermark s.manifests) ++ (new s).remaining = s.written := by
    rw [hrem]
    exact hinc.filter_le_append_filter_gt _
  have hseen : ∀ f ∈ s.written.filter (fun f => f.walFileNumber ≤ watermark s.manifests),
      f ∈ s.written ∧ f.walFileNumber ≤ watermark s.manifests := fun f hf => by simpa using hf
  have hnone : above (watermark s.manifests) (s.written.filter fun f => f.walFileNumber ≤ watermark s.manifests) = [] :=
    filter_eq_nil_iff.mpr fun f hf => by simpa using (hseen f hf).2
  refine ⟨s.written.filter fun f => f.walFileNumber ≤ watermark s.manifests, {
    recorded := hcut.symm ▸ inv.recorded
    split := hcut.trans (append_nil _).symm
    replaying := fun _ => ⟨rfl, rfl⟩
    running := fun h => nomatch h
    single := Nat.zero_le 1
    permit := .free rfl rfl rfl fun f hf => nomatch hf
    tracked := (congrArg (List.map WalContents.period) hnone).symm
    numbered := fun f hf => Nat.lt_succ_of_le (hmark ▸ (hseen f hf).2)
    mark_lt := Nat.lt_succ_of_le (Nat.le_of_eq hmark.symm)
    mark_lt_remaining := fun f hf => (mem_above.mp (hrem ▸ hf)).2
    untaken := ?_
    counted := ⟨fun m hm => seq_le_last hm, nofun, nofun, nodup_nil,
      nofun, nofun⟩
    bounded := ⟨nofun, lastPersisted_new.trans_le lastWal_le, nofun⟩
    replay := ?_ }⟩
  · intro f hf d hfd hd
    obtain ⟨hfw, hle⟩ := hseen f hf
    have := inv.recorded.last_bounds hfw hfd hd
    omega
  · rintro n ⟨⟩ f hf d hfd
    rw [hrem, ← inv.stored] at hf
    obtain ⟨hfs, hlt⟩ := mem_above.mp hf
    rcases hsnaps f hfs (hmark ▸ hlt) d hfd with ⟨m, hm, he⟩ | he
    · exact Or.inl ⟨⟨m, hm, he⟩, he ▸ seq_le_last hm⟩
    · exact Or.inr
        ⟨not_taken_of_gt (fun m hm => seq_le_last hm) (Nat.lt_of_lt_of_eq (Nat.lt_succ_self _) he.symm), he, rfl⟩

theorem Invariant.of_process (h : ∃ seen, Alive cfg s p' seen) :
    Invariant cfg { s with process := some p', acknowledged := rows } := by
  refine { inv with alive := ?_ }
  rintro p'' ⟨⟩
  obtain ⟨seen, h⟩ := h
  exact ⟨seen, { h with }⟩

theorem Invariant.advance (hp : s.process = some p) (h : ∀ seen, Alive cfg s p seen → ∃ seen, Alive cfg s p' seen) :
    Invariant cfg { s with process := some p', acknowledged := rows } :=
  inv.of_process ((inv.alive _ hp).elim h)

end

theorem Invariant.step {s' : Node} {a : Action} (inv : Invariant cfg s) (hsafe : s.Orderly cfg a)
    (hstep : s.step cfg a = some s') : Invariant cfg s' := by
  cases Node.stepped_of_step hstep with
  | write hp hrun => exact inv.advance hp fun seen h => ⟨seen, { h with
      permit := h.permit.congr rfl rfl rfl rfl, counted := { h.counted with }, bounded := { h.bounded with } }⟩
  | flushPlain hp hrun => exact inv.advance hp fun _ h => ⟨_, h.flush_plain hrun (hsafe.2 _ hp) rfl rfl⟩
  | flushSnapshot hp hrun hpermit hsnap =>
    exact inv.advance hp fun _ h => ⟨_, h.flush_snapshot hrun (hsafe.2 _ hp) hpermit rfl rfl hsnap⟩
  | put hp hw => exact inv.put_ok hp hw
  | giveUp => exact hsafe.elim
  | notify hp hw => exact inv.advance hp fun seen h => ⟨seen, h.notify_ok hw⟩
  | persistSnapshot hp hj => exact inv.persistSnapshot_ok hp hj
  | beginCleanup hp hc hpermit => exact inv.advance hp fun seen h => ⟨seen, h.beginCleanup_ok hc hpermit⟩
  | deleteNext hp hc hlt => exact inv.deleteNext_ok hp hc hlt
  | endCleanup hp hc => exact inv.advance hp fun seen h => ⟨seen, h.drop_permit (by simp [hc]) h.bounded.persisted⟩
  | reserve hp hrun => exact inv.advance hp fun seen h => ⟨seen, h.reserve_ok hrun⟩
  | stamp hp hn => exact inv.advance hp fun seen h => ⟨seen, h.stamp_ok hn⟩
  | persistCompaction hp hx => exact inv.persistCompaction_ok hp hx
  | failCompaction hp hx => exact inv.advance hp fun seen h => ⟨seen, h.dropCompaction_ok hx⟩
  | crash => exact { inv with alive := fun _ hne => nomatch hne }
  | restart => exact inv.of_process (inv.restart_ok hsafe)
  | replayFile hp hrep hrem hj hc => exact inv.advance hp fun _ h => ⟨_, h.replayFile_ok hrep hrem hj hc⟩
  | finishReplay hp hrem => exact inv.advance hp fun seen h => ⟨seen, h.finishReplay_ok hrem⟩

theorem Invariant.empty : Invariant cfg Node.empty :=
  ⟨rfl, nodup_nil, ⟨.nil, nofun, nofun, nofun, nofun⟩, .slnil, rfl, nofun⟩

private theorem Invariant.numbersUsedOnce (inv : Invariant cfg s) : s.NumbersUsedOnce := by
  refine ⟨inv.puts ▸ inv.distinct, fun p hp m hm => ?_⟩
  obtain ⟨seen, h⟩ := inv.alive p hp
  exact Nat.lt_succ_of_le (h.counted.manifests m hm)

end

/-- In every orderly run of a node, restarts included, snapshot numbers are used once. -/
theorem numbers_used_once_of_orderly (cfg : Config) {as : List Action} {s : Node}
    (hsafe : Guarded (Node.step cfg) (Node.Orderly cfg) .empty as) (hrun : run (Node.step cfg) .empty as = some s) :
    s.NumbersUsedOnce :=
  (invariant Invariant.step Invariant.empty hsafe hrun).numbersUsedOnce

private def rerunAfterCrash : List Action :=
  let first : WalContents := ⟨1, 5, [⟨0, 5⟩], some ⟨1, 600000000000, 1, 1, true⟩⟩
  let second : WalContents := ⟨2, 7, [⟨0, 7⟩], some ⟨3, 600000000000, 2, 2, true⟩⟩
  [.restart, .finishReplay, .write first.rows, .flush true 0, .put first, .notify first, .persistSnapshot,
    .beginCleanup,
    .reserve, .stamp 2, .persistCompaction 2 1 [⟨0, 5⟩], .write second.rows, .flush true 0, .put second, .notify second,
    .crash, .restart, .replayFile, .persistSnapshot, .beginCleanup, .finishReplay]

theorem rerun_after_crash_used_once : ∃ s, run (Node.step .serverDefault) .empty rerunAfterCrash = some s ∧
    s.puts.map Manifest.snapshotSequenceNumber = [1, 2, 3] ∧ s.NumbersUsedOnce := by
  refine exists_of_decide (fun s => s.puts.map Manifest.snapshotSequenceNumber = [1, 2, 3]) (by decide)
    fun s hs hputs  => ?_
  exact ⟨by simpa using hputs, numbers_used_once_of_orderly .serverDefault (by decide) hs⟩

/-- A compaction fails after it took number 1, so the next snapshot is number 2. The replay runs that again but counts
from 0, and the next compaction is given number 2 too. -/
theorem failed_compaction_reuses_number :
    ∃ as s, run (Node.step .serverDefault) .empty as = some s ∧ ¬ s.NumbersUsedOnce := by
  let w : WalContents := ⟨1, 5, [⟨0, 5⟩], some ⟨2, 600000000000, 1, 1, true⟩⟩
  refine ⟨[.restart, .finishReplay, .reserve, .stamp 1, .failCompaction 1 0, .write w.rows, .flush true 0,
    .put w, .notify w, .crash, .restart, .replayFile, .persistSnapshot, .beginCleanup, .finishReplay, .reserve,
      .stamp 2,
    .persistCompaction 2 1 []], exists_of_decide (fun s => s.puts.map Manifest.snapshotSequenceNumber = [2, 2])
    (by decide) fun s _ hputs hused => ?_⟩
  have hnodup := hused.1
  rw [hputs] at hnodup
  exact absurd hnodup (by decide)

end VarveDB.Wal
