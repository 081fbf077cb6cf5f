import VarveDB.Library.Increasing

/-! When the WAL is snapshotted: the tracker of WAL periods and its decision which of
them a snapshot covers. -/
namespace VarveDB.Wal
open Library List

structure Config where
  snapshotSize : Nat
  gen1Duration : Int
  walFilesToKeep : Nat
  gen1_pos : 0 < gen1Duration

def Config.serverDefault : Config := ⟨600, 600000000000, 300, by decide⟩

/-- Rounds towards zero to a multiple of the gen1 duration, as Rust's `t - t % gen1` does. -/
def Config.roundDown (cfg : Config) (t : Int) : Int := t - t.tmod cfg.gen1Duration

private theorem Config.lt_roundDown_add (cfg : Config) (t : Int) : t < cfg.roundDown t + cfg.gen1Duration := by
  have h := Int.tmod_lt_of_pos t cfg.gen1_pos
  simp only [Config.roundDown]
  omega

theorem Config.roundDown_le (cfg : Config) {t : Int} (ht : 0 ≤ t) : cfg.roundDown t ≤ t := by
  have h := Int.tmod_nonneg cfg.gen1Duration ht
  simp only [Config.roundDown]
  omega

theorem Config.roundDown_mono (cfg : Config) {t t' : Int} (h : t ≤ t') : cfg.roundDown t ≤ cfg.roundDown t' := by
  have hround (t : Int) : cfg.roundDown t = cfg.gen1Duration * t.tdiv cfg.gen1Duration := by
    have := Int.mul_tdiv_add_tmod t cfg.gen1Duration
    simp only [Config.roundDown]
    omega
  have hneg {t : Int} (ht : t < 0) : t.tdiv cfg.gen1Duration = -(-t / cfg.gen1Duration) := by
    rw [← Int.tdiv_eq_ediv_of_nonneg (show 0 ≤ -t by omega), Int.neg_tdiv, Int.neg_neg]
  have hpos := cfg.gen1_pos
  rw [hround, hround]
  refine Int.mul_le_mul_of_nonneg_left ?_ (Int.le_of_lt hpos)
  rcases Int.lt_or_le t' 0 with ht' | ht'
  · rw [hneg ht', hneg (Int.lt_of_le_of_lt h ht')]
    exact Int.neg_le_neg (Int.ediv_le_ediv hpos (Int.neg_le_neg h))
  · rcases Int.lt_or_le t 0 with ht | ht
    · have hquot := Int.ediv_nonneg (show 0 ≤ -t by omega) (Int.le_of_lt hpos)
      have hquot' := Int.tdiv_nonneg ht' (Int.le_of_lt hpos)
      rw [hneg ht]
      omega
    · rw [Int.tdiv_eq_ediv_of_nonneg ht, Int.tdiv_eq_ediv_of_nonneg ht']
      exact Int.ediv_le_ediv hpos h

structure WalPeriod where
  walFileNumber : Nat
  maxTime : Int
deriving DecidableEq

structure SnapshotDetails where
  snapshotSequenceNumber : Nat
  endTimeMarker : Int
  firstWalSequenceNumber : Nat
  lastWalSequenceNumber : Nat
  forced : Bool
deriving DecidableEq

structure SnapshotTracker where
  lastSnapshotSequenceNumber : Nat
  walPeriods : List WalPeriod
deriving DecidableEq

namespace SnapshotTracker

variable (cfg : Config) (t : SnapshotTracker)

def addWalPeriod (p : WalPeriod) : SnapshotTracker :=
  { t with walPeriods := t.walPeriods ++ [p] }

def numberOfPeriodsToSnapshotAfter : Nat := cfg.snapshotSize + cfg.snapshotSize / 2

def shouldRunSnapshot (force : Bool) : Bool :=
  !t.walPeriods.isEmpty && (force || numberOfPeriodsToSnapshotAfter cfg ≤ t.walPeriods.length)

def snapshotInOrderWalPeriods : Option (SnapshotDetails × SnapshotTracker) := do
  let newest ← t.walPeriods.getLast?
  let marker := cfg.roundDown newest.maxTime
  let periods := t.walPeriods.takeWhile fun p => p.maxTime < marker
  let first ← periods.head?
  let last ← periods.getLast?
  let number := t.lastSnapshotSequenceNumber + 1
  some (⟨number, marker, first.walFileNumber, last.walFileNumber, false⟩,
    ⟨number, t.walPeriods.filter fun p => last.walFileNumber < p.walFileNumber⟩)

def snapshotAll : Option (SnapshotDetails × SnapshotTracker) := do
  let maxTime ← (t.walPeriods.map WalPeriod.maxTime).max?
  let first ← t.walPeriods.head?
  let last ← t.walPeriods.getLast?
  let number := t.lastSnapshotSequenceNumber + 1
  some (⟨number, cfg.roundDown maxTime + cfg.gen1Duration, first.walFileNumber, last.walFileNumber, true⟩, ⟨number, []⟩)

def snapshot (force : Bool) : Option (SnapshotDetails × SnapshotTracker) :=
  if !t.shouldRunSnapshot cfg force then none
  else if force || 3 * cfg.snapshotSize ≤ t.walPeriods.length then t.snapshotAll cfg
  else t.snapshotInOrderWalPeriods cfg

def reserveSnapshotSequenceNumber : Nat × SnapshotTracker :=
  (t.lastSnapshotSequenceNumber + 1, { t with lastSnapshotSequenceNumber := t.lastSnapshotSequenceNumber + 1 })

variable {cfg : Config} {t t' : SnapshotTracker} {force : Bool} {d : SnapshotDetails}

inductive Takes (cfg : Config) (t : SnapshotTracker) (force : Bool) : SnapshotDetails → SnapshotTracker → Prop where
  | all {maxTime : Int} {first last : WalPeriod} (hmany : force = true ∨ 3 * cfg.snapshotSize ≤ t.walPeriods.length)
      (hmax : (t.walPeriods.map WalPeriod.maxTime).max? = some maxTime) (hlast : t.walPeriods.getLast? = some last) :
      Takes cfg t force ⟨t.lastSnapshotSequenceNumber + 1, cfg.roundDown maxTime + cfg.gen1Duration,
        first.walFileNumber, last.walFileNumber, true⟩ ⟨t.lastSnapshotSequenceNumber + 1, []⟩
  | inOrder {newest first last : WalPeriod} (hforce : force = false) (hfew : t.walPeriods.length < 3 * cfg.snapshotSize)
      (hnewest : t.walPeriods.getLast? = some newest)
      (hfirst : (t.walPeriods.takeWhile fun p => p.maxTime < cfg.roundDown newest.maxTime).head? = some first)
      (hlast : (t.walPeriods.takeWhile fun p => p.maxTime < cfg.roundDown newest.maxTime).getLast? = some last) :
      Takes cfg t force
        ⟨t.lastSnapshotSequenceNumber + 1, cfg.roundDown newest.maxTime, first.walFileNumber, last.walFileNumber, false⟩
        ⟨t.lastSnapshotSequenceNumber + 1, t.walPeriods.filter fun p => last.walFileNumber < p.walFileNumber⟩

section
variable (h : t.snapshot cfg force = some (d, t'))
include h

theorem takes_of_snapshot : Takes cfg t force d t' := by
  obtain ⟨-, h⟩ := Option.ite_none_left_eq_some.mp h
  split at h
  · rename_i hmany
    simp only [snapshotAll, Option.bind_eq_bind, Option.bind_eq_some_iff, Option.some.injEq, Prod.mk.injEq] at h
    obtain ⟨maxTime, hmax, first, -, last, hlast, rfl, rfl⟩ := h
    exact .all (by simpa using hmany) hmax hlast
  · rename_i hnot
    simp only [Bool.or_eq_true, decide_eq_true_eq, not_or, Bool.not_eq_true, Nat.not_le] at hnot
    simp only [snapshotInOrderWalPeriods, Option.bind_eq_bind, Option.bind_eq_some_iff, Option.some.injEq,
      Prod.mk.injEq] at h
    obtain ⟨newest, hnewest, first, hfirst, last, hlast, rfl, rfl⟩ := h
    exact .inOrder hnot.1 hnot.2 hnewest hfirst hlast

theorem snapshot_number : d.snapshotSequenceNumber = t.lastSnapshotSequenceNumber + 1 ∧
    t'.lastSnapshotSequenceNumber = t.lastSnapshotSequenceNumber + 1 := by
  cases takes_of_snapshot h with
  | all | inOrder => exact ⟨rfl, rfl⟩

/-- The periods left behind are those above the last one covered. -/
theorem snapshot_walPeriods (hinc : Increasing WalPeriod.walFileNumber t.walPeriods) :
    t'.walPeriods = t.walPeriods.filter fun p => d.lastWalSequenceNumber < p.walFileNumber := by
  cases takes_of_snapshot h with
  | all _ _ hlast =>
    refine (filter_eq_nil_iff.mpr fun p hp => ?_).symm
    simpa using hinc.le_getLast hlast p hp
  | inOrder => rfl

theorem snapshot_walPeriods_subset : t'.walPeriods ⊆ t.walPeriods := by
  cases takes_of_snapshot h with
  | all => exact nil_subset _
  | inOrder => exact filter_sublist.subset

/-- Asking again with the flag the details record gives the same snapshot. -/
theorem snapshot_again : t.snapshot cfg d.forced = some (d, t') := by
  cases takes_of_snapshot h with
  | inOrder hforce => exact hforce ▸ h
  | all hmany hmax =>
    have hne : t.walPeriods ≠ [] := by
      intro hnil
      simp [hnil] at hmax
    cases force with
    | true => exact h
    | false =>
      have hmany : 3 * cfg.snapshotSize ≤ t.walPeriods.length := by simpa using hmany
      have hdue : cfg.snapshotSize + cfg.snapshotSize / 2 ≤ t.walPeriods.length := by omega
      simpa [snapshot, shouldRunSnapshot, numberOfPeriodsToSnapshotAfter, hne, hmany, hdue] using h

end

end SnapshotTracker

def Planned (cfg : Config) (ps : List WalPeriod) (d : SnapshotDetails) : Prop :=
  ∃ n force t', (⟨n, ps⟩ : SnapshotTracker).snapshot cfg force = some (d, t')

namespace Planned
open SnapshotTracker
variable {cfg : Config} {ps : List WalPeriod} {d : SnapshotDetails} {p : WalPeriod}

theorem again {t : SnapshotTracker} (h : Planned cfg t.walPeriods d)
    (hn : d.snapshotSequenceNumber = t.lastSnapshotSequenceNumber + 1) :
    ∃ t', t.snapshot cfg d.forced = some (d, t') := by
  obtain ⟨n, force, t', ht⟩ := h
  have heq : n = t.lastSnapshotSequenceNumber := Nat.succ_injective ((snapshot_number ht).1.symm.trans hn)
  subst heq
  exact ⟨t', snapshot_again ht⟩

variable (h : Planned cfg ps d)
include h

theorem last_mem : ∃ p ∈ ps, p.walFileNumber = d.lastWalSequenceNumber := by
  obtain ⟨n, force, t', ht⟩ := h
  cases takes_of_snapshot ht with
  | all _ _ hlast => exact ⟨_, mem_of_getLast? hlast, rfl⟩
  | inOrder _ _ _ _ hlast => exact ⟨_, takeWhile_subset _ (mem_of_getLast? hlast), rfl⟩

variable (hinc : Increasing WalPeriod.walFileNumber ps)
include hinc

theorem le_last_of_forced (hforced : d.forced = true) (hp : p ∈ ps) : p.walFileNumber ≤ d.lastWalSequenceNumber := by
  obtain ⟨n, force, t', ht⟩ := h
  cases takes_of_snapshot ht with
  | all _ _ hlast => exact hinc.le_getLast hlast p hp
  | inOrder => cases hforced

/-- All data of a covered period lies before the end-time marker. -/
theorem maxTime_lt_marker (hp : p ∈ ps) (hle : p.walFileNumber ≤ d.lastWalSequenceNumber) :
    p.maxTime < d.endTimeMarker := by
  obtain ⟨n, force, t', ht⟩ := h
  cases takes_of_snapshot ht with
  | all _ hmax =>
    exact Int.lt_of_le_of_lt ((List.max?_eq_some_iff.mp hmax).2 _ (mem_map_of_mem hp)) (cfg.lt_roundDown_add _)
  | inOrder _ _ _ _ hlast => simpa using mem_takeWhile_imp (hinc.mem_takeWhile_of_le _ hlast hp hle)

end Planned

structure Quiet (cfg : Config) (ps : List WalPeriod) : Prop where
  few : ps.length < 3 * cfg.snapshotSize
  late : ∀ newest ∈ ps.getLast?, ∀ first ∈ ps.head?, cfg.roundDown newest.maxTime ≤ first.maxTime

variable {cfg : Config}

theorem Quiet.snapshot_eq_none {t : SnapshotTracker} (h : Quiet cfg t.walPeriods) : t.snapshot cfg false = none := by
  rcases hs : t.snapshot cfg false with _ | ⟨d, t'⟩
  · rfl
  · exfalso
    cases SnapshotTracker.takes_of_snapshot hs with
    | all hmany =>
      have hfew := h.few
      rcases hmany with hforce | hmany
      · cases hforce
      · omega
    | inOrder _ _ hnewest hfirst =>
      rw [List.head?_takeWhile, Option.filter_eq_some_iff] at hfirst
      have hlate := h.late _ hnewest _ hfirst.1
      have hearly := of_decide_eq_true hfirst.2
      omega

/-- What an in-order snapshot says about its periods: the first lies before the marker, and the
first one it leaves behind does not. -/
theorem Planned.inOrder {ps : List WalPeriod} {d : SnapshotDetails} (h : Planned cfg ps d)
    (hinc : Increasing WalPeriod.walFileNumber ps) (hforced : d.forced = false) : ps.length < 3 * cfg.snapshotSize ∧
    (∀ newest ∈ ps.getLast?, d.endTimeMarker = cfg.roundDown newest.maxTime) ∧
    (∀ first ∈ ps.head?, first.maxTime < d.endTimeMarker) ∧
    ∀ next ∈ (ps.filter fun p => d.lastWalSequenceNumber < p.walFileNumber).head?, d.endTimeMarker ≤ next.maxTime := by
  obtain ⟨n, force, t', ht⟩ := h
  cases SnapshotTracker.takes_of_snapshot ht with
  | all => cases hforced
  | @inOrder newest _ _ _ hfew hnewest hfirst hlast =>
    rw [List.head?_takeWhile, Option.filter_eq_some_iff] at hfirst
    refine ⟨hfew, ?_, ?_, ?_⟩
    · intro newest' hnewest'
      rw [Option.some.inj (hnewest.symm.trans hnewest')]
    · intro first' hfirst'
      rw [← Option.some.inj (hfirst.1.symm.trans hfirst')]
      simpa using hfirst.2
    · intro next hnext
      rw [hinc.filter_gt_last_takeWhile _ hlast] at hnext
      have hstop := List.head?_dropWhile_not (fun p : WalPeriod => decide (p.maxTime < cfg.roundDown newest.maxTime)) ps
      rw [hnext] at hstop
      simpa using hstop

/-- Once an in-order snapshot has dropped its periods, an earlier stretch of them that was quiet,
or the whole, is quiet. -/
theorem Planned.quiet_of_prefix {ps qs : List WalPeriod} {d : SnapshotDetails} (h : Planned cfg (ps ++ qs) d)
    (hinc : Increasing WalPeriod.walFileNumber (ps ++ qs)) (hforced : d.forced = false)
    (hquiet : qs = [] ∨ Quiet cfg ps) : Quiet cfg (ps.filter fun p => d.lastWalSequenceNumber < p.walFileNumber) := by
  obtain ⟨hfew, hnewest, hfirst, hnext⟩ := h.inOrder hinc hforced
  refine ⟨?_, ?_⟩
  · have hfilter := length_filter_le (fun p : WalPeriod => decide (d.lastWalSequenceNumber < p.walFileNumber)) ps
    rw [length_append] at hfew
    omega
  · intro newest hn first hf
    have hfirst' : d.endTimeMarker ≤ first.maxTime := by
      refine hnext first ?_
      rw [filter_append, List.head?_append, hf]
      rfl
    have hlast : ps.getLast? = some newest := hinc.append_left.getLast_of_filter_gt hn
    rcases hquiet with rfl | hquiet
    · have := hnewest newest (by simpa using hlast)
      omega
    · obtain ⟨p, rest, rfl⟩ := exists_cons_of_ne_nil (ne_nil_of_mem (mem_of_getLast? hlast))
      have hreach := hquiet.late newest hlast p rfl
      have hbefore := hfirst p rfl
      omega

end VarveDB.Wal
