import Mathlib

/-! The time of a row in nanoseconds, and the gen1 chunk that it falls in. -/
namespace VarveDB.RowTime

abbrev I64 := { v : Int // -2 ^ 63 ≤ v ∧ v < 2 ^ 63 }

inductive Precision where
  | auto
  | second
  | millisecond
  | microsecond
  | nanosecond
  deriving DecidableEq

inductive TimeError where
  | outOfRange (timestamp : Int) (precision : Precision)
  | panic
  deriving DecidableEq

def nanoSecsPerSec : Int := 1000000000

namespace Precision

def multiplier : Precision → Except TimeError Int
  | auto => .error .panic
  | second => .ok 1000000000
  | millisecond => .ok 1000000
  | microsecond => .ok 1000
  | nanosecond => .ok 1

/-- The least integer has no absolute value. -/
def guessPrecision (timestamp : Int) : Except TimeError Precision :=
  if timestamp = -2 ^ 63 then .error .panic
  else
    let val := (timestamp.natAbs : Int).tdiv nanoSecsPerSec
    if val < 5 then .ok second else if val < 5000 then .ok millisecond else if val < 5000000 then .ok microsecond
    else .ok nanosecond

variable (p : Precision)

def inferPrecision (timestamp : Int) : Except TimeError Precision :=
  if p = auto then guessPrecision timestamp else .ok p

def truncateToPrecision (nanos : Int) : Except TimeError Int :=
  if p = auto then .ok nanos
  else do
    let multiplier ← p.multiplier
    .ok (nanos.tdiv multiplier * multiplier)

def toNanos (timestamp : Option Int) (defaultTimestamp : Int) : Except TimeError Int :=
  if defaultTimestamp < 0 then .error .panic
  else match timestamp with
    | some ts => do
      let multiplier ← (← p.inferPrecision ts).multiplier
      if -2 ^ 63 ≤ ts * multiplier ∧ ts * multiplier < 2 ^ 63 then .ok (ts * multiplier) else .error (.outOfRange ts p)
    | none => p.truncateToPrecision defaultTimestamp

def unit (timestamp : Int) : Precision → Int
  | auto =>
    if timestamp.natAbs < 5000000000 then 1000000000 else if timestamp.natAbs < 5000000000000 then 1000000
    else if timestamp.natAbs < 5000000000000000 then 1000 else 1
  | second => 1000000000
  | millisecond => 1000000
  | microsecond => 1000
  | nanosecond => 1

end Precision

structure Gen1Duration where
  secs : Nat
  subsecNanos : Nat
  secs_mem : secs ∈ [60, 300, 600]
  subsecNanos_lt : subsecNanos < 1000000000

namespace Gen1Duration

variable (d : Gen1Duration)

def asNanos : Int := d.secs * 1000000000 + d.subsecNanos

theorem asNanos_pos : 0 < d.asNanos := by
  have hsecs : d.secs ≠ 0 := fun h => absurd d.secs_mem (by simp [h])
  unfold asNanos
  omega

def chunkTimeForTimestamp (t : Int) : Int := t - t.tmod d.asNanos

end Gen1Duration

structure Holds (d : Gen1Duration) (c t : Int) : Prop where
  multiple : d.asNanos ∣ c
  start : c ≤ t
  stop : t < c + d.asNanos

/-- Every time has one chunk. -/
theorem Holds.start_eq {d : Gen1Duration} {c t : Int} (h : Holds d c t) : c = t - t % d.asNanos := by
  obtain ⟨k, rfl⟩ := h.multiple
  have hstart := h.start
  have hstop := h.stop
  have hmod : t % d.asNanos = (t - d.asNanos * k) % d.asNanos := (Int.sub_mul_emod_self_left ..).symm
  rw [hmod, Int.emod_eq_of_lt (by omega) (by omega)]
  omega

private theorem holds_sub_emod (d : Gen1Duration) (t : Int) : Holds d (t - t % d.asNanos) t where
  multiple := Int.dvd_self_sub_emod
  start := by have := Int.emod_nonneg t d.asNanos_pos.ne'; omega
  stop := by have := Int.emod_lt_of_pos t d.asNanos_pos; omega

/-- Times before the epoch are rounded up to the next chunk, unless they start one. -/
theorem holds_chunkTime_iff (d : Gen1Duration) (t : Int) :
    Holds d (d.chunkTimeForTimestamp t) t ↔ 0 ≤ t ∨ d.asNanos ∣ t := by
  have hmod := Int.tmod_eq_emod (a := t) (b := d.asNanos)
  have hpos := d.asNanos_pos
  constructor
  · intro h
    have heq := h.start_eq
    unfold Gen1Duration.chunkTimeForTimestamp at heq
    by_contra hnot
    rw [if_neg hnot] at hmod
    omega
  · intro h
    rw [if_pos h] at hmod
    rw [Gen1Duration.chunkTimeForTimestamp, hmod, Int.natCast_zero, Int.sub_zero]
    exact holds_sub_emod d t

/-- What is expected of the time of a line: the timestamp times its unit, or the ingest time rounded down, and a chunk
for it; an error only if the product is no 64-bit integer. -/
def Expected (p : Precision) (timestamp : Option I64) (ingest : Int) (d : Gen1Duration) : Except TimeError Int → Prop
  | .error .panic => False
  | .error (.outOfRange ..) => ∃ ts, timestamp = some ts ∧ ¬ (-2 ^ 63 ≤ ts.1 * p.unit ts ∧ ts.1 * p.unit ts < 2 ^ 63)
  | .ok time => (-2 ^ 63 ≤ d.chunkTimeForTimestamp time ∧ d.chunkTimeForTimestamp time < 2 ^ 63) ∧
    Holds d (d.chunkTimeForTimestamp time) time ∧
    match timestamp with
    | some ts => time = ts * p.unit ts
    | none => if p = .auto then time = ingest else p.unit 0 ∣ time ∧ time ≤ ingest ∧ ingest < time + p.unit 0

section
variable {p : Precision} {d : Gen1Duration}

theorem chunkTime_mem (d : Gen1Duration) {t : Int} (ht : -2 ^ 63 ≤ t ∧ t < 2 ^ 63) :
    -2 ^ 63 ≤ d.chunkTimeForTimestamp t ∧ d.chunkTimeForTimestamp t < 2 ^ 63 := by
  have hround {u : Int} (hu : 0 ≤ u) : 0 ≤ u.tmod d.asNanos ∧ u.tmod d.asNanos ≤ u := by
    refine ⟨Int.tmod_nonneg _ hu, ?_⟩
    have hquot := Int.mul_nonneg d.asNanos_pos.le (Int.tdiv_nonneg hu d.asNanos_pos.le)
    have hsum := Int.mul_tdiv_add_tmod u d.asNanos
    omega
  unfold Gen1Duration.chunkTimeForTimestamp
  rcases Int.le_total 0 t with h | h
  · have := hround h
    omega
  · have := hround (Int.neg_nonneg_of_nonpos h)
    rw [Int.neg_tmod] at this
    omega

open Precision

private theorem unit_pos (ts : Int) : 0 < p.unit ts := by
  cases p with
  | auto =>
    simp only [unit]
    split_ifs <;> decide
  | _ => simp [unit]

private theorem multiplier_infer {ts : Int} (h : p = .auto → ts ≠ -2 ^ 63) :
    (do (← p.inferPrecision ts).multiplier) = .ok (p.unit ts) := by
  cases p with
  | auto =>
    have hdiv : (ts.natAbs : Int).tdiv nanoSecsPerSec = ((ts.natAbs / 1000000000 : Nat) : Int) := rfl
    simp only [inferPrecision, guessPrecision, if_pos, if_neg (h rfl), hdiv, unit]
    split_ifs <;> first | rfl | omega
  | _ => rfl

private theorem truncated_of_nonneg (p : Precision) {nanos : Int} (h : 0 ≤ nanos) :
    match p.truncateToPrecision nanos with
    | .error _ => False
    | .ok time => 0 ≤ time ∧ time ≤ nanos ∧
      if p = .auto then time = nanos else p.unit 0 ∣ time ∧ time ≤ nanos ∧ nanos < time + p.unit 0 := by
  cases p with
  | auto => exact ⟨h, le_rfl, rfl⟩
  | _ =>
    simp only [truncateToPrecision, multiplier, unit, bind, Except.bind, reduceCtorEq, if_false,
      Int.tdiv_eq_ediv_of_nonneg h]
    omega

theorem rowTime_iff (p : Precision) (timestamp : Option I64) (ingest : { v : Int // 0 ≤ v ∧ v < 2 ^ 63 })
    (d : Gen1Duration) : Expected p timestamp ingest d (p.toNanos (timestamp.map Subtype.val) ingest) ↔
      ∀ ts, timestamp = some ts → (p = .auto → ts.1 ≠ -2 ^ 63) ∧
        (0 ≤ ts.1 ∨ ts.1 * p.unit ts < -2 ^ 63 ∨ d.asNanos ∣ ts.1 * p.unit ts) := by
  have hingest : 0 ≤ ingest.1 ∧ ingest.1 < 2 ^ 63 := ingest.2
  unfold Precision.toNanos
  rw [if_neg (Int.not_lt.mpr hingest.1)]
  cases timestamp with
  | none =>
    refine ⟨fun _ _ h => absurd h (Option.some_ne_none _).symm, fun _ => ?_⟩
    have hrounded := truncated_of_nonneg p hingest.1
    cases htime : p.truncateToPrecision ingest.1 with
    | error e =>
      rw [htime] at hrounded
      exact hrounded.elim
    | ok time =>
      rw [htime] at hrounded
      obtain ⟨hnonneg, hle, hunit⟩ := hrounded
      exact ⟨chunkTime_mem d (by omega), (holds_chunkTime_iff d time).mpr (.inl hnonneg), hunit⟩
  | some ts =>
    obtain ⟨ts, hts⟩ := ts
    simp only [Option.map_some, Option.some.injEq, forall_eq']
    by_cases hok : p = .auto → ts ≠ -2 ^ 63
    · rw [← bind_assoc, multiplier_infer hok]
      have hsign : 0 ≤ ts * p.unit ts ↔ 0 ≤ ts := mul_nonneg_iff_of_pos_right (unit_pos ts)
      simp only [bind, Except.bind]
      split_ifs with hrange
      · refine ⟨fun h => ⟨hok, ?_⟩, fun h => ⟨chunkTime_mem d hrange, (holds_chunkTime_iff d _).mpr ?_, rfl⟩⟩
        · exact ((holds_chunkTime_iff d _).mp h.2.1).imp hsign.mp .inr
        · rcases h.2 with h | h | h
          · exact .inl (hsign.mpr h)
          · omega
          · exact .inr h
      · refine ⟨fun _ => ⟨hok, ?_⟩, fun _ => ⟨_, rfl, hrange⟩⟩
        omega
    · obtain ⟨rfl, hmin⟩ := Classical.not_imp.mp hok
      have hpanic : Precision.inferPrecision .auto ts = .error .panic := if_pos (not_not.mp hmin)
      rw [hpanic]
      exact ⟨fun h => h.elim, fun h => absurd h.1 hok⟩

/-- A nanosecond before the epoch is put in the chunk that starts at the epoch, and the least timestamp has no unit. -/
theorem rowTime_before_epoch : (Precision.nanosecond.toNanos (some (-1)) 0 = .ok (-1) ∧
      ¬ Holds ⟨60, 0, by decide, by decide⟩
        (Gen1Duration.chunkTimeForTimestamp ⟨60, 0, by decide, by decide⟩ (-1)) (-1)) ∧
    Precision.auto.toNanos (some (-9223372036854775808)) 0 = .error .panic :=
  ⟨⟨by decide, fun h => absurd h.start (by decide)⟩, by decide⟩

end

end VarveDB.RowTime
