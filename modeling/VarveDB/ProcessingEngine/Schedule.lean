import Mathlib

/-! Triggers that run at regular intervals. -/
namespace VarveDB.Schedule

def year : Nat := 31557600 * 10 ^ 9

def acceptsEvery (duration : Nat) : Bool := duration ≤ year

section
variable (maxTime : Int) (duration : Nat) (now : Int)

def inRange (time : Int) : Option Int := if time ≤ maxTime then some time else none

/-- The first trigger time; without a whole millisecond the duration divides by zero. -/
def newEvery : Option Int :=
  let durationMillis : Int := (duration / 10 ^ 6 : Nat)
  let nowMillis := now / 10 ^ 6
  if durationMillis = 0 then none
  else inRange maxTime (((nowMillis.tdiv durationMillis) + 1) * durationMillis * 10 ^ 6)

def advanceTime (time : Int) : Option Int := inRange maxTime (time + duration)

def triggerTime : Nat → Option Int
  | 0 => newEvery maxTime duration now
  | n + 1 => (triggerTime n).bind (advanceTime maxTime duration)

/-- The trigger times go over the multiples of the duration after the current time, and a runner that is
started later goes over those of them that are later. -/
def OnGrid : Prop :=
  ∃ first, newEvery maxTime duration now = some first ∧ now < first ∧ first ≤ now + duration ∧
    (duration : Int) ∣ first ∧
    (∀ n : Nat, first + n * duration ≤ maxTime → triggerTime maxTime duration now n = some (first + n * duration)) ∧
    ∀ now' ≥ now, now' + duration ≤ maxTime → ∃ first', newEvery maxTime duration now' = some first' ∧
      ∀ t, (∃ n : Nat, t = first' + n * duration) ↔ now' < t ∧ ∃ n : Nat, t = first + n * duration

end

section
variable {maxTime now : Int} {duration : Nat}

private theorem newEvery_eq_of_whole (hpos : 0 < duration) (hwhole : 10 ^ 6 ∣ duration)
    (hnow : 0 ≤ now ∨ duration = 10 ^ 6)
    (hmax : now + duration ≤ maxTime) : newEvery maxTime duration now = some ((now / duration + 1) * duration) := by
  obtain ⟨k, rfl⟩ := hwhole
  have hk : (k : Int) ≠ 0 := by
    rintro hk
    simp [Int.natCast_eq_zero.mp hk] at hpos
  have hdiv : (now / 10 ^ 6).tdiv k = now / 10 ^ 6 / k := by
    rcases hnow with hnow | hone
    · exact Int.tdiv_eq_ediv_of_nonneg (Int.ediv_nonneg hnow (by decide))
    · obtain rfl : k = 1 := by omega
      simp
  have hgrid : ((now / 10 ^ 6).tdiv k + 1) * k * 10 ^ 6 = (now / (10 ^ 6 * k : Nat) + 1) * (10 ^ 6 * k : Nat) := by
    rw [hdiv, Int.ediv_ediv_of_nonneg (by decide)]
    push_cast
    ring
  have hle : (now / (10 ^ 6 * k : Nat) + 1) * (10 ^ 6 * k : Nat) ≤ maxTime := by
    have := Int.ediv_mul_le now (b := ((10 ^ 6 * k : Nat) : Int)) (by exact_mod_cast hpos.ne')
    linarith
  rw [newEvery, Nat.mul_div_cancel_left k (by decide), if_neg hk, hgrid, inRange, if_pos hle]

/-- The multiples from the first one after the current time on are those after the current time. -/
theorem exists_multiple_iff (hpos : 0 < duration) (t : Int) :
    (∃ n : Nat, t = (now / duration + 1) * duration + n * duration) ↔ now < t ∧ (duration : Int) ∣ t := by
  have hd : (0 : Int) < duration := by exact_mod_cast hpos
  constructor
  · rintro ⟨n, rfl⟩
    have := Int.lt_ediv_add_one_mul_self now hd
    exact ⟨by nlinarith [mul_nonneg n.cast_nonneg hd.le], ⟨now / duration + 1 + n, by ring⟩⟩
  · rintro ⟨hlt, k, rfl⟩
    have hk : now / duration < k := Int.ediv_lt_of_lt_mul hd (by linarith)
    refine ⟨(k - (now / duration + 1)).toNat, ?_⟩
    rw [Int.toNat_of_nonneg (by linarith)]
    ring

private theorem triggerTime_eq {first : Int} (hfirst : newEvery maxTime duration now = some first) (n : Nat)
    (hmax : first + n * duration ≤ maxTime) : triggerTime maxTime duration now n = some (first + n * duration) := by
  induction n with
  | zero => simpa [triggerTime] using hfirst
  | succ n ih =>
    push_cast at hmax ⊢
    rw [triggerTime, ih (by linarith), Option.bind_some, advanceTime, inRange, if_pos (by linarith)]
    exact congrArg some (by ring)

private theorem onGrid_of_whole (hpos : 0 < duration) (hwhole : 10 ^ 6 ∣ duration) (hnow : 0 ≤ now ∨ duration = 10 ^ 6)
    (hmax : now + duration ≤ maxTime) : OnGrid maxTime duration now := by
  have hd : (0 : Int) < duration := by exact_mod_cast hpos
  have hfirst := newEvery_eq_of_whole hpos hwhole hnow hmax
  have hle := Int.ediv_mul_le now hd.ne'
  refine ⟨_, hfirst, Int.lt_ediv_add_one_mul_self now hd, by linarith, ⟨_, mul_comm _ _⟩,
    fun n hn => triggerTime_eq hfirst n hn, fun now' hnow' hmax' => ?_⟩
  refine ⟨_, newEvery_eq_of_whole hpos hwhole (hnow.imp_left hnow'.trans') hmax', fun t => ?_⟩
  rw [exists_multiple_iff hpos, exists_multiple_iff hpos]
  exact ⟨fun ⟨hlt, hdvd⟩ => ⟨hlt, hnow'.trans_lt hlt, hdvd⟩, fun ⟨hlt, _, hdvd⟩ => ⟨hlt, hdvd⟩⟩

/-- At the epoch, the first trigger time is the duration without its part of a millisecond. -/
theorem whole_of_onGrid_zero (h : OnGrid maxTime duration 0) : 0 < duration ∧ 10 ^ 6 ∣ duration := by
  obtain ⟨first, hfirst, hpos, hle, hdvd, -⟩ := h
  rw [zero_add] at hle
  simp only [newEvery, inRange, Int.zero_ediv, Int.zero_tdiv, zero_add, one_mul] at hfirst
  split_ifs at hfirst
  obtain rfl := Option.some.inj hfirst
  have hd : (0 : Int) < duration := hpos.trans_le hle
  have heq := Int.le_antisymm hle (Int.le_of_dvd hpos hdvd)
  refine ⟨by exact_mod_cast hd, ⟨duration / 10 ^ 6, ?_⟩⟩
  rw [mul_comm]
  exact_mod_cast heq.symm

/-- Right before the epoch the division rounds up, so that the first trigger time is the duration. -/
theorem one_milli_of_onGrid_neg_one (hpos : 0 < duration) (hwhole : 10 ^ 6 ∣ duration)
    (h : OnGrid maxTime duration (-1)) : duration = 10 ^ 6 := by
  obtain ⟨first, hfirst, -, hle, -⟩ := h
  obtain ⟨k, rfl⟩ := hwhole
  by_contra hne
  have hk : (k : Int) ≠ 0 := by
    rintro hk
    simp [Int.natCast_eq_zero.mp hk] at hpos
  have hdiv : ((-1 : Int) / 10 ^ 6).tdiv k = 0 := by
    rw [show (-1 : Int) / 10 ^ 6 = -1 by decide, Int.neg_tdiv, Int.tdiv_eq_zero_of_lt (by decide) (by omega), neg_zero]
  rw [newEvery, Nat.mul_div_cancel_left k (by decide), if_neg hk, hdiv, inRange] at hfirst
  split_ifs at hfirst
  obtain rfl := Option.some.inj hfirst
  push_cast at hle
  linarith

end

/-- With a clock that starts at the epoch or before it, trigger times are on the grid of exactly the durations in whole
milliseconds, of which only the least is left if the clock starts before the epoch. -/
theorem every_on_grid_iff_whole_millis {earliest maxTime : Int} {duration : Nat}
    (haccepts : acceptsEvery duration = true) (hearliest : earliest ≤ 0) (hrange : year ≤ maxTime) :
    (∀ now, earliest ≤ now → now + duration ≤ maxTime → OnGrid maxTime duration now) ↔
      0 < duration ∧ 10 ^ 6 ∣ duration ∧ (earliest = 0 ∨ duration = 10 ^ 6) := by
  have hyear : (duration : Int) ≤ year := by exact_mod_cast of_decide_eq_true haccepts
  constructor
  · intro h
    obtain ⟨hpos, hwhole⟩ := whole_of_onGrid_zero (h 0 hearliest (by linarith))
    refine ⟨hpos, hwhole, or_iff_not_imp_left.mpr fun hne => ?_⟩
    exact one_milli_of_onGrid_neg_one hpos hwhole (h (-1) (by omega) (by linarith))
  · rintro ⟨hpos, hwhole, hclock⟩ now hnow
    exact onGrid_of_whole hpos hwhole (hclock.imp_left fun hzero : earliest = 0 => hzero ▸ hnow)

theorem every_second_on_grid : OnGrid (10 ^ 18) (10 ^ 9) 1500000000 :=
  (every_on_grid_iff_whole_millis (by decide) le_rfl (by decide)).mpr (by decide) _ (by decide) (by decide)

/-- Without a whole millisecond the runner cannot be built; one and a half of them are left for the multiples of
one; and before the epoch the first trigger time is a whole duration too late. -/
theorem every_off_grid : acceptsEvery 999999 = true ∧ newEvery (10 ^ 18) 999999 0 = none ∧
    newEvery (10 ^ 18) 1500000 0 = some 1000000 ∧ newEvery (10 ^ 18) (10 ^ 10) (-5 * 10 ^ 9) = some (10 ^ 10) := by
  decide

end VarveDB.Schedule
