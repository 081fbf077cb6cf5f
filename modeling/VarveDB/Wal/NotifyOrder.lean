import VarveDB.Wal.Node

/-! The order in which flushed WAL files reach the file notifier while calls of `flush_buffer` overlap. -/
namespace VarveDB.Wal
open Library Runs List

structure Recording where
  node : Node
  notified : List WalContents

/-- A flush may also end because another writer has taken its file's name. -/
inductive FlushAction where
  | node (a : Action)
  | alreadyExists (w : WalContents)

def Action.handedOver : Action → List WalContents
  | .notify w => [w]
  | _ => []

namespace Recording

/-- One step of a running process; a crash ends the run. A flush whose name is taken frees the permit of
its snapshot. -/
def step (cfg : Config) (s : Recording) : FlushAction → Option Recording
  | .node .crash => none
  | .node a => do
    let node ← s.node.step cfg a
    some ⟨node, s.notified ++ a.handedOver⟩
  | .alreadyExists w => do
    let p ← s.node.process
    if w ∈ p.flushing ∧ ∃ w' ∈ s.node.store, w'.walFileNumber = w.walFileNumber then
      some { s with node.process := some { p with
        flushing := p.flushing.erase w, permit := if w.snapshot.isSome then none else p.permit } }
    else none

/-- Files are handed over in the order of their numbers, and no file that a snapshot covers is
handed over after the file that carries the snapshot, or still on its way. -/
structure InOrder (s : Recording) : Prop where
  increasing : (s.notified.map WalContents.walFileNumber).Pairwise (· < ·)
  covered : ∀ before w after, s.notified = before ++ w :: after → ∀ details ∈ w.snapshot, ∀ p ∈ s.node.process,
    ∀ x ∈ after ++ (p.stored ++ p.flushing), details.lastWalSequenceNumber < x.walFileNumber

structure Idle (s : Recording) : Prop where
  process : ∃ p, s.node.process = some p ∧ p.replaying = none ∧ p.stored ++ p.flushing = [] ∧
    ∀ q ∈ p.tracker.walPeriods, q.walFileNumber < p.walFileNumber
  notified : s.notified = []

/-- The condition on a step: the buffer is swapped only once every earlier flush has notified. -/
def OneAtATime (s : Recording) : FlushAction → Prop
  | .node (.flush ..) => ∀ p ∈ s.node.process, p.stored ++ p.flushing = []
  | _ => True

instance (s : Recording) (a : FlushAction) : Decidable (s.OneAtATime a) := by
  rcases a with ⟨_ | _⟩ | _ <;> dsimp only [OneAtATime] <;> infer_instance

structure Serial (s : Recording) (p : Process) : Prop where
  running : p.replaying = none
  increasing : (s.notified.map WalContents.walFileNumber).Pairwise (· < ·)
  single : (p.stored ++ p.flushing).length ≤ 1
  later : ∀ x ∈ p.stored ++ p.flushing, ∀ w ∈ s.notified, w.walFileNumber < x.walFileNumber
  numbered : ∀ x ∈ s.notified ++ (p.stored ++ p.flushing), x.walFileNumber < p.walFileNumber
  periods : ∀ q ∈ p.tracker.walPeriods, q.walFileNumber < p.walFileNumber
  covers : ∀ x ∈ s.notified ++ (p.stored ++ p.flushing), ∀ details ∈ x.snapshot,
    details.lastWalSequenceNumber ≤ x.walFileNumber

structure Invariant (s : Recording) : Prop where
  serial : ∃ p, s.node.process = some p ∧ Serial s p

variable {cfg : Config} {s s' : Recording} {p p' : Process} {w : WalContents}

theorem Idle.invariant (h : Idle s) : Invariant s := by
  obtain ⟨p, hp, hrun, hflight, hperiods⟩ := h.process
  refine ⟨p, hp, hrun, ?_, ?_, ?_, ?_, hperiods, ?_⟩ <;> simp [h.notified, hflight]

theorem Invariant.inOrder (h : Invariant s) : InOrder s := by
  obtain ⟨p, hp, hserial⟩ := h.serial
  refine ⟨hserial.increasing, fun before w after hsplit details hdetails p' hp' x hx => ?_⟩
  obtain rfl := some.inj (hp.symm.trans hp')
  have hmem : w ∈ s.notified := by simp [hsplit]
  have hlast := hserial.covers w (mem_append_left _ hmem) details hdetails
  rcases mem_append.mp hx with hx | hx
  · have hincreasing := hserial.increasing
    rw [hsplit, map_append, map_cons] at hincreasing
    have hlt := rel_of_pairwise_cons (pairwise_append.mp hincreasing).2.1 (mem_map_of_mem hx)
    omega
  · have hlt := hserial.later x hx w hmem
    omega

section
variable (h : Serial s p)
include h

private theorem Serial.flush (hflight : p.stored ++ p.flushing = []) {f : WalContents}
    {tracker : SnapshotTracker} {rows : List Row} {permit : Option SnapshotDetails}
    (hnumber : f.walFileNumber = p.walFileNumber)
    (hperiods : ∀ q ∈ tracker.walPeriods, q.walFileNumber ≤ p.walFileNumber)
    (hcovers : ∀ details ∈ f.snapshot, details.lastWalSequenceNumber ≤ p.walFileNumber)
    (hnode : s'.notified = s.notified) :
    Serial s' { p with walBuffer := rows, walFileNumber := p.walFileNumber + 1, tracker, permit
                       flushing := p.flushing ++ [f] } := by
  obtain ⟨hstored, hflushing⟩ := append_eq_nil_iff.mp hflight
  have hnotified : ∀ x ∈ s.notified, x.walFileNumber < p.walFileNumber := fun x hx =>
    h.numbered x (mem_append_left _ hx)
  have hin : p.stored ++ (p.flushing ++ [f]) = [f] := by rw [hstored, hflushing]; rfl
  refine ⟨h.running, hnode ▸ h.increasing, ?_, ?_, ?_, ?_, ?_⟩ <;> simp only [hin, hnode]
  · exact Nat.le_refl 1
  · intro x hx w hw
    rw [mem_singleton.mp hx, hnumber]
    exact hnotified w hw
  · intro x hx
    rcases mem_snoc.mp hx with hx | rfl
    · exact Nat.lt_succ_of_lt (hnotified x hx)
    · rw [hnumber]
      exact Nat.lt_succ_self _
  · exact fun q hq => Nat.lt_succ_of_le (hperiods q hq)
  · exact forall_mem_snoc.mpr ⟨fun x hx => h.covers x (mem_append_left _ hx), hnumber ▸ hcovers⟩

theorem Serial.flight_subset (hnotified : s'.notified = s.notified) (hrun : p'.replaying = none)
    (hflight : p'.stored ++ p'.flushing ⊆ p.stored ++ p.flushing)
    (hlength : (p'.stored ++ p'.flushing).length ≤ (p.stored ++ p.flushing).length)
    (hperiods : p'.tracker.walPeriods = p.tracker.walPeriods) (hnumber : p.walFileNumber ≤ p'.walFileNumber) :
    Serial s' p' := by
  have hsubset : s'.notified ++ (p'.stored ++ p'.flushing) ⊆ s.notified ++ (p.stored ++ p.flushing) :=
    hnotified ▸ append_subset.mpr ⟨subset_append_left .., List.Subset.trans hflight (subset_append_right ..)⟩
  refine ⟨hrun, hnotified ▸ h.increasing, hlength.trans h.single, fun x hx => hnotified ▸ h.later x (hflight hx),
    ?_, ?_, ?_⟩
  · exact fun x hx => Nat.lt_of_lt_of_le (h.numbered x (hsubset hx)) hnumber
  · rw [hperiods]
    exact fun q hq => Nat.lt_of_lt_of_le (h.periods q hq) hnumber
  · exact fun x hx => h.covers x (hsubset hx)

private theorem Serial.erase_flushing {permit : Option SnapshotDetails} {rows : List Row} {number : Nat}
    (hnotified : s'.notified = s.notified) (hnumber : p.walFileNumber ≤ number) :
    Serial s' { p with
      flushing := p.flushing.erase w, permit := permit, walBuffer := rows, walFileNumber := number } := by
  have hsub : List.Sublist (p.stored ++ p.flushing.erase w) (p.stored ++ p.flushing) :=
    (List.Sublist.refl _).append erase_sublist
  exact h.flight_subset hnotified h.running hsub.subset hsub.length_le rfl hnumber

private theorem Serial.notify (hw : w ∈ p.stored) (hnotified : s'.notified = s.notified ++ [w]) :
    Serial s' (p.notify cfg w) := by
  have hfields : (p.notify cfg w).replaying = p.replaying ∧ (p.notify cfg w).stored = p.stored.erase w ∧
      (p.notify cfg w).flushing = p.flushing ∧ (p.notify cfg w).tracker = p.tracker ∧
      (p.notify cfg w).walFileNumber = p.walFileNumber := by
    unfold Process.notify
    cases w.snapshot <;> exact ⟨rfl, rfl, rfl, rfl, rfl⟩
  obtain ⟨hrun, hstored, hflushing, htracker, hnumber⟩ := hfields
  -- the file handed over was the only one on its way
  have hin : w ∈ p.stored ++ p.flushing := mem_append_left _ hw
  have hnone : p.stored.erase w ++ p.flushing = [] := by
    rw [← erase_append_left _ hw, ← length_eq_zero_iff, length_erase_of_mem hin]
    have := h.single
    omega
  have hsubset : s.notified ++ [w] ⊆ s.notified ++ (p.stored ++ p.flushing) :=
    append_subset.mpr ⟨subset_append_left .., by simpa using .inr (mem_append.mp hin)⟩
  refine ⟨hrun ▸ h.running, ?_, ?_, ?_, ?_, ?_, ?_⟩ <;>
    simp only [hstored, hflushing, hnone, hnotified, htracker, hnumber]
  · rw [map_append, map_singleton]
    refine pairwise_append.mpr ⟨h.increasing, pairwise_singleton .., fun x hx y hy => ?_⟩
    obtain ⟨earlier, hearlier, rfl⟩ := mem_map.mp hx
    rw [mem_singleton.mp hy]
    exact h.later w hin earlier hearlier
  · exact Nat.zero_le _
  · simp
  · rw [append_nil]
    exact fun x hx => h.numbered x (hsubset hx)
  · exact h.periods
  · rw [append_nil]
    exact fun x hx => h.covers x (hsubset hx)

private theorem Serial.node_step (hp : s.node.process = some p) {a : Action} {node : Node}
    (hone : s.OneAtATime (.node a)) (hcrash : a ≠ .crash) (hstep : s.node.step cfg a = some node) :
    ∃ p', node.process = some p' ∧ Serial ⟨node, s.notified ++ a.handedOver⟩ p' := by
  have hinj : ∀ {q : Process}, s.node.process = some q → p = q := fun hq => some.inj (hp.symm.trans hq)
  have hsame : s.notified ++ [] = s.notified := append_nil _
  have hadded {f : WalContents} : ∀ q ∈ (p.tracker.addWalPeriod f.period).walPeriods,
      f.walFileNumber = p.walFileNumber → q.walFileNumber ≤ p.walFileNumber := fun q hq hf => by
    rcases mem_snoc.mp hq with hq | rfl
    · exact (h.periods q hq).le
    · exact hf.le
  cases Node.stepped_of_step hstep with
  | crash => exact absurd rfl hcrash
  | restart => simp [Node.step, hp] at hstep
  | flushPlain hq hrun =>
    obtain rfl := hinj hq
    exact ⟨_, rfl, h.flush (hone p hp) rfl (fun q hq => hadded q hq rfl) (fun _ hd => by cases hd) hsame⟩
  | flushSnapshot hq hrun hpermit hsnap =>
    obtain rfl := hinj hq
    obtain ⟨q, hmem, hlast⟩ := Planned.last_mem ⟨_, _, _, hsnap⟩
    refine ⟨_, rfl, h.flush (hone p hp) rfl (fun q hq => ?_) ?_ hsame⟩
    · exact hadded q (SnapshotTracker.snapshot_walPeriods_subset hsnap hq) rfl
    · rintro details ⟨⟩
      exact hlast ▸ hadded q hmem rfl
  | put hq hw =>
    obtain rfl := hinj hq
    refine ⟨_, rfl, h.flight_subset hsame h.running ?_ ?_ rfl le_rfl⟩
    · refine append_subset.mpr ⟨append_subset.mpr ⟨subset_append_left .., ?_⟩, ?_⟩
      · simpa using .inr hw
      · exact List.Subset.trans erase_subset (subset_append_right ..)
    · simp only [length_append, length_singleton, length_erase_of_mem hw]
      have := length_pos_of_mem hw
      omega
  | giveUp hq hw =>
    obtain rfl := hinj hq
    exact ⟨_, rfl, h.erase_flushing hsame (Nat.le_succ _)⟩
  | notify hq hw =>
    obtain rfl := hinj hq
    exact ⟨_, rfl, h.notify hw rfl⟩
  | beginCleanup hq hc hpermit =>
    obtain rfl := hinj hq
    refine ⟨_, rfl, ?_⟩
    unfold Process.beginCleanup
    simp only
    split <;> exact h.flight_subset hsame h.running (List.Subset.refl _) le_rfl rfl le_rfl
  | replayFile hq hrep hrem hj hc =>
    obtain rfl := hinj hq
    cases hrep.symm.trans h.running
  | write hq | deleteNext hq | endCleanup hq | persistSnapshot hq | reserve hq | stamp hq | persistCompaction hq
  | failCompaction hq | finishReplay hq =>
    obtain rfl := hinj hq
    exact ⟨_, rfl, h.flight_subset hsame (by first | exact h.running | rfl) (List.Subset.refl _) le_rfl rfl
      le_rfl⟩

end

theorem Invariant.step (h : Invariant s) {a : FlushAction} (hone : s.OneAtATime a) (hstep : s.step cfg a = some s') :
    Invariant s' := by
  obtain ⟨p, hp, hserial⟩ := h.serial
  cases a with
  | node a =>
    by_cases hcrash : a = .crash
    · subst hcrash
      cases hstep
    · have hstep' :
        ((s.node.step cfg a).bind fun node => some (⟨node, s.notified ++ a.handedOver⟩ : Recording)) = some s' := by
        cases a <;> first | exact absurd rfl hcrash | exact hstep
      obtain ⟨node, hnode, hs'⟩ := bind_eq_some_iff.mp hstep'
      cases hs'
      exact ⟨hserial.node_step hp hone hcrash hnode⟩
  | alreadyExists w =>
    simp only [Recording.step, hp, bind_eq_bind, bind_some] at hstep
    split at hstep <;> cases hstep
    exact ⟨_, rfl, hserial.erase_flushing rfl le_rfl⟩

end Recording

private def started : Recording :=
  ⟨{ Node.empty with process := some { Process.new Node.empty with replaying := none } }, []⟩

end VarveDB.Wal
