import VarveDB.Catalog.Commit

/-! When catalog logs are applied exactly once and in order. -/
namespace VarveDB.Catalog.Commit
open Library Runs

variable {α κ ρ ι : Type} {ops : Ops α κ ρ} {content : κ} {logs logs' : Logs ρ}

def Logs.Extends (logs logs' : Logs ρ) : Prop := ∀ s records, logs s = some records → logs' s = some records

theorem Logs.Extends.refl (logs : Logs ρ) : logs.Extends logs := fun _ _ h => h

variable {s : Nat} {records : List ρ} {c' : InnerCatalog κ} {phase : Phase α ρ} {k : CatchUp α} {n : ι}

theorem Logs.Extends.create (h : logs s = none) (records : List ρ) :
    logs.Extends (Function.update logs s (some records)) := by
  intro t other ht
  have hne : t ≠ s := by rintro rfl; cases h.symm.trans ht
  rw [Function.update_of_ne hne, ht]

section Replay

variable {c : InnerCatalog κ}

private theorem applyRecords_sequence (h : ops.applyRecords c s records = (c', true)) : c'.sequence = s := by
  unfold Ops.applyRecords at h
  split at h <;> cases h
  rfl

theorem replay_succ (hreplay : replay ops content logs s = some c)
    (hlog : logs (s + 1) = some records) (happly : ops.applyRecords c (s + 1) records = (c', true)) :
    replay ops content logs (s + 1) = some c' := by
  simp [replay, hreplay, hlog, happly]

theorem exists_of_replay_succ (h : replay ops content logs (s + 1) = some c') :
    ∃ c records, replay ops content logs s = some c ∧ logs (s + 1) = some records ∧
      ops.applyRecords c (s + 1) records = (c', true) := by
  simp only [replay, bind_eq_bind, bind_eq_some_iff] at h
  obtain ⟨c, hc, records, hrecords, hlast⟩ := h
  split at hlast
  · next happly => cases hlast; exact ⟨c, records, hc, hrecords, happly⟩
  · cases hlast

private theorem replay_sequence (h : replay ops content logs s = some c) : c.sequence = s := by
  cases s with
  | zero => cases h; rfl
  | succ s =>
    obtain ⟨_, _, -, -, happly⟩ := exists_of_replay_succ h
    exact applyRecords_sequence happly

/-- Files added later do not change what the earlier ones replay to. -/
theorem replay_mono (hext : logs.Extends logs') (h : replay ops content logs s = some c) :
    replay ops content logs' s = some c := by
  induction s generalizing c with
  | zero => exact h
  | succ s ih =>
    obtain ⟨c, records, hc, hlog, happly⟩ := exists_of_replay_succ h
    exact replay_succ (ih hc) (hext _ _ hlog) happly

end Replay

def Logs.Applicable (ops : Ops α κ ρ) (content : κ) (logs : Logs ρ) : Prop :=
  ∀ s records, logs (s + 1) = some records → ∃ c, replay ops content logs (s + 1) = some c

def CatchUp.Keeps (permit sequence : Nat) : CatchUp α → Prop
  | .retryUpdate _ | .retryCommit => True
  | .recheckUpdate _ before | .recheckCommit before => permit = before
  | .bounded _ => permit = sequence

def Phase.Sound (logs : Logs ρ) (permit sequence : Nat) : Phase α ρ → Prop
  | .preparing _ | .persisting .. => permit = sequence
  | .acknowledging s records => permit = sequence ∧ logs s = some records
  | .loading k s => s = sequence + 1 ∧ k.Keeps permit sequence
  | .preloading k s records => s = sequence + 1 ∧ logs s = some records ∧ k.Keeps permit sequence
  | .announcing k s _ | .checkpointing k s => s = sequence ∧ k.Keeps permit sequence

structure Node.Sound (ops : Ops α κ ρ) (content : κ) (logs : Logs ρ) (node : Node α κ ρ) : Prop where
  replayed : replay ops content logs node.inner.sequence = some node.inner
  call : node.call.elim (node.permit = node.inner.sequence) (Phase.Sound logs node.permit node.inner.sequence)

structure State.Sound (ops : Ops α κ ρ) (content : κ) (s : State α κ ρ ι) : Prop where
  applicable : s.logs.Applicable ops content
  nodes : ∀ n, (s.nodes n).Sound ops content s.logs
  acked : ∀ a ∈ s.acked, s.logs a.1 = some a.2

def Phase.defersPermit : Phase α ρ → Bool
  | .loading (.bounded _) _ | .preloading (.bounded _) .. | .announcing (.bounded _) ..
  | .checkpointing (.bounded _) _ => false
  | .loading .. | .preloading .. | .announcing .. | .checkpointing .. => true
  | _ => false

def Node.aboutToWrite (logs : Logs ρ) (node : Node α κ ρ) : Option (List ρ) :=
  match node.call with
  | some (.persisting _ records) => if (logs (node.permit + 1)).isNone then some records else none
  | _ => none

def Node.WritesApplicable (ops : Ops α κ ρ) (logs : Logs ρ) (node : Node α κ ρ) : Prop :=
  ∀ records, node.aboutToWrite logs = some records → (ops.applyRecords node.inner (node.permit + 1) records).2 = true

/-- A call that catches up fails only before it has applied a file, and batches that are written apply. -/
def Undisturbed (ops : Ops α κ ρ) (s : State α κ ρ ι) : Action α ρ ι → Prop
  | .fail n => ∀ phase, (s.nodes n).call = some phase → phase.defersPermit = true →
      (s.nodes n).inner.sequence = (s.nodes n).permit
  | .advance n | .persistUnanswered n => (s.nodes n).WritesApplicable ops s.logs
  | .update .. | .commit .. | .updateTo .. => True

instance (ops : Ops α κ ρ) (logs : Logs ρ) (node : Node α κ ρ) : Decidable (node.WritesApplicable ops logs) :=
  inferInstanceAs (Decidable (∀ records ∈ node.aboutToWrite logs, _ = true))

instance (ops : Ops α κ ρ) (s : State α κ ρ ι) : ∀ a : Action α ρ ι, Decidable (Undisturbed ops s a)
  | .fail n => inferInstanceAs (Decidable (∀ phase ∈ (s.nodes n).call, phase.defersPermit = true → _ = _))
  | .advance _ | .persistUnanswered _ => inferInstanceAs (Decidable (Node.WritesApplicable ..))
  | .update .. | .commit .. | .updateTo .. => .isTrue trivial

theorem Phase.Sound.mono (hext : logs.Extends logs') {permit sequence : Nat}
    (h : phase.Sound logs permit sequence) : phase.Sound logs' permit sequence := by
  cases phase with
  | acknowledging s records => exact ⟨h.1, hext _ _ h.2⟩
  | preloading k s records => exact ⟨h.1, hext _ _ h.2.1, h.2.2⟩
  | _ => exact h

namespace Node
variable {node : Node α κ ρ}

theorem Sound.mono (hext : logs.Extends logs') (h : node.Sound ops content logs) : node.Sound ops content logs' := by
  refine ⟨replay_mono hext h.replayed, ?_⟩
  have hcall := h.call
  cases hphase : node.call with
  | none => rw [hphase] at hcall; exact hcall
  | some phase => rw [hphase] at hcall; exact hcall.mono hext

section
variable (h : node.Sound ops content logs)
include h

/-- A node with no call is settled. -/
theorem Sound.settled (hcall : node.call = none) :
    node.inner.sequence = node.permit ∧ replay ops content logs node.permit = some node.inner := by
  have hpermit := h.call
  rw [hcall] at hpermit
  exact ⟨hpermit.symm, hpermit ▸ h.replayed⟩

/-- A call may stand wherever the permit and the catalog allow it. -/
theorem Sound.setCall (hphase : phase.Sound logs node.permit node.inner.sequence) :
    Sound ops content logs { node with call := some phase } := ⟨h.replayed, hphase⟩

theorem Sound.endCall (hpermit : node.permit = node.inner.sequence) :
    Sound ops content logs { node with call := none } := ⟨h.replayed, hpermit⟩

/-- The permit is moved to the catalog's sequence number. -/
theorem Sound.settle {call : Option (Phase α ρ)} (hcall : call = none ∨ ∃ args, call = some (.preparing args)) :
    Sound ops content logs { node with permit := node.inner.sequence, call } := by
  refine ⟨h.replayed, ?_⟩
  rcases hcall with rfl | ⟨args, rfl⟩ <;> exact rfl

theorem Sound.caughtUp (hk : k.Keeps node.permit node.inner.sequence) : (node.caughtUp k).Sound ops content logs := by
  cases k with
  | retryUpdate args => exact h.settle (.inr ⟨args, rfl⟩)
  | retryCommit => exact h.settle (.inl rfl)
  | bounded updateTo => exact h.endCall hk
  | recheckUpdate args before =>
    rw [Node.caughtUp]
    split
    · exact h.settle (.inr ⟨args, rfl⟩)
    · next hseq => exact h.endCall (hk.trans (not_not.mp hseq).symm)
  | recheckCommit before =>
    rw [Node.caughtUp]
    split
    · exact h.settle (.inl rfl)
    · next hseq => exact h.endCall (hk.trans (not_not.mp hseq).symm)

/-- The next log file applies, and the catalog becomes the replay to its sequence number. -/
theorem Sound.applyFile (hlogs : logs.Applicable ops content)
    (hlog : logs (node.inner.sequence + 1) = some records) (hk : k.Keeps node.permit node.inner.sequence) :
    (node.applyFile ops k (node.inner.sequence + 1) records).Sound ops content logs := by
  obtain ⟨c, hc⟩ := hlogs _ _ hlog
  obtain ⟨c₀, records₀, hc₀, hlog₀, happly⟩ := exists_of_replay_succ hc
  obtain rfl : node.inner = c₀ := some.inj (h.replayed.symm.trans hc₀)
  obtain rfl : records = records₀ := some.inj (hlog.symm.trans hlog₀)
  have hseq : c.sequence = node.inner.sequence + 1 := replay_sequence hc
  simp only [Node.applyFile, happly]
  refine ⟨by rw [hseq]; exact hc, hseq.symm, ?_⟩
  cases k with
  | bounded updateTo => exact hseq.symm
  | _ => exact hk

/-- A batch persisted under the next sequence number becomes the catalog's last file. -/
theorem Sound.applyOwn (hpermit : node.permit = node.inner.sequence) (hfree : logs (node.permit + 1) = none)
    (happly : (ops.applyRecords node.inner (node.permit + 1) records).2 = true) :
    (node.applyOwn ops (node.permit + 1) records).Sound ops content
      (Function.update logs (node.permit + 1) (some records)) := by
  obtain ⟨c, hc⟩ : ∃ c, ops.applyRecords node.inner (node.permit + 1) records = (c, true) :=
    ⟨_, Prod.ext rfl happly⟩
  have hlog : Function.update logs (node.permit + 1) (some records) (node.permit + 1) = some records :=
    Function.update_self ..
  have hbefore :
      replay ops content (Function.update logs (node.permit + 1) (some records)) node.permit = some node.inner :=
    replay_mono (.create hfree records) (hpermit ▸ h.replayed)
  have hseq : c.sequence = node.permit + 1 := applyRecords_sequence hc
  simp only [Node.applyOwn, hc]
  exact ⟨by rw [hseq]; exact replay_succ hbefore hlog hc, hseq.symm, hlog⟩

end

end Node

/-- A batch that applies to a replay of the whole log so far can be written after it. -/
theorem Logs.Applicable.create (h : logs.Applicable ops content) {c : InnerCatalog κ}
    (hreplay : replay ops content logs s = some c) (hfree : logs (s + 1) = none)
    (happly : (ops.applyRecords c (s + 1) records).2 = true) :
    Logs.Applicable ops content (Function.update logs (s + 1) (some records)) := by
  intro t other ht
  have hext : logs.Extends (Function.update logs (s + 1) (some records)) := .create hfree records
  by_cases hts : t = s
  · subst hts
    exact ⟨_, replay_succ (replay_mono hext hreplay) (Function.update_self ..) (Prod.ext rfl happly)⟩
  · rw [Function.update_of_ne (by omega)] at ht
    obtain ⟨c', hc'⟩ := h t other ht
    exact ⟨c', replay_mono hext hc'⟩

structure Outcome.Sound (ops : Ops α κ ρ) (content : κ) (logs : Logs ρ) (o : Outcome α κ ρ) : Prop where
  grows : logs.Extends o.logs
  applicable : o.logs.Applicable ops content
  node : o.node.Sound ops content o.logs
  acked : ∀ a, o.acked = some a → o.logs a.1 = some a.2

namespace Node
variable {node : Node α κ ρ}

theorem outcome_of_node (hlogs : logs.Applicable ops content) (h : node.Sound ops content logs) :
    Outcome.Sound ops content logs ⟨logs, node, none⟩ := ⟨.refl logs, hlogs, h, nofun⟩

private theorem aboutToWrite_eq {args : Option α} (hcall : node.call = some (.persisting args records))
    (hfree : logs (node.permit + 1) = none) : node.aboutToWrite logs = some records := by
  simp [aboutToWrite, hcall, hfree]

variable (h : node.Sound ops content logs)
include h

theorem Sound.advance (hlogs : logs.Applicable ops content)
    (hwrites : node.WritesApplicable ops logs) {o : Outcome α κ ρ} (hadvance : node.advance ops logs = some o) :
    o.Sound ops content logs := by
  have hphase := h.call
  cases hcall : node.call with
  | none => simp [Node.advance, hcall] at hadvance
  | some phase =>
    rw [hcall] at hphase
    cases phase
    all_goals simp only [Node.advance, hcall] at hadvance
    case preparing args =>
      have hpermit : node.permit = node.inner.sequence := hphase
      split at hadvance
      · cases hadvance
        exact outcome_of_node hlogs (h.endCall hpermit)
      · split at hadvance <;> cases hadvance
        · exact outcome_of_node hlogs (h.setCall hpermit)
        · exact outcome_of_node hlogs (h.setCall ⟨by rw [hpermit], hpermit⟩)
    case persisting args records =>
      have hpermit : node.permit = node.inner.sequence := hphase
      split at hadvance <;> cases hadvance
      · next hfree =>
        have happly := hwrites records (aboutToWrite_eq hcall hfree)
        exact ⟨.create hfree records, hlogs.create (hpermit ▸ h.replayed) hfree happly,
          h.applyOwn hpermit hfree happly, nofun⟩
      · refine outcome_of_node hlogs (h.setCall ⟨by rw [hpermit], ?_⟩)
        cases args <;> exact trivial
    case acknowledging s records =>
      cases hadvance
      refine ⟨.refl logs, hlogs, h.endCall hphase.1, fun a ha => ?_⟩
      cases ha
      exact hphase.2
    case loading k s =>
      obtain ⟨rfl, hk⟩ : s = node.inner.sequence + 1 ∧ k.Keeps node.permit node.inner.sequence := hphase
      split at hadvance <;> cases hadvance
      · next records hfound =>
        have hlog : logs (node.inner.sequence + 1) = some records := by
          split at hfound
          · exact hfound
          · cases hfound
        exact outcome_of_node hlogs (h.setCall ⟨rfl, hlog, hk⟩)
      · exact outcome_of_node hlogs (h.caughtUp hk)
    case preloading k s records =>
      obtain ⟨rfl, hlog, hk⟩ : s = node.inner.sequence + 1 ∧ logs s = some records ∧
        k.Keeps node.permit node.inner.sequence := hphase
      cases hadvance
      exact outcome_of_node hlogs (h.applyFile hlogs hlog hk)
    case announcing k s restored =>
      obtain ⟨rfl, hk⟩ : s = node.inner.sequence ∧ k.Keeps node.permit node.inner.sequence := hphase
      split at hadvance <;> cases hadvance <;> exact outcome_of_node hlogs (h.setCall ⟨rfl, hk⟩)
    case checkpointing k s =>
      obtain ⟨rfl, hk⟩ : s = node.inner.sequence ∧ k.Keeps node.permit node.inner.sequence := hphase
      cases hadvance
      exact outcome_of_node hlogs (h.setCall ⟨rfl, hk⟩)

theorem Sound.beginCommit (hcall : node.call = none) (sequenceAtBegin : Nat)
    (records : List ρ) : (node.beginCommit ops sequenceAtBegin records).Sound ops content logs := by
  obtain ⟨hseq, -⟩ := h.settled hcall
  unfold Node.beginCommit
  split
  · exact h
  · split
    · exact h.setCall hseq.symm
    · exact h.setCall ⟨by rw [hseq], hseq.symm⟩

/-- A call that fails leaves the node settled, unless it defers the permit and has applied files. -/
theorem Sound.fail
    (hguard : ∀ phase, node.call = some phase → phase.defersPermit = true → node.inner.sequence = node.permit) :
    Sound ops content logs { node with call := none } := by
  refine h.endCall ?_
  have hphase := h.call
  cases hcall : node.call with
  | none => rw [hcall] at hphase; exact hphase
  | some phase =>
    rw [hcall] at hphase
    have hdefer := hguard phase hcall
    cases phase with
    | preparing | persisting => exact hphase
    | acknowledging s records => exact hphase.1
    | loading k | announcing k | checkpointing k => cases k with
      | bounded updateTo => exact hphase.2
      | _ => exact (hdefer rfl).symm
    | preloading k s records => cases k with
      | bounded updateTo => exact hphase.2.2
      | _ => exact (hdefer rfl).symm

end Node

namespace State.Sound
variable {s s' : State α κ ρ ι}

variable [DecidableEq ι] {node : Node α κ ρ} (h : s.Sound ops content)
include h

theorem of_node {acked : List (Nat × List ρ)}
    (hext : s.logs.Extends logs) (hlogs : logs.Applicable ops content) (hnode : node.Sound ops content logs)
    (hacked : ∀ a ∈ acked, a ∈ s.acked ∨ logs a.1 = some a.2) :
    Sound ops content ⟨logs, Function.update s.nodes n node, acked⟩ := by
  refine ⟨hlogs, fun m => ?_, fun a ha => (hacked a ha).elim (fun h' => hext _ _ (h.acked a h')) id⟩
  change (Function.update s.nodes n node m).Sound ops content logs
  by_cases hm : m = n
  · subst hm
    rwa [Function.update_self]
  · rw [Function.update_of_ne hm]
    exact (h.nodes m).mono hext

private theorem start (hstep : s.start n node = some s')
    (hnode : (s.nodes n).call = none → node.Sound ops content s.logs) : s'.Sound ops content := by
  unfold State.start at hstep
  split at hstep <;> cases hstep
  rename_i hnone
  exact h.of_node (.refl _) h.applicable (hnode (Option.isNone_iff_eq_none.mp hnone)) fun _ ha => .inl ha

theorem step {a : Action α ρ ι} (hguard : Undisturbed ops s a) (hstep : State.step ops s a = some s') :
    s'.Sound ops content := by
  cases a with
  | update n args => exact h.start hstep fun hcall => (h.nodes n).setCall ((h.nodes n).settled hcall).1.symm
  | commit n sequenceAtBegin records => exact h.start hstep fun hcall => (h.nodes n).beginCommit hcall _ _
  | updateTo n sequence =>
    refine h.start hstep fun hcall => ?_
    have hseq := ((h.nodes n).settled hcall).1
    exact (h.nodes n).setCall ⟨by rw [hseq], hseq.symm⟩
  | advance n =>
    obtain ⟨o, ho, hs'⟩ := bind_eq_some_iff.mp hstep
    cases hs'
    have hsound := (h.nodes n).advance h.applicable hguard ho
    refine h.of_node hsound.grows hsound.applicable hsound.node fun a ha => ?_
    exact (List.mem_append.mp ha).imp id fun ha => hsound.acked a (Option.mem_toList.mp ha)
  | fail n =>
    simp only [State.step] at hstep
    split at hstep <;> cases hstep
    exact h.of_node (.refl _) h.applicable ((h.nodes n).fail hguard) fun _ ha => .inl ha
  | persistUnanswered n =>
    simp only [State.step] at hstep
    split at hstep
    · next args records hcall =>
      split at hstep <;> cases hstep
      next hfree =>
      have hphase := (h.nodes n).call
      rw [hcall] at hphase
      have hpermit : (s.nodes n).permit = (s.nodes n).inner.sequence := hphase
      have happly := hguard records (Node.aboutToWrite_eq hcall hfree)
      have hext : s.logs.Extends _ := .create hfree records
      exact h.of_node hext (h.applicable.create (hpermit ▸ (h.nodes n).replayed) hfree happly)
        (((h.nodes n).mono hext).endCall hpermit) fun _ ha => .inl ha
    · cases hstep

end State.Sound

/-- If no call that catches up fails after it has applied a file, and every batch that is persisted applies, a node
whose permit is free has applied the log files up to its number once each and in order. -/
theorem logs_applied_exactly_once [DecidableEq ι] (ops : Ops α κ ρ) (content : κ) {actions : List (Action α ρ ι)}
    {s : State α κ ρ ι} (hguard : Guarded (State.step ops) (Undisturbed ops) (.init content) actions)
    (hrun : run (State.step ops) (.init content) actions = some s) : ExactlyOnce ops content s := by
  have hsound : s.Sound ops content :=
    invariant (State.Sound.step ·) (by exact ⟨nofun, fun _ => ⟨rfl, rfl⟩, nofun⟩) hguard hrun
  exact ⟨fun n hcall => (hsound.nodes n).settled hcall, hsound.acked⟩

private def listing : Ops Nat (List Nat) Nat where
  prepare args _ := some [args]
  allowed _ _ := true
  applyRecord c r := ({ c with content := c.content ++ [r] }, true)
  isRestore _ := false

private def race : List (Action Nat Nat (Fin 2)) :=
  [.update 0 7, .advance 0, .advance 0, .advance 0, .update 1 8, .advance 1, .advance 1, .advance 1, .advance 1]

theorem both_batches_applied_once : ∃ s : State Nat (List Nat) Nat (Fin 2),
      run (State.step listing) (.init []) (race ++ List.replicate 5 (.advance 1)) = some s ∧
      s.acked = [(1, [7]), (2, [8])] ∧ (s.nodes 1).inner.content = [7, 8] ∧ ExactlyOnce listing [] s := by
  exact exists_and_and (by decide) fun s hrun _ _ => logs_applied_exactly_once listing [] (by decide) hrun

/-- The broadcast of the file's events fails, so the permit stays behind the catalog; the next call
on the node applies the file again. -/
theorem file_applied_twice : ∃ s : State Nat (List Nat) Nat (Fin 2),
      run (State.step listing) (.init []) (race ++ [.fail 1, .updateTo 1 1] ++ List.replicate 4 (.advance 1)) = some s ∧
      (s.nodes 1).call = none ∧ s.logs 1 = some [7] ∧ s.logs 2 = none ∧ (s.nodes 1).permit = 1 ∧
      (s.nodes 1).inner.content = [7, 7] ∧ ¬ ExactlyOnce listing [] s := by
  refine exists_of_decide (fun s => (s.nodes 1).call = none ∧ s.logs 1 = some [7] ∧ s.logs 2 = none ∧
    (s.nodes 1).permit = 1 ∧ (s.nodes 1).inner.content = [7, 7]) (by decide)
    fun s hrun ⟨hcall, hlog, hnext, hpermit, hcontent⟩ => ?_
  refine ⟨hcall, hlog, hnext, hpermit, hcontent, fun h => ?_⟩
  have hreplay := (h.settled 1 hcall).2
  rw [hpermit] at hreplay
  have hinner : some (⟨[7], 1⟩ : InnerCatalog (List Nat)) = some (s.nodes 1).inner := by
    rw [← hreplay]
    simp [replay, hlog, Ops.applyRecords, Ops.applyEach, listing]
  rw [← some.inj hinner] at hcontent
  cases hcontent

end VarveDB.Catalog.Commit
