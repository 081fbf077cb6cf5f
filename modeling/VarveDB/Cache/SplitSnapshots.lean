import VarveDB.Library.Runs

/-! The split of a node's snapshot manifests into table index snapshots. -/
namespace VarveDB.SplitSnapshots
open Library.Runs List

/-- `metas` are the manifests that the call splits, `pending` those not split yet, and `durable` all there were when
it listed them. -/
structure Call where
  completed : Option Nat
  durable : List Nat
  metas : List Nat
  pending : List Nat
  deriving DecidableEq

def Call.passed (call : Call) : List Nat := call.completed.toList ++ call.metas

/-- Manifests by their numbers; `returned` are those that were durable when a call that ended well listed them, so all
that were durable when it began. -/
structure State where
  durable : List Nat
  marker : Option Nat
  split : List Nat
  calls : List Call
  returned : List Nat

def State.new : State := ⟨[], none, [], [], []⟩

inductive Action where
  | persist (seq : Nat)
  | start
  | list (completed : Option Nat)
  | split (call : Call) (seq : Nat)
  | finish (call : Call)
  | fail (call : Call)

def snapshotMetas (durable : List Nat) (completed : Option Nat) : List Nat :=
  (durable.insertionSort (· ≥ ·)).takeWhile fun seq => completed.all (· < seq)

namespace State

variable (s : State)

def replace (call : Call) (calls : List Call) : State := { s with calls := s.calls.erase call ++ calls }

/-- A manifest that overwrites a durable one is left out. -/
def step : Action → Option State
  | .persist seq => if seq ∉ s.durable then some { s with durable := s.durable ++ [seq] } else none
  | .start => some { s with calls := s.calls ++ [⟨s.marker, [], [], []⟩] }
  | .list completed =>
    if ⟨completed, [], [], []⟩ ∈ s.calls then
      match snapshotMetas s.durable completed with
      | [] => some { s.replace ⟨completed, [], [], []⟩ [] with
          marker := if completed = none then some 0 else s.marker, returned := s.returned ++ s.durable }
      | metas => some (s.replace ⟨completed, [], [], []⟩ [⟨completed, s.durable, metas, metas⟩])
    else none
  | .split call seq =>
    if call ∈ s.calls ∧ seq ∈ call.pending then
      some { s.replace call [{ call with pending := call.pending.erase seq }] with split := s.split ++ [seq] }
    else none
  | .finish call =>
    if call ∈ s.calls ∧ call.metas ≠ [] ∧ call.pending = [] then
      some { s.replace call [] with marker := call.metas.max?, returned := s.returned ++ call.durable }
    else none
  | .fail call => if call ∈ s.calls then some (s.replace call []) else none

/-- What was durable before a call that ended well is split, and the marker covers only what is split. -/
def AllSplit : Prop :=
  (∀ seq ∈ s.returned, seq ∈ s.split) ∧ ∀ seq ∈ s.durable, ∀ c ∈ s.marker, seq ≤ c → seq ∈ s.split

/-- A manifest becomes durable above the marker, and above what the calls under way have read or listed. -/
def Above : Action → Prop
  | .persist seq => ∀ c ∈ s.marker.toList ++ s.calls.flatMap Call.passed, c < seq
  | _ => True

instance (s : State) (a : Action) : Decidable (s.Above a) := by
  cases a <;> dsimp only [Above] <;> infer_instance

end State

private theorem mem_snapshotMetas {durable : List Nat} {completed : Option Nat} {seq : Nat} (hseq : seq ∈ durable)
    (hlt : ∀ c ∈ completed, c < seq) : seq ∈ snapshotMetas durable completed := by
  have hsorted := pairwise_insertionSort (· ≥ ·) durable
  rw [← mem_insertionSort (· ≥ ·)] at hseq
  unfold snapshotMetas
  generalize durable.insertionSort (· ≥ ·) = l at *
  induction l with
  | nil => cases hseq
  | cons a l ih =>
    obtain ⟨hfirst, hrest⟩ := pairwise_cons.mp hsorted
    have ha : seq ≤ a := (mem_cons.mp hseq).elim Nat.le_of_eq (hfirst seq)
    have hlisted : completed.all (· < a) = true :=
      (Option.all_eq_true _ _).mpr fun c hc => decide_eq_true ((hlt c hc).trans_le ha)
    rw [takeWhile_cons, if_pos hlisted]
    exact mem_cons.mpr ((mem_cons.mp hseq).imp_right fun hseq => ih hseq hrest)

def Call.Sound (s : State) (call : Call) : Prop :=
  (∀ seq ∈ call.durable, seq ∈ s.split ∨ seq ∈ call.pending) ∧
    ∀ seq ∈ s.durable, ∀ c ∈ call.passed, seq ≤ c → seq ∈ s.split ∨ seq ∈ call.pending

structure State.Sound (s : State) : Prop where
  allSplit : s.AllSplit
  calls : ∀ call ∈ s.calls, call.Sound s

namespace State.Sound
variable {s s' : State}

private theorem replaced (h : s.Sound) {call : Call} {calls : List Call} (hdurable : s'.durable = s.durable)
    (hsplit : s.split ⊆ s'.split) (hcalls : s'.calls = s.calls.erase call ++ calls) (hnew : ∀ c ∈ calls, c.Sound s')
    (hall : s'.AllSplit) : s'.Sound := by
  refine ⟨hall, fun c hc => (mem_append.mp (hcalls ▸ hc)).elim (fun hc => ?_) (hnew c)⟩
  obtain ⟨hlisted, hpassed⟩ := h.calls c (mem_of_mem_erase hc)
  exact ⟨fun seq hseq => (hlisted seq hseq).imp_left (hsplit ·),
    fun seq hseq m hm hle => (hpassed seq (hdurable ▸ hseq) m hm hle).imp_left (hsplit ·)⟩

theorem step {a : Action} (h : s.Sound) (habove : s.Above a) (hstep : s.step a = some s') : s'.Sound := by
  obtain ⟨hreturned, hmarker⟩ := h.allSplit
  cases a with
  | persist seq =>
    obtain ⟨-, ⟨⟩⟩ := ite_none_right_eq_some.mp hstep
    refine ⟨⟨hreturned, forall_mem_snoc.mpr ⟨hmarker, fun c hc hle => absurd hle (Nat.not_le.mpr (habove c ?_))⟩⟩,
      fun call hcall => ⟨(h.calls call hcall).1, forall_mem_snoc.mpr ⟨(h.calls call hcall).2,
        fun c hc hle => absurd hle (Nat.not_le.mpr (habove c ?_))⟩⟩⟩
    · exact mem_append_left _ (Option.mem_toList.mpr hc)
    · exact mem_append_right _ (mem_flatMap.mpr ⟨call, hcall, hc⟩)
  | start =>
    cases hstep
    refine ⟨h.allSplit,
      forall_mem_append.mpr ⟨h.calls, forall_mem_singleton.mpr ⟨by simp, fun seq hseq c hc hle => ?_⟩⟩⟩
    refine .inl (hmarker seq hseq c ?_ hle)
    simpa [Call.passed] using hc
  | list completed =>
    obtain ⟨hcall, hstep⟩ := ite_none_right_eq_some.mp hstep
    -- what is not listed is split already
    have hcovered (seq : Nat) (hseq : seq ∈ s.durable) :
        seq ∈ s.split ∨ seq ∈ snapshotMetas s.durable completed := by
      by_cases hle : ∃ c ∈ completed, seq ≤ c
      · obtain ⟨c, hc, hle⟩ := hle
        have hsplit := (h.calls _ hcall).2 seq hseq c (mem_append_left _ (Option.mem_toList.mpr hc)) hle
        exact .inl (hsplit.resolve_right not_mem_nil)
      · exact .inr (mem_snapshotMetas hseq fun c hc => Nat.lt_of_not_le fun hle' => hle ⟨c, hc, hle'⟩)
    split at hstep <;> cases hstep
    · rename_i hnil
      have hall (seq : Nat) (hseq : seq ∈ s.durable) : seq ∈ s.split :=
        (hcovered seq hseq).resolve_right (hnil ▸ not_mem_nil)
      refine h.replaced rfl (fun _ hseq => hseq) rfl (by simp) ⟨fun seq hseq => ?_, fun seq hseq _ _ _ => hall seq hseq⟩
      exact (mem_append.mp hseq).elim (hreturned seq) (hall seq)
    · refine h.replaced rfl (fun _ hseq => hseq) rfl (forall_mem_singleton.mpr ?_) h.allSplit
      exact ⟨hcovered, fun seq hseq _ _ _ => hcovered seq hseq⟩
  | split call seq =>
    obtain ⟨⟨hcall, -⟩, ⟨⟩⟩ := ite_none_right_eq_some.mp hstep
    obtain ⟨hlisted, hpassed⟩ := h.calls _ hcall
    have hmoved {seq' : Nat} (hseq : seq' ∈ s.split ∨ seq' ∈ call.pending) :
        seq' ∈ s.split ++ [seq] ∨ seq' ∈ call.pending.erase seq := by
      by_cases heq : seq' = seq
      · exact .inl (heq ▸ by simp)
      · exact hseq.imp (mem_append_left _) (mem_erase_of_ne heq).mpr
    refine h.replaced rfl (subset_append_left ..) rfl
      (forall_mem_singleton.mpr ⟨fun _ hseq => hmoved (hlisted _ hseq), ?_⟩)
      ⟨fun _ hseq => mem_append_left _ (hreturned _ hseq),
        fun _ hseq c hc hle => mem_append_left _ (hmarker _ hseq c hc hle)⟩
    exact fun _ hseq m hm hle => hmoved (hpassed _ hseq m hm hle)
  | finish call =>
    obtain ⟨⟨hcall, -, hnil⟩, ⟨⟩⟩ := ite_none_right_eq_some.mp hstep
    obtain ⟨hlisted, hpassed⟩ := h.calls _ hcall
    rw [hnil] at hlisted hpassed
    refine h.replaced rfl (fun _ hseq => hseq) rfl (by simp) ⟨fun seq hseq => ?_, fun seq hseq c hc hle => ?_⟩
    · exact (mem_append.mp hseq).elim (hreturned seq) fun hseq => (hlisted seq hseq).resolve_right not_mem_nil
    · exact (hpassed seq hseq c (mem_append_right _ (max?_eq_some_iff.mp hc).1) hle).resolve_right not_mem_nil
  | fail call =>
    obtain ⟨-, ⟨⟩⟩ := ite_none_right_eq_some.mp hstep
    exact h.replaced rfl (fun _ hseq => hseq) rfl (by simp) h.allSplit

end State.Sound

/-- Every manifest is split if it becomes durable above what the marker and the calls under way take for split. -/
theorem manifests_split_of_above {s : State} {as : List Action} (habove : Guarded State.step State.Above .new as)
    (hrun : run State.step .new as = some s) : s.AllSplit := by
  have hnew : State.new.Sound := ⟨⟨nofun, nofun⟩, nofun⟩
  exact (invariant State.Sound.step hnew habove hrun).allSplit

private def converted (seq : Nat) (completed : Option Nat) (durable : List Nat) : List Action :=
  [.persist seq, .start, .list completed, .split ⟨completed, durable, [seq], [seq]⟩ seq,
    .finish ⟨completed, durable, [seq], []⟩]

theorem two_manifests_split : ∃ s, run State.step .new (converted 1 none [1] ++ converted 2 (some 1) [1, 2]) = some s ∧
    s.marker = some 2 ∧ s.AllSplit :=
  exists_and (by decide) fun _ hrun _ => manifests_split_of_above (by decide) hrun

/-- The manifest with the lower number becomes durable after the other was split: the next call takes it for split. -/
theorem late_manifest_not_split :
    ∃ s, run State.step .new (converted 2 none [2] ++ [.persist 1, .start, .list (some 2)]) = some s ∧
      s.returned = [2, 2, 1] ∧ s.marker = some 2 ∧ s.split = [2] ∧ ¬ s.AllSplit := by
  unfold State.AllSplit
  decide

end VarveDB.SplitSnapshots
