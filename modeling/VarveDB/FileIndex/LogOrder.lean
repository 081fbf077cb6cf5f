import VarveDB.FileIndex.Log
import VarveDB.FileIndex.Replay

/-! When the shared log is a total order. -/
namespace VarveDB.FileIndexLog
open Library Runs FileIndex List Phase

/-- Entries were committed at rising positions, and every index holds exactly
the entries committed up to its own position. -/
def TotallyOrdered {ι : Type} (s : Cluster ι) : Prop :=
  s.committed.Pairwise (fun a b => a.sequence < b.sequence) ∧
  ∀ n, (s.nodes n).index = replay (s.committed.filter fun e => e.sequence ≤ (s.nodes n).index.sequence)

structure Initial {ι : Type} (s : Cluster ι) : Prop where
  numbered : NumberedLog s.committed
  logs : s.store.logs.entries = s.committed
  snapshot : s.store.snapshot = none
  idle : ∀ n, (s.nodes n).calls = []
  position : ∀ n, ∃ p ≤ s.committed.length, (s.nodes n).index = replay (s.committed.take p)

/-- A listing has no hole; an index is reset while no other call works on it; a slot is taken above the stored rollup,
which no older one replaces. -/
def Phase.Safe (store : ObjectStore) (node : Node) : Phase → Prop
  | .listing _ => Consecutive ((store.listAfter node.index.sequence).insertionSort (· ≤ ·))
  | .resetting .. => node.calls.length = 1
  | .creating entry _ => entry.sequence ∈ store.sequences ∨ store.snapshotSequence < entry.sequence
  | .putting snapshot => store.snapshotSequence ≤ snapshot.sequence
  | _ => True

instance (store : ObjectStore) (node : Node) (ph : Phase) : Decidable (ph.Safe store node) := by
  cases ph <;> dsimp only [Phase.Safe] <;> infer_instance

variable {ι : Type}

/-- The condition on a step: no call starts on an index that is being reset, and a
call that advances is in none of the four unsafe situations. -/
def Safe (s : Cluster ι) : Action ι → Prop
  | .start n _ => ∀ ph ∈ (s.nodes n).calls, ph.isRefilling = false
  | .advance n i => ∀ ph ∈ (s.nodes n).calls[i]?, ph.Safe s.store (s.nodes n)
  | _ => True

instance (s : Cluster ι) (a : Action ι) : Decidable (Safe s a) := by
  cases a <;> dsimp only [Safe] <;> infer_instance

structure StoreOk (log : List FileIndexLogEntry) (store : ObjectStore) : Prop where
  logged : ∀ e ∈ store.logs, e ∈ log
  kept : ∀ e ∈ log, store.snapshotSequence < e.sequence → e ∈ store.logs
  rollup : ∀ snapshot ∈ store.snapshot, IsRollup log snapshot

def PhaseOk (log : List FileIndexLogEntry) (rolled : Nat) (ix : FileIndex) : Phase → Prop
  | .loading => ix = new
  | .fetching _ todo got => (∀ e ∈ got, e ∈ log) ∧ ∃ l : List Nat,
      l.Perm (todo ++ got.map FileIndexLogEntry.sequence) ∧ Consecutive l ∧
      ∀ first ∈ l.head?, first ≤ max rolled ix.sequence + 1
  | .restoring _ entries => IsStretch log entries (rolled + 1)
  | .resetting _ entries snapshot => IsRollup log snapshot ∧ IsStretch log entries (snapshot.sequence + 1)
  | .refilling _ entries snapshot =>
      ix = new ∧ IsRollup log snapshot ∧ IsStretch log entries (snapshot.sequence + 1)
  | .applying _ entries => IsStretch log entries (ix.sequence + 1)
  | .creating entry _ => entry.sequence ≤ ix.sequence + 1
  | .created entry => entry ∈ log ∧ entry.sequence ≤ ix.sequence + 1
  | .putting snapshot => IsRollup log snapshot
  | .pruning through => through ≤ rolled
  | .deleting doomed => ∀ q ∈ doomed, q ≤ rolled
  | .listing _ | .rollupDue | .rolling => True

structure NodeOk (log : List FileIndexLogEntry) (rolled : Nat) (node : Node) : Prop where
  replayed : IsReplay log node.index
  calls : ∀ ph ∈ node.calls, PhaseOk log rolled node.index ph
  alone : ∀ ph ∈ node.calls, ph.exclusive = true → node.calls.length = 1

structure Invariant (s : Cluster ι) : Prop where
  numbered : NumberedLog s.committed
  store : StoreOk s.committed s.store
  nodes : ∀ n, NodeOk s.committed s.store.snapshotSequence (s.nodes n)

variable {log log' : List FileIndexLogEntry} {store : ObjectStore} {ix ix' : FileIndex} {rolled rolled' : Nat}
  {s : Cluster ι}

theorem Initial.invariant (h : Initial s) : Invariant s where
  numbered := h.numbered
  store := by
    refine ⟨fun e he => ?_, fun e he _ => ?_, fun snapshot hs => ?_⟩
    · exact h.logs ▸ he
    · exact KeyedList.mem_def.mpr (h.logs.symm ▸ he)
    · rw [h.snapshot] at hs
      exact absurd hs (by simp)
  nodes n := by
    obtain ⟨p, hp, hix⟩ := h.position n
    refine ⟨hix ▸ isReplay_take h.numbered hp, ?_, ?_⟩ <;> simp [h.idle n]

private theorem Invariant.totallyOrdered (h : Invariant s) : TotallyOrdered s := by
  refine ⟨h.numbered.pairwise, fun n => ?_⟩
  rw [h.numbered.filter_le]
  exact (h.nodes n).replayed.2

variable {ph : Phase}

/-- A call keeps what it relies on while the log grows, the rollup advances and its index
does not fall back; a call that has emptied the index needs it untouched. -/
theorem PhaseOk.mono (h : PhaseOk log rolled ix ph) (hlog : log <+: log')
    (hrolled : rolled ≤ rolled') (hix : ix' = ix ∨ ph.exclusive = false ∧ ix.sequence ≤ ix'.sequence) :
    PhaseOk log' rolled' ix' ph := by
  have hseq : ix.sequence ≤ ix'.sequence := by
    rcases hix with rfl | ⟨_, hle⟩
    · exact le_rfl
    · exact hle
  cases ph with
  | loading => exact (hix.resolve_right (by simp [exclusive])).trans h
  | fetching k todo got =>
    obtain ⟨hgot, l, hperm, hcons, hhead⟩ := h
    refine ⟨fun e he => hlog.subset (hgot e he), l, hperm, hcons, fun first hf => ?_⟩
    exact (hhead first hf).trans (by omega)
  | restoring | applying => exact IsStretch.mono h hlog (by omega)
  | resetting k entries snapshot => exact ⟨h.1.mono hlog, h.2.mono hlog le_rfl⟩
  | refilling k entries snapshot =>
    exact ⟨(hix.resolve_right (by simp [exclusive])).trans h.1, h.2.1.mono hlog,
      h.2.2.mono hlog le_rfl⟩
  | creating entry attempt => exact Nat.le_trans h (by omega)
  | created entry => exact ⟨hlog.subset h.1, h.2.trans (by omega)⟩
  | putting snapshot => exact IsRollup.mono h hlog
  | pruning through => exact Nat.le_trans h hrolled
  | deleting doomed => exact fun q hq => (h q hq).trans hrolled
  | listing | rollupDue | rolling => trivial

private structure Progress (log : List FileIndexLogEntry) (store : ObjectStore) (ix : FileIndex)
    (resets : Prop) (o : Outcome) : Prop where
  numbered : NumberedLog (log ++ o.committed)
  storeOk : StoreOk (log ++ o.committed) o.store
  rolled : store.snapshotSequence ≤ o.store.snapshotSequence
  replayed : IsReplay (log ++ o.committed) o.index
  next : ∀ ph ∈ o.next, PhaseOk (log ++ o.committed) o.store.snapshotSequence o.index ph
  forward : resets ∨ ix.sequence ≤ o.index.sequence ∧ ∀ ph ∈ o.next, ph.exclusive = false

variable {next : Option Phase} {node : Node}

theorem Progress.quiet {resets : Prop} (hlog : NumberedLog log) (hstore : StoreOk log store) (hix : IsReplay log ix')
    (hnext : ∀ ph ∈ next, PhaseOk log store.snapshotSequence ix' ph)
    (hforward : resets ∨ ix.sequence ≤ ix'.sequence ∧ ∀ ph ∈ next, ph.exclusive = false) :
    Progress log store ix resets ⟨store, ix', next, []⟩ := by
  refine ⟨?_, ?_, le_rfl, ?_, ?_, hforward⟩ <;> simpa using by assumption

variable {q start : Nat} {l : List Nat}

theorem mem_sequences : q ∈ store.sequences ↔ ∃ e ∈ store.logs, e.sequence = q := by
  simp [ObjectStore.sequences, KeyedList.mem_def]

private theorem kept_sequence (hlog : NumberedLog log) (hstore : StoreOk log store)
    (hpos : store.snapshotSequence < q) (hle : q ≤ log.length) : q ∈ store.sequences := by
  obtain ⟨e, he, rfl⟩ := hlog.exists_mem (by omega) hle
  exact mem_sequences.mpr ⟨e, hstore.kept e he hpos, rfl⟩

/-- The oldest surviving entry above a reader follows the rollup or the reader's own position. -/
theorem listing_head (hlog : NumberedLog log) (hstore : StoreOk log store)
    (hperm : l.Perm (store.listAfter ix.sequence))
    (hcons : Consecutive l) : ∀ first ∈ l.head?, first ≤ max store.snapshotSequence ix.sequence + 1 := by
  cases l with
  | nil => simp
  | cons first rest =>
    rintro _ ⟨⟩
    by_contra hlt
    have hfirst := hperm.subset (mem_cons_self (a := first) (l := rest))
    obtain ⟨e, he, rfl⟩ := mem_sequences.mp (mem_filter.mp hfirst).1
    have hlen := hlog.number_le (hstore.logged e he)
    have hmem := kept_sequence hlog hstore (q := max store.snapshotSequence ix.sequence + 1) (by omega) (by omega)
    have hlist : max store.snapshotSequence ix.sequence + 1 ∈ store.listAfter ix.sequence :=
      mem_filter.mpr ⟨hmem, by simp only [decide_eq_true_eq]; omega⟩
    have := hcons.head_le (hperm.symm.subset hlist)
    omega

variable {got : List FileIndexLogEntry}

private theorem map_sortBySequence (hperm : l.Perm (got.map FileIndexLogEntry.sequence)) (hcons : Consecutive l) :
    (sortBySequence got).map FileIndexLogEntry.sequence = l := by
  have hsort := got.perm_insertionSort fun a b => a.sequence ≤ b.sequence
  have hsorted : ((sortBySequence got).map FileIndexLogEntry.sequence).Pairwise (· ≤ ·) :=
    pairwise_map.mpr (pairwise_insertionSort (fun a b => a.sequence ≤ b.sequence) got)
  exact ((hsort.map _).trans hperm.symm).eq_of_pairwise' hsorted (hcons.pairwise.imp Nat.le_of_lt)

private theorem fetched_stretch {k : AfterSync} (h : PhaseOk log rolled ix (.fetching k [] got)) :
    IsStretch log (sortBySequence got) (max rolled ix.sequence + 1) := by
  obtain ⟨hgot, l, hperm, hcons, hhead⟩ := h
  have hmap := map_sortBySequence hperm hcons
  refine ⟨fun e he => hgot e ((perm_insertionSort _ got).subset he), hmap ▸ hcons, fun e he => ?_⟩
  exact hhead _ (by rw [← hmap, List.head?_map, Option.mem_def.mp he]; rfl)

variable {entries : List FileIndexLogEntry}

private theorem IsStretch.of_gap
    (h : IsStretch log entries (max start ix.sequence + 1)) (hgap : gap ix entries = true) :
    IsStretch log entries (start + 1) := by
  refine ⟨h.logged, h.consecutive, fun e he => ?_⟩
  have hle := h.head_le e he
  have hlt : ix.sequence + 1 < e.sequence := by simpa [gap, Option.mem_def.mp he] using hgap
  omega

private theorem IsStretch.of_no_gap (h : IsStretch log entries start) (hgap : ¬ gap ix entries = true) :
    IsStretch log entries (ix.sequence + 1) := by
  refine ⟨h.logged, h.consecutive, fun e he => ?_⟩
  simpa [gap, Option.mem_def.mp he] using hgap

variable {entry : FileIndexLogEntry} {snapshot : FileIndexSnapshot}

/-- A free slot above the rollup that some index points at is the one after the last commit. -/
theorem free_slot (hlog : NumberedLog log) (hstore : StoreOk log store) (hix : IsReplay log ix)
    (hle : entry.sequence ≤ ix.sequence + 1)
    (hfree : entry.sequence ∉ store.sequences) (habove : store.snapshotSequence < entry.sequence) :
    entry.sequence = log.length + 1 := by
  by_contra hne
  have := hix.1
  exact hfree (kept_sequence hlog hstore habove (by omega))

theorem create_ok (hstore : StoreOk log store)
    (hfree : entry.sequence ∉ store.sequences) : StoreOk (log ++ [entry]) (store.create entry) := by
  have hmem (e : FileIndexLogEntry) : e ∈ (store.create entry).logs ↔ e ∈ store.logs ∨ e = entry := by
    rw [ObjectStore.create, KeyedList.mem_insertNew]
    exact or_congr_right (and_iff_left hfree)
  refine ⟨fun e he => ?_, fun e he habove => (hmem e).mpr ?_, fun snapshot hs => ?_⟩
  · rcases (hmem e).mp he with he | rfl
    · exact mem_append_left _ (hstore.logged e he)
    · simp
  · rcases mem_snoc.mp he with he | he
    · exact .inl (hstore.kept e he habove)
    · exact .inr he
  · exact (hstore.rollup snapshot hs).mono (prefix_append ..)

theorem put_ok (hstore : StoreOk log store)
    (hroll : IsRollup log snapshot) (hsafe : store.snapshotSequence ≤ snapshot.sequence) :
    StoreOk log { store with snapshot := some snapshot } := by
  refine ⟨hstore.logged, fun e he habove => hstore.kept e he (Nat.lt_of_le_of_lt hsafe habove), ?_⟩
  rintro _ ⟨⟩
  exact hroll

private def Advances (log : List FileIndexLogEntry) (interval : Nat) (store : ObjectStore) (node : Node)
    (ph : Phase) : Prop :=
  ∀ o, ph.advance interval store node.index = some o → Progress log store node.index (node.calls.length = 1) o

section Advance
variable {interval : Nat} {node : Node} (hlog : NumberedLog log) (hstore : StoreOk log store)
include hlog hstore

private theorem loading_progress (hph : PhaseOk log store.snapshotSequence node.index .loading) :
    Advances log interval store node .loading := by
  intro o hadv
  have hnew : node.index = new := hph
  rw [advance, hnew] at hadv
  cases hs : store.snapshot with
  | none =>
    rw [hs] at hadv
    cases hadv
    exact .quiet hlog hstore (isReplay_new _) (by simp [PhaseOk]) (.inr (by simp [hnew, exclusive]))
  | some snapshot =>
    rw [hs] at hadv
    cases hadv
    exact .quiet hlog hstore (hstore.rollup snapshot hs).restore.1 (by simp [PhaseOk])
      (.inr (by simp [hnew, exclusive]))

variable (hix : IsReplay log node.index)
include hix

theorem stays (hph : PhaseOk log store.snapshotSequence node.index ph) (hshared : ph.exclusive = false) :
    Progress log store node.index (node.calls.length = 1) ⟨store, node.index, some ph, []⟩ := by
  refine .quiet hlog hstore hix ?_ (.inr ⟨le_rfl, by simpa using hshared⟩)
  rintro _ ⟨⟩
  exact hph

variable {k : AfterSync}

private theorem listing_progress (hsafe : (listing k).Safe store node) :
    Advances log interval store node (.listing k) := by
  rintro _ ⟨⟩
  refine stays hlog hstore hix ?_ rfl
  have hperm := (store.listAfter node.index.sequence).perm_insertionSort (· ≤ ·)
  exact ⟨by simp, _, by simpa using hperm, hsafe, listing_head hlog hstore hperm hsafe⟩

private theorem fetch_progress {todo : List Nat}
    (hph : PhaseOk log store.snapshotSequence node.index (.fetching k (q :: todo) got)) :
    Advances log interval store node (.fetching k (q :: todo) got) := by
  intro o hadv
  rw [advance] at hadv
  cases hget : store.get q with
  | none =>
    rw [hget] at hadv
    cases hadv
    exact .quiet hlog hstore hix (by simp) (.inr ⟨le_rfl, by simp⟩)
  | some entry =>
    rw [hget] at hadv
    cases hadv
    refine stays hlog hstore hix ?_ rfl
    obtain ⟨hgot, l, hperm, hcons, hhead⟩ := hph
    have hentry : entry ∈ log := hstore.logged entry (mem_of_find?_eq_some hget)
    have hq : entry.sequence = q := by simpa using List.find?_some hget
    refine ⟨?_, l, hperm.trans ?_, hcons, hhead⟩
    · exact forall_mem_snoc.mpr ⟨hgot, hentry⟩
    · rw [map_append, map_singleton, hq, ← append_assoc]
      exact (perm_append_singleton q _).symm

private theorem fetched_progress (hph : PhaseOk log store.snapshotSequence node.index (.fetching k [] got)) :
    Advances log interval store node (.fetching k [] got) := by
  intro o hadv
  have hstretch := fetched_stretch hph
  simp only [advance] at hadv
  split at hadv
  · next hgap =>
    cases hadv
    exact stays hlog hstore hix (IsStretch.of_gap hstretch hgap) rfl
  · next hgap =>
    cases hadv
    exact stays hlog hstore hix (IsStretch.of_no_gap hstretch hgap) rfl

private theorem restoring_progress (hstretch : IsStretch log entries (store.snapshotSequence + 1)) :
    Advances log interval store node (.restoring k entries) := by
  intro o hadv
  rw [advance] at hadv
  cases hs : store.snapshot with
  | none =>
    rw [hs] at hadv
    cases hadv
    refine stays hlog hstore hix ?_ rfl
    exact hstretch.mono (prefix_refl _) (by simp [ObjectStore.snapshotSequence, hs])
  | some snapshot =>
    rw [hs] at hadv
    cases hadv
    refine stays hlog hstore hix ?_ rfl
    exact ⟨hstore.rollup snapshot hs, by simpa [ObjectStore.snapshotSequence, hs] using hstretch⟩

private theorem apply_progress (hstretch : IsStretch log (entry :: entries) (node.index.sequence + 1)) :
    Advances log interval store node (.applying k (entry :: entries)) := by
  rintro _ ⟨⟩
  have hseq := sequence_apply node.index entry
  refine .quiet hlog hstore (hix.apply hlog (hstretch.logged entry (by simp))
    (hstretch.head_le entry rfl)) ?_ (.inr ⟨by omega, by simp [exclusive]⟩)
  rintro _ ⟨⟩
  exact hstretch.tail.mono (prefix_refl _) (by omega)

private theorem creating_progress {attempt : Nat}
    (hph : entry.sequence ≤ node.index.sequence + 1) (hsafe : (creating entry attempt).Safe store node) :
    Advances log interval store node (.creating entry attempt) := by
  intro o hadv
  rw [advance] at hadv
  split at hadv
  · split at hadv <;> cases hadv <;>
      exact .quiet hlog hstore hix (by simp [PhaseOk]) (.inr ⟨le_rfl, by simp [exclusive]⟩)
  · next hfree =>
    cases hadv
    have hlast := free_slot hlog hstore hix hph hfree (hsafe.resolve_left hfree)
    refine ⟨hlog.append_singleton hlast, create_ok hstore hfree, le_rfl,
      hix.mono (prefix_append ..), ?_, .inr ⟨le_rfl, by simp [exclusive]⟩⟩
    rintro _ ⟨⟩
    exact ⟨by simp, hph⟩

private theorem putting_progress (hph : IsRollup log snapshot) (hsafe : store.snapshotSequence ≤ snapshot.sequence) :
    Advances log interval store node (.putting snapshot) := by
  rintro _ ⟨⟩
  refine ⟨by simpa using hlog, by simpa using put_ok hstore hph hsafe, hsafe, by simpa using hix, ?_,
    .inr ⟨le_rfl, by simp [exclusive]⟩⟩
  rintro _ ⟨⟩
  exact le_rfl

private theorem advance_progress (hph : PhaseOk log store.snapshotSequence node.index ph)
    (hsafe : ph.Safe store node) (hadv : ph.advance interval store node.index = some o) :
    Progress log store node.index (node.calls.length = 1) o := by
  have hle := Nat.le_refl node.index.sequence
  cases ph with
  | loading => exact loading_progress hlog hstore hph o hadv
  | listing k => exact listing_progress hlog hstore hix hsafe o hadv
  | fetching k todo got =>
    cases todo with
    | nil => exact fetched_progress hlog hstore hix hph o hadv
    | cons q todo => exact fetch_progress hlog hstore hix hph o hadv
  | restoring k entries => exact restoring_progress hlog hstore hix hph o hadv
  | resetting k entries snapshot =>
    cases hadv
    refine .quiet hlog hstore (isReplay_new _) ?_ (.inl hsafe)
    rintro _ ⟨⟩
    exact ⟨rfl, hph⟩
  | refilling k entries snapshot =>
    obtain ⟨hnew, hroll, hstretch⟩ := hph
    rw [advance, hnew] at hadv
    cases hadv
    refine .quiet hlog hstore hroll.restore.1 ?_ (.inr (by simp [hnew, exclusive]))
    rintro _ ⟨⟩
    exact hstretch.mono (prefix_refl _) (by rw [hroll.restore.2])
  | applying k entries =>
    cases entries with
    | nil =>
      cases hadv
      refine .quiet hlog hstore hix ?_ (.inr ⟨hle, ?_⟩) <;>
        cases k <;> simp [afterSync, PhaseOk, exclusive]
    | cons entry entries => exact apply_progress hlog hstore hix hph o hadv
  | creating entry attempt => exact creating_progress hlog hstore hix hph hsafe o hadv
  | created entry =>
    cases hadv
    have hseq := sequence_apply node.index entry
    exact .quiet hlog hstore (hix.apply hlog hph.1 hph.2) (by simp [PhaseOk])
      (.inr ⟨by omega, by simp [exclusive]⟩)
  | rollupDue =>
    rw [advance] at hadv
    split at hadv <;> cases hadv <;>
      exact .quiet hlog hstore hix (by simp [PhaseOk]) (.inr ⟨hle, by simp [exclusive]⟩)
  | rolling =>
    cases hadv
    exact stays hlog hstore hix hix.isRollup rfl
  | putting snapshot => exact putting_progress hlog hstore hix hph hsafe o hadv
  | pruning through =>
    cases hadv
    refine .quiet hlog hstore hix ?_ (.inr ⟨hle, by simp [exclusive]⟩)
    rintro _ ⟨⟩
    intro q hq
    exact Nat.le_trans (by simpa using (mem_filter.mp hq).2) hph
  | deleting doomed =>
    cases doomed with
    | nil =>
      cases hadv
      exact .quiet hlog hstore hix (by simp) (.inr ⟨hle, by simp⟩)
    | cons q doomed => simp [advance] at hadv

end Advance

variable {i : Nat}

private theorem mem_resume (h : ph ∈ (node.resume i ix next).calls) : ph ∈ node.calls ∨ ph ∈ next := by
  cases next with
  | none => exact .inl (mem_of_mem_eraseIdx h)
  | some ph' =>
    rcases mem_or_eq_of_mem_set h with hold | rfl
    · exact .inl hold
    · exact .inr rfl

private theorem resume_single (hlen : node.calls.length = 1) (hi : i < node.calls.length) :
    (node.resume i ix next).calls = next.toList := by
  obtain ⟨ph, hph⟩ := length_eq_one_iff.mp hlen
  obtain rfl : i = 0 := by omega
  cases next <;> simp [Node.resume, hph]

theorem resume_index : (node.resume i ix next).index = ix := by
  cases next <;> rfl

private theorem dropped_ok (h : NodeOk log rolled node) (hi : i < node.calls.length) :
    NodeOk log rolled (node.resume i node.index none) := by
  refine ⟨h.replayed, fun ph hph => h.calls ph (mem_of_mem_eraseIdx hph), fun ph hph hex => ?_⟩
  have hlen := h.alone ph (mem_of_mem_eraseIdx hph) hex
  rw [resume_single hlen hi] at hph
  exact absurd hph (by simp)

private theorem resumed_ok {o : Outcome} (h : NodeOk log store.snapshotSequence node) (hi : i < node.calls.length)
    (hp : Progress log store node.index (node.calls.length = 1) o) :
    NodeOk (log ++ o.committed) o.store.snapshotSequence (node.resume i o.index o.next) := by
  by_cases hone : node.calls.length = 1
  · have hcalls : (node.resume i o.index o.next).calls = o.next.toList := resume_single hone hi
    refine ⟨resume_index ▸ hp.replayed, fun ph hph => ?_, fun ph hph _ => ?_⟩
    · rw [hcalls, Option.mem_toList] at hph
      rw [resume_index]
      exact hp.next ph hph
    · rw [hcalls, Option.mem_toList] at hph
      rw [hcalls, Option.mem_def.mp hph]
      rfl
  · obtain ⟨hseq, hnext⟩ := hp.forward.resolve_left hone
    have hshared (ph : Phase) (hph : ph ∈ node.calls) : ph.exclusive = false := by
      by_contra hex
      exact hone (h.alone ph hph (by simpa using hex))
    refine ⟨resume_index ▸ hp.replayed, fun ph hph => ?_, fun ph hph hex => ?_⟩
    · rw [resume_index]
      rcases mem_resume hph with hold | hnew
      · exact (h.calls ph hold).mono (prefix_append ..) hp.rolled (.inr ⟨hshared ph hold, hseq⟩)
      · exact hp.next ph hnew
    · rcases mem_resume hph with hold | hnew
      · simp [hshared ph hold] at hex
      · simp [hnext ph hnew] at hex

private theorem started_ok {call : Call} (h : NodeOk log rolled node) (hstart : node.canStart call = true)
    (hsafe : ∀ ph ∈ node.calls, ph.isRefilling = false) :
    NodeOk log rolled { node with calls := node.calls ++ call.first.toList } := by
  have hshared (hcall : call ≠ .load) (ph : Phase) (hph : ph ∈ node.calls) : ph.exclusive = false := by
    have := hsafe ph hph
    cases call with
    | load => exact absurd rfl hcall
    | _ =>
      have := all_eq_true.mp hstart ph hph
      cases ph <;> simp_all [exclusive, isRefilling]
  have hidle (hcall : call = .load) : node.index = new ∧ node.calls = [] := by
    simpa [hcall, Node.canStart] using hstart
  refine ⟨h.replayed, fun ph hph => ?_, fun ph hph hex => ?_⟩
  · rcases mem_append.mp hph with hold | hnew
    · exact h.calls ph hold
    · rcases call with _ | _ | (_ | ⟨delta, deltas⟩) | _ <;> simp [Call.first] at hnew <;>
        subst hnew <;> first | exact (hidle rfl).1 | trivial
  · by_cases hcall : call = .load
    · simp [(hidle hcall).2, hcall, Call.first]
    · rcases mem_append.mp hph with hold | hnew
      · simp [hshared hcall ph hold] at hex
      · rcases call with _ | _ | (_ | ⟨delta, deltas⟩) | _ <;> simp [Call.first] at hnew <;>
          subst hnew <;> first | exact absurd rfl hcall | simp [exclusive] at hex

private theorem delete_ok (hstore : StoreOk log store) (hq : q ≤ store.snapshotSequence) :
    StoreOk log (store.delete q) := by
  have hmem (e : FileIndexLogEntry) : e ∈ (store.delete q).logs ↔ e ∈ store.logs ∧ e.sequence ≠ q := by
    simp [ObjectStore.delete]
  refine ⟨fun e he => hstore.logged e ((hmem e).mp he).1, fun e he habove => (hmem e).mpr ?_, hstore.rollup⟩
  have habove' : store.snapshotSequence < e.sequence := habove
  exact ⟨hstore.kept e he habove', by omega⟩

private theorem prune_progress (hlog : NumberedLog log) (hstore : StoreOk log store) (hix : IsReplay log node.index)
    {doomed : List Nat} (hdoomed : ∀ q ∈ doomed, q ≤ store.snapshotSequence) (hq : q ∈ doomed) (deleted : Bool) :
    Progress log store node.index (node.calls.length = 1) ⟨if deleted then store.delete q else store,
      node.index, some (.deleting (doomed.erase q)), []⟩ := by
  have hrest : ∀ p ∈ doomed.erase q, p ≤ store.snapshotSequence := fun p hp =>
    hdoomed p (mem_of_mem_erase hp)
  cases deleted with
  | false =>
    exact .quiet hlog hstore hix (by simpa [PhaseOk] using hrest) (.inr (by simp [exclusive]))
  | true =>
    refine ⟨by simpa using hlog, by simpa using delete_ok hstore (hdoomed q hq), le_rfl,
      by simpa using hix, ?_, .inr (by simp [exclusive])⟩
    rintro _ ⟨⟩
    exact hrest

variable [DecidableEq ι]

theorem nodes_update {n : ι} (h : ∀ m, NodeOk log rolled (s.nodes m)) (hlog : log <+: log')
    (hrolled : rolled ≤ rolled') (hnode : NodeOk log' rolled' node) :
    ∀ m, NodeOk log' rolled' (Function.update s.nodes n node m) := by
  intro m
  by_cases hm : m = n
  · subst hm
    simpa using hnode
  · rw [Function.update_of_ne hm]
    exact ⟨(h m).replayed.mono hlog, fun ph hph => ((h m).calls ph hph).mono hlog hrolled (.inl rfl), (h m).alone⟩

/-- A safe step keeps the invariant. -/
theorem Invariant.step {interval : Nat} {s' : Cluster ι} {a : Action ι} (h : Invariant s)
    (hsafe : Safe s a) (hstep : step interval s a = some s') : Invariant s' := by
  have hself : s.committed <+: s.committed := prefix_refl _
  cases a with
  | start n call =>
    obtain ⟨hstart, ⟨⟩⟩ := ite_none_right_eq_some.mp hstep
    exact ⟨h.numbered, h.store, nodes_update h.nodes hself le_rfl
    (started_ok (h.nodes n) hstart hsafe)⟩
  | advance n i =>
    simp only [FileIndexLog.step, bind_eq_bind, bind_eq_some_iff] at hstep
    obtain ⟨ph, hph, o, hadv, hs'⟩ := hstep
    cases hs'
    obtain ⟨hi, hget⟩ := List.getElem?_eq_some_iff.mp hph
    have hmem : ph ∈ (s.nodes n).calls := hget ▸ getElem_mem hi
    have hp := advance_progress h.numbered h.store (h.nodes n).replayed ((h.nodes n).calls ph hmem)
      (hsafe ph hph) hadv
    exact ⟨hp.numbered, hp.storeOk, nodes_update h.nodes (prefix_append ..) hp.rolled (resumed_ok (h.nodes n) hi hp)⟩
  | prune n i q deleted =>
    rw [FileIndexLog.step] at hstep
    split at hstep
    · next doomed hph =>
      obtain ⟨hq, ⟨⟩⟩ := ite_none_right_eq_some.mp hstep
      obtain ⟨hi, hget⟩ := List.getElem?_eq_some_iff.mp hph
      have hdoomed : ∀ q ∈ doomed, q ≤ s.store.snapshotSequence :=
      (h.nodes n).calls (.deleting doomed) (hget ▸ getElem_mem hi)
      have hp := prune_progress h.numbered h.store (h.nodes n).replayed hdoomed hq deleted
      have hnode := resumed_ok (h.nodes n) hi hp
      refine ⟨h.numbered, by simpa using hp.storeOk, nodes_update h.nodes hself hp.rolled ?_⟩
      simpa using hnode
    · cases hstep
  | fail n i =>
    obtain ⟨hi, ⟨⟩⟩ := ite_none_right_eq_some.mp hstep
    exact ⟨h.numbered, h.store, nodes_update h.nodes hself le_rfl (dropped_ok (h.nodes n) hi)⟩
  | crash n =>
    cases hstep
    exact ⟨h.numbered, h.store, nodes_update h.nodes hself le_rfl ⟨isReplay_new _, by simp, by simp⟩⟩

/-- In every run whose steps are all safe, the log is a total order in every state reached. -/
theorem totally_ordered_of_safe (interval : Nat) {s₀ s : Cluster ι} {as : List (Action ι)}
    (hinit : Initial s₀) (hsafe : Guarded (step interval) Safe s₀ as)
    (hrun : run (step interval) s₀ as = some s) : TotallyOrdered s :=
  (invariant Invariant.step hinit.invariant hsafe hrun).totallyOrdered

def fresh : Cluster Bool := ⟨.empty, fun _ => ⟨new, []⟩, []⟩

theorem initial_fresh : Initial fresh :=
  ⟨.nil, rfl, rfl, fun _ => rfl, fun _ => ⟨0, le_rfl, rfl⟩⟩

def addsFile (nodeId path : String) : FileIndexDelta := ⟨nodeId, 0, 0, 1, [⟨1, path, 1, 1, 0, 0, 0⟩], []⟩

def calls (n : Bool) (call : Call) (steps : Nat) : List (Action Bool) :=
  .start n call :: List.replicate steps (.advance n 0)

def rollupThenSync : List (Action Bool) :=
  calls true (.append [addsFile "a" "a/1"]) 6 ++ calls true (.append [addsFile "a" "a/2"]) 9 ++
  [.prune true 0 2 true, .prune true 0 1 true, .advance true 0] ++
  calls true (.append [addsFile "a" "a/3"]) 6 ++ calls false .sync 8

theorem rollup_then_sync_totally_ordered :
    ∃ s, run (step 2) fresh rollupThenSync = some s ∧ (s.nodes false).index.sequence = 3 ∧ TotallyOrdered s := by
  exact exists_and (by decide) fun s hs _ => totally_ordered_of_safe 2 initial_fresh (by decide) hs

def appendBehindRollup : List (Action Bool) :=
  calls true (.append [addsFile "a" "a/1"]) 9 ++ [.prune true 0 1 true, .advance true 0] ++
  calls false (.append [addsFile "b" "b/1"]) 6

theorem append_behind_rollup_reuses_sequence : Initial fresh ∧ ∃ s, run (step 1) fresh appendBehindRollup = some s ∧
      s.committed.map FileIndexLogEntry.sequence = [1, 1] ∧ ¬ TotallyOrdered s := by
  refine ⟨initial_fresh, ?_⟩
  refine exists_of_decide (fun s => s.committed.map FileIndexLogEntry.sequence = [1, 1]) (by decide)
    fun s _ hseq => ⟨hseq, fun h => ?_⟩
  have hpair := pairwise_map.mpr h.1
  rw [hseq] at hpair
  simp at hpair

end VarveDB.FileIndexLog
