import VarveDB.FileIndex.LogOrder
import VarveDB.FileIndex.MergeFrom

/-! A whole `sync` or `load` over a store that does not change meanwhile. -/
namespace VarveDB.FileIndexLog
open Library Runs FileIndex List Phase

def ObjectStore.loadAfter (store : ObjectStore) (after : Nat) : List FileIndexLogEntry :=
  sortBySequence (store.logs.entries.filter fun e => after < e.sequence)

def restoreFromSnapshot (store : ObjectStore) (index : FileIndex) : FileIndex :=
  store.snapshot.elim index new.restore

def sync (store : ObjectStore) (index : FileIndex) : FileIndex :=
  let entries := store.loadAfter index.sequence
  entries.foldl apply (if gap index entries then restoreFromSnapshot store index else index)

def load (store : ObjectStore) : FileIndex := sync store (store.snapshot.elim new new.restore)

/-- The call, advanced alone over an unchanging store, returns with the second index. -/
inductive Phase.Returns (snapshotInterval : Nat) (store : ObjectStore) : Phase → FileIndex → FileIndex → Prop
  | last {ph : Phase} {ix ix' : FileIndex} (h : ph.advance snapshotInterval store ix = some ⟨store, ix', none, []⟩) :
      Phase.Returns snapshotInterval store ph ix ix'
  | step {ph ph' : Phase} {ix ix' ix'' : FileIndex}
      (h : ph.advance snapshotInterval store ix = some ⟨store, ix', some ph', []⟩)
      (rest : Phase.Returns snapshotInterval store ph' ix' ix'') : Phase.Returns snapshotInterval store ph ix ix''

variable {interval p q : Nat} {store : ObjectStore} {log entries : List FileIndexLogEntry} {ix : FileIndex}

variable {e : FileIndexLogEntry} (length : Nat)

section Execution

private theorem get_sequence (he : e ∈ store.logs.entries) : store.get e.sequence = some e :=
  (find?_key_eq_some_iff store.logs.distinct).mpr ⟨he, rfl⟩

theorem applying_returns (entries : List FileIndexLogEntry) (ix : FileIndex) :
    (applying .ret entries).Returns interval store ix (entries.foldl apply ix) := by
  induction entries generalizing ix with
  | nil => exact .last rfl
  | cons e entries ih => exact .step rfl (ih (ix.apply e))

private theorem fetched_returns (got : List FileIndexLogEntry) (ix : FileIndex) :
    (fetching .ret [] got).Returns interval store ix ((sortBySequence got).foldl apply
        (if gap ix (sortBySequence got) then restoreFromSnapshot store ix else ix)) := by
  cases hgap : gap ix (sortBySequence got) with
  | false =>
    exact .step (by simp only [advance, hgap]; rfl) (applying_returns _ _)
  | true =>
    refine .step (by simp only [advance, hgap]; rfl) ?_
    cases hsnap : store.snapshot with
    | none =>
      refine .step (by simp only [advance, hsnap]; rfl) ?_
      simpa [restoreFromSnapshot, hsnap] using applying_returns _ _
    | some snapshot =>
      refine .step (by simp only [advance, hsnap]; rfl) (.step rfl (.step rfl ?_))
      simpa [restoreFromSnapshot, hsnap] using applying_returns _ _

private theorem fetching_returns (hstored : ∀ e ∈ entries, e ∈ store.logs.entries)
    (got : List FileIndexLogEntry) {ix' : FileIndex}
    (h : (fetching .ret [] (got ++ entries)).Returns interval store ix ix') :
    (fetching .ret (entries.map FileIndexLogEntry.sequence) got).Returns interval store ix ix' := by
  induction entries generalizing got with
  | nil => simpa using h
  | cons e entries ih =>
    have hget := get_sequence (hstored e (by simp))
    refine .step (by simp only [map_cons, advance, hget]; rfl) ?_
    exact ih (fun x hx => hstored x (mem_cons_of_mem _ hx)) _ (by simpa using h)

/-- `sync` is what the call does request by request. -/
theorem sync_returns (interval : Nat) (store : ObjectStore) (ix : FileIndex) :
    (listing .ret).Returns interval store ix (sync store ix) := by
  have hlist : store.listAfter ix.sequence =
      (store.logs.entries.filter fun e => ix.sequence < e.sequence).map FileIndexLogEntry.sequence := by
    rw [ObjectStore.listAfter, ObjectStore.sequences, filter_map]
    rfl
  refine .step rfl ?_
  rw [hlist]
  exact fetching_returns (fun e he => (mem_filter.mp he).1) [] (fetched_returns _ _)

/-- `load` is what the call does on a new index. -/
theorem load_returns (interval : Nat) (store : ObjectStore) : loading.Returns interval store new (load store) := by
  cases hsnap : store.snapshot with
  | none | some =>
    refine .step (by simp only [advance, hsnap]; rfl) ?_
    simpa [load, hsnap] using sync_returns interval store _

theorem Phase.Returns.unique {ph : Phase} {ix' ix'' : FileIndex} (h : ph.Returns interval store ix ix')
    (h' : ph.Returns interval store ix ix'') : ix' = ix'' := by
  induction h with
  | last hadv =>
    cases h' with
    | last hadv' => simpa [hadv] using hadv'
    | step hadv' => simp [hadv] at hadv'
  | step hadv _ ih =>
    cases h' with
    | last hadv' => simp [hadv] at hadv'
    | step hadv' rest' =>
      obtain ⟨rfl, rfl⟩ : _ = _ ∧ _ = _ := by simpa [hadv] using hadv'
      exact ih rest'

end Execution

section CatchUp

def ObjectStore.position (store : ObjectStore) : Nat := max store.snapshotSequence (store.sequences.max?.getD 0)

/-- A reader at position `p` of the log ends with what the log holds up to the store's position. -/
def CatchesUp (interval : Nat) (log : List FileIndexLogEntry) (store : ObjectStore) (p : Nat) : Prop :=
  ∃ ix, (Phase.listing .ret).Returns interval store (replay (log.take p)) ix ∧
    ix.sequence = store.position ∧ Agrees ix (replay (log.take store.position))

/-- Nothing between the reader and the stored rollup was pruned; or what the reader needs next
was, and something above it was not. -/
def ObjectStore.Recoverable (store : ObjectStore) (p : Nat) : Prop :=
  (∀ q ≤ store.snapshotSequence, p < q → q ∈ store.sequences) ∨ p + 1 ∉ store.sequences ∧ ∃ q ∈ store.sequences, p < q

structure SameShape (log log' : List FileIndexLogEntry) (store store' : ObjectStore) : Prop where
  length : log'.length = log.length
  snapshot : store'.snapshot.map FileIndexSnapshot.sequence = store.snapshot.map FileIndexSnapshot.sequence
  sequences : store'.sequences = store.sequences

theorem SameShape.snapshotSequence {log' : List FileIndexLogEntry} {store' : ObjectStore}
    (h : SameShape log log' store store') : store'.snapshotSequence = store.snapshotSequence := by
  have hsnap := h.snapshot
  unfold ObjectStore.snapshotSequence
  cases hs : store.snapshot <;> cases hs' : store'.snapshot <;> simp_all

theorem mem_loadAfter : e ∈ store.loadAfter p ↔ e ∈ store.logs ∧ p < e.sequence := by
  simp [ObjectStore.loadAfter, sortBySequence, KeyedList.mem_def]

private theorem pairwise_loadAfter (store : ObjectStore) (p : Nat) :
    (store.loadAfter p).Pairwise fun a b => a.sequence < b.sequence := by
  have hsorted : (store.loadAfter p).Pairwise fun a b => a.sequence ≤ b.sequence := by
    exact pairwise_insertionSort _ _
  have hnodup : ((store.loadAfter p).map FileIndexLogEntry.sequence).Nodup := by
    refine ((perm_insertionSort _ _).map _).nodup_iff.mpr ?_
    exact store.logs.distinct.sublist (filter_sublist.map _)
  exact (hsorted.and (pairwise_map.mp hnodup)).imp fun h => Nat.lt_of_le_of_ne h.1 h.2

/-- Entries in order that include all the log holds above a replay complete it. -/
theorem foldl_apply_covering (hlog : NumberedLog log) (hix : IsReplay log ix)
    (hsorted : entries.Pairwise fun a b => a.sequence < b.sequence) (hlogged : ∀ e ∈ entries, e ∈ log)
    (hcover : ∀ e ∈ log, ix.sequence < e.sequence → e ∈ entries) : entries.foldl apply ix = replay log := by
  induction entries generalizing ix with
  | nil =>
    have hall : log.length ≤ ix.sequence := by
      by_contra hlt
      obtain ⟨e, he, hseq⟩ := hlog.exists_mem (q := ix.sequence + 1) (by omega) (by omega)
      exact absurd (hcover e he (by omega)) (by simp)
    rw [foldl_nil, hix.2, take_of_length_le hall]
  | cons e entries ih =>
    obtain ⟨hfirst, hsorted'⟩ := pairwise_cons.mp hsorted
    have he := hlogged e (by simp)
    -- were `e` not the next entry, the next one would be listed before it
    have hnext : e.sequence ≤ ix.sequence + 1 := by
      by_contra hgt
      have hle := hlog.number_le he
      obtain ⟨x, hx, hseq⟩ := hlog.exists_mem (q := ix.sequence + 1) (by omega) (by omega)
      rcases mem_cons.mp (hcover x hx (by omega)) with rfl | hmem
      · omega
      · have := hfirst x hmem
        omega
    refine ih (hix.apply hlog he hnext) hsorted' (fun x hx => hlogged x (mem_cons_of_mem _ hx)) fun x hx hgt => ?_
    rw [sequence_apply] at hgt
    rcases mem_cons.mp (hcover x hx (by omega)) with rfl | hmem
    · omega
    · exact hmem

private theorem snapshotSequence_le (hstore : StoreOk log store) : store.snapshotSequence ≤ log.length := by
  unfold ObjectStore.snapshotSequence
  cases hsnap : store.snapshot with
  | none => exact Nat.zero_le _
  | some snapshot =>
    obtain ⟨ix, hix, rfl⟩ := hstore.rollup snapshot hsnap
    exact hix.1

/-- The position a reader should reach is the end of the log. -/
theorem position_eq_length (hlog : NumberedLog log) (hstore : StoreOk log store) : store.position = log.length := by
  have hrolled := snapshotSequence_le hstore
  have hle : store.sequences.max?.getD 0 ≤ log.length := by
    cases hmax : store.sequences.max? with
    | none => exact Nat.zero_le _
    | some q =>
      obtain ⟨e, he, hseq⟩ := mem_sequences.mp (List.max?_mem hmax)
      exact hseq ▸ hlog.number_le (hstore.logged e he)
  rcases Nat.lt_or_ge store.snapshotSequence log.length with hlt | hge
  · -- the newest entry lies above the rollup, so its object is still there
    obtain ⟨e, he, hseq⟩ := hlog.exists_mem (q := log.length) (by omega) le_rfl
    have hmem : log.length ∈ store.sequences := mem_sequences.mpr ⟨e, hstore.kept e he (by omega), hseq⟩
    have hge := le_max?_getD_of_mem (k := 0) hmem
    unfold ObjectStore.position
    omega
  · unfold ObjectStore.position
    omega

theorem gap_loadAfter (hix : ix.sequence = p) :
    gap ix (store.loadAfter p) = true ↔ p + 1 ∉ store.sequences ∧ ∃ q ∈ store.sequences, p < q := by
  have hmem {q : Nat} (hq : p < q) : q ∈ store.sequences ↔ ∃ e ∈ store.loadAfter p, e.sequence = q := by
    rw [mem_sequences]
    refine ⟨fun ⟨e, he, hseq⟩ => ⟨e, mem_loadAfter.mpr ⟨he, by omega⟩, hseq⟩, fun ⟨e, he, hseq⟩ => ?_⟩
    exact ⟨e, (mem_loadAfter.mp he).1, hseq⟩
  have hsorted := pairwise_loadAfter store p
  have habove : ∀ e ∈ store.loadAfter p, p < e.sequence := fun e he => (mem_loadAfter.mp he).2
  rw [hmem (Nat.lt_succ_self p)]
  unfold gap
  cases hentries : store.loadAfter p with
  | nil =>
    refine ⟨by simp, fun ⟨_, q, hq, hgt⟩ => ?_⟩
    obtain ⟨e, he, -⟩ := (hmem hgt).mp hq
    simp [hentries] at he
  | cons first entries =>
    have hfirst : first ∈ store.loadAfter p := by simp [hentries]
    rw [hentries] at hsorted
    simp only [List.head?_cons, decide_eq_true_eq, hix]
    constructor
    · intro hgap
      refine ⟨?_, first.sequence, (hmem (habove first hfirst)).mpr ⟨first, hfirst, rfl⟩, habove first hfirst⟩
      rintro ⟨e, he, hseq⟩
      rcases mem_cons.mp he with rfl | he
      · omega
      · have := rel_of_pairwise_cons hsorted he
        omega
    · rintro ⟨hnone, -⟩
      have := habove first hfirst
      have hne : first.sequence ≠ p + 1 := fun heq => hnone ⟨first, by simp, heq⟩
      omega

/-- From a recoverable position one `sync` replays the whole log. -/
theorem sync_eq_replay (hlog : NumberedLog log) (hstore : StoreOk log store) (hix : IsReplay log ix)
    (h : store.Recoverable ix.sequence) : sync store ix = replay log := by
  have hlogged : ∀ e ∈ store.loadAfter ix.sequence, e ∈ log := fun e he => hstore.logged e (mem_loadAfter.mp he).1
  have hsorted := pairwise_loadAfter store ix.sequence
  simp only [sync]
  by_cases hgap : gap ix (store.loadAfter ix.sequence) = true
  · obtain ⟨hpruned, q, hq, hgt⟩ := (gap_loadAfter rfl).mp hgap
    -- the reader's next entry was pruned, so the stored rollup covers it
    obtain ⟨e, he, hseq⟩ := mem_sequences.mp hq
    have hlt : ix.sequence < store.snapshotSequence := by
      by_contra hge
      have := hlog.number_le (hstore.logged e he)
      obtain ⟨x, hx, hnext⟩ := hlog.exists_mem (q := ix.sequence + 1) (by omega) (by omega)
      exact hpruned (mem_sequences.mpr ⟨x, hstore.kept x hx (by omega), hnext⟩)
    rw [if_pos hgap]
    cases hsnap : store.snapshot with
    | none => simp [ObjectStore.snapshotSequence, hsnap] at hlt
    | some snapshot =>
      obtain ⟨hreplay, hrolled⟩ := (hstore.rollup snapshot hsnap).restore
      have hposition : store.snapshotSequence = snapshot.sequence := by simp [ObjectStore.snapshotSequence, hsnap]
      simp only [restoreFromSnapshot, hsnap, elim_some]
      refine foldl_apply_covering hlog hreplay hsorted hlogged fun x hx habove => ?_
      exact mem_loadAfter.mpr ⟨hstore.kept x hx (by omega), by omega⟩
  · rw [if_neg hgap]
    refine foldl_apply_covering hlog hix hsorted hlogged fun x hx habove => mem_loadAfter.mpr ⟨?_, habove⟩
    rcases h with hall | hpruned
    · rcases Nat.lt_or_ge store.snapshotSequence x.sequence with hgt | hle
      · exact hstore.kept x hx hgt
      · obtain ⟨e, he, hseq⟩ := mem_sequences.mp (hall x.sequence hle habove)
        obtain rfl : e = x := inj_on_of_nodup_map (hlog ▸ nodup_range') (hstore.logged e he) hx hseq
        exact he
    · exact absurd ((gap_loadAfter rfl).mpr hpruned) hgap

end CatchUp

section Sample

def sampleEntry (number : Nat) : FileIndexLogEntry :=
  ⟨number, [⟨"node0", 0, number, number, [⟨number, "1.parquet", 1, 1, 0, 0, 0⟩], []⟩]⟩

def sampleFile (number : Nat) : SnapshotEntry := ⟨"node0", 0, number, ⟨number, "1.parquet", 1, 1, 0, 0, 0⟩, number⟩

def sampleLog : List FileIndexLogEntry := (List.range' 1 length).map sampleEntry

def sampleStore (store : ObjectStore) : ObjectStore where
  snapshot := store.snapshot.map fun snapshot => (replay ((sampleLog length).take snapshot.sequence)).toSnapshot
  logs := ⟨store.sequences.map sampleEntry, by
    rw [map_map]
    exact (map_id store.sequences).symm ▸ store.logs.distinct⟩

theorem numbered_sampleLog : NumberedLog (sampleLog length) := by
  rw [NumberedLog, Numbered, sampleLog, map_map, length_map, length_range']
  exact map_id _

private theorem mem_sampleLog {length : Nat} : e ∈ sampleLog length ↔ ∃ q, 1 ≤ q ∧ q ≤ length ∧ e = sampleEntry q := by
  simp only [sampleLog, mem_map, mem_range'_1]
  exact ⟨fun ⟨q, hq, he⟩ => ⟨q, by omega, by omega, he.symm⟩, fun ⟨q, hpos, hle, he⟩ => ⟨q, by omega, he.symm⟩⟩

private theorem sameShape_sample (hlog : NumberedLog log) (hstore : StoreOk log store) :
    SameShape log (sampleLog log.length) store (sampleStore log.length store) ∧
      StoreOk (sampleLog log.length) (sampleStore log.length store) := by
  have hlength : (sampleLog log.length).length = log.length := by simp [sampleLog]
  have hrolled : ∀ snapshot ∈ store.snapshot, snapshot.sequence ≤ (sampleLog log.length).length := fun snapshot hs => by
    obtain ⟨ix, hix, rfl⟩ := hstore.rollup snapshot hs
    exact hix.1.trans hlength.ge
  have hshape : SameShape log (sampleLog log.length) store (sampleStore log.length store) := by
    refine ⟨hlength, ?_, ?_⟩
    · rw [sampleStore, Option.map_map]
      refine Option.map_congr fun snapshot hs => ?_
      exact sequence_replay_take (numbered_sampleLog _) (hrolled snapshot hs)
    · rw [ObjectStore.sequences, sampleStore, map_map]
      exact map_id _
  refine ⟨hshape, fun e he => ?_, fun e he hgt => ?_, fun snapshot hs => ?_⟩
  · obtain ⟨q, hq, rfl⟩ := mem_map.mp he
    obtain ⟨kept, hkept, rfl⟩ := mem_sequences.mp hq
    have hlogged := hstore.logged kept hkept
    exact mem_sampleLog.mpr ⟨_, hlog.number_pos hlogged, hlog.number_le hlogged, rfl⟩
  · obtain ⟨q, hpos, hle, rfl⟩ := mem_sampleLog.mp he
    rw [hshape.snapshotSequence] at hgt
    obtain ⟨kept, hkept, rfl⟩ := hlog.exists_mem hpos hle
    exact mem_map_of_mem (mem_sequences.mpr ⟨kept, hstore.kept kept hkept hgt, rfl⟩)
  · obtain ⟨rolled, hsnap, rfl⟩ := map_eq_some_iff.mp hs
    exact (isReplay_take (numbered_sampleLog _) (hrolled rolled hsnap)).isRollup

/-- Every entry of the sample log leaves its file. -/
theorem files_replay_sampleLog : (replay (sampleLog length)).files.entries = (List.range' 1 length).map sampleFile := by
  induction length with
  | zero => rfl
  | succ length ih =>
    have hsplit : sampleLog (length + 1) = sampleLog length ++ [sampleEntry (length + 1)] := by
      simp [sampleLog, List.range'_concat, Nat.add_comm]
    have hposition : (replay (sampleLog length)).sequence = length := by
      simpa [sampleLog] using sequence_replay (numbered_sampleLog length)
    have hnew : ¬(sampleEntry (length + 1)).sequence ≤ (replay (sampleLog length)).sequence := by
      rw [hposition]
      exact Nat.not_succ_le_self length
    rw [hsplit, replay_append_singleton, apply, if_neg hnew]
    have hkept : (replay (sampleLog length)).files.retain (fun e =>
        !(e.inTable "node0" 0 (length + 1) && List.contains [] e.file.path)) = (replay (sampleLog length)).files :=
      KeyedList.ext (by simp)
    simp only [sampleEntry, foldl_cons, foldl_nil, applyDelta, hkept]
    rw [KeyedList.entries_insertNew_of_not_mem, ih, List.range'_concat, map_append]
    · simp [sampleFile, Nat.add_comm]
    · rw [ih]
      simp [SnapshotEntry.key, sampleFile]
      omega

end Sample

private theorem sample_misses_file {length : Nat} (hp : p ≤ length)
    (hgap : gap (replay ((sampleLog length).take p)) (store.loadAfter p) = false) (hgt : p < q) (hle : q ≤ length)
    (hpruned : q ∉ store.sequences) : sampleFile q ∈ (replay (sampleLog length)).files ∧
      sampleFile q ∉ (sync store (replay ((sampleLog length).take p))).files := by
  have hposition : (replay ((sampleLog length).take p)).sequence = p :=
    sequence_replay_take (numbered_sampleLog length) (by simpa [sampleLog] using hp)
  constructor
  · rw [KeyedList.mem_def, files_replay_sampleLog]
    exact mem_map_of_mem (mem_range'_1.mpr (by omega))
  · intro hmem
    simp only [sync, hposition, hgap, Bool.false_eq_true, if_false] at hmem
    rcases adds_of_mem_foldl_apply hmem with hmem | ⟨entry, hentry, hseq, -⟩
    · have hbound := (reachable_foldl_apply .new ((sampleLog length).take p)).addedAt_le hmem
      rw [← replay, hposition] at hbound
      exact absurd hbound (Nat.not_le.mpr hgt)
    · exact hpruned (mem_sequences.mpr ⟨entry, (mem_loadAfter.mp hentry).1, hseq⟩)

/-- A reader is caught up, whatever the log of that shape holds, exactly from a recoverable position. -/
theorem sync_catches_up_iff (interval : Nat) (hlog : NumberedLog log) (hstore : StoreOk log store) {p : Nat}
    (hp : p ≤ log.length) :
    (∀ log' store', SameShape log log' store store' → NumberedLog log' → StoreOk log' store' →
      CatchesUp interval log' store' p) ↔ store.Recoverable p := by
  constructor
  · intro h
    by_contra hnot
    obtain ⟨hshape, hstore'⟩ := sameShape_sample hlog hstore
    obtain ⟨ix, hreturns, -, hagrees⟩ := h _ _ hshape (numbered_sampleLog _) hstore'
    obtain rfl := hreturns.unique (sync_returns ..)
    simp only [ObjectStore.Recoverable, not_or, not_forall] at hnot
    obtain ⟨⟨q, hrolled, hgt, hpruned⟩, hnogap⟩ := hnot
    have hposition : (replay ((sampleLog log.length).take p)).sequence = p :=
      sequence_replay_take (numbered_sampleLog _) (by simpa [sampleLog] using hp)
    have hgap : gap (replay ((sampleLog log.length).take p)) ((sampleStore log.length store).loadAfter p) = false := by
      rw [← Bool.not_eq_true, gap_loadAfter hposition, hshape.sequences]
      exact hnogap
    obtain ⟨hmem, hmissing⟩ := sample_misses_file hp hgap hgt (hrolled.trans (snapshotSequence_le hstore))
      (hshape.sequences ▸ hpruned)
    rw [position_eq_length (numbered_sampleLog _) hstore', take_length] at hagrees
    exact hmissing ((hagrees.files _).mpr hmem)
  · intro h log' store' hshape hlog' hstore'
    have hp' : p ≤ log'.length := hshape.length ▸ hp
    have hposition := sequence_replay_take hlog' hp'
    have hrecoverable : store'.Recoverable (replay (log'.take p)).sequence := by
      rw [hposition, ObjectStore.Recoverable, hshape.snapshotSequence, hshape.sequences]
      exact h
    refine ⟨_, sync_returns .., ?_⟩
    rw [sync_eq_replay hlog' hstore' (isReplay_take hlog' hp') hrecoverable, position_eq_length hlog' hstore',
      take_length]
    exact ⟨sequence_replay hlog', fun _ => Iff.rfl, fun _ => rfl, fun _ => rfl⟩

def rolledUpTwo : List (Action Bool) :=
  calls true (.append [addsFile "a" "a/1"]) 6 ++ calls true (.append [addsFile "a" "a/2"]) 9 ++
  [.prune true 0 2 true, .prune true 0 1 true, .advance true 0] ++ calls true (.append [addsFile "a" "a/3"]) 6

theorem sync_catches_up_across_rollup :
    ∃ s, run (step 2) fresh rolledUpTwo = some s ∧ s.store.sequences = [3] ∧ s.store.snapshotSequence = 2 ∧
      ∀ log' store', SameShape s.committed log' s.store store' → NumberedLog log' → StoreOk log' store' →
        CatchesUp 2 log' store' 0 := by
  refine exists_and_and (by decide) fun s hs hsequences _ => ?_
  have hinv := invariant Invariant.step initial_fresh.invariant
    (by decide : Guarded (step 2) Safe fresh rolledUpTwo) hs
  exact (sync_catches_up_iff 2 hinv.numbered hinv.store (Nat.zero_le _)).mpr (.inr (by rw [hsequences]; decide))

def syncBehindRollup : List (Action Bool) :=
  calls true (.append [addsFile "a" "a/1"]) 9 ++ [.prune true 0 1 true, .advance true 0] ++ calls false .sync 3

def syncAmidPruning : List (Action Bool) :=
  calls true (.append [addsFile "a" "a/1"]) 6 ++ calls true (.append [⟨"a", 0, 0, 2, [], ["a/1"]⟩]) 9 ++
  [.prune true 0 2 true] ++ calls false .sync 5

/-- The first reader stays behind the rollup; the second keeps a file whose removal was pruned. -/
theorem sync_leaves_reader_stale : (∃ s, run (step 1) fresh syncBehindRollup = some s ∧ (s.nodes false).calls = [] ∧
      s.store.snapshotSequence = 1 ∧ (s.nodes false).index.sequence = 0) ∧
    ∃ s, run (step 2) fresh syncAmidPruning = some s ∧ (s.nodes false).calls = [] ∧
      s.store.snapshotSequence = 2 ∧ (s.nodes false).index.files.entries.map (·.file.path) = ["a/1"] ∧
      (replay s.committed).files.entries = [] := by
  decide

section Rollups
variable {ι : Type} [DecidableEq ι]

/-- Every committed entry above the stored rollup is still there, and a node that loads from
scratch holds the whole log. -/
structure RollupSafe (interval : Nat) (s : Cluster ι) : Prop where
  kept : ∀ e ∈ s.committed, s.store.snapshotSequence < e.sequence → e ∈ s.store.logs
  loads : Phase.loading.Returns interval s.store new (replay s.committed)

private theorem load_eq_replay (hlog : NumberedLog log) (hstore : StoreOk log store) : load store = replay log := by
  unfold load
  cases hsnap : store.snapshot with
  | none =>
    refine sync_eq_replay hlog hstore (isReplay_new log) (.inl fun q hle hgt => ?_)
    simp only [ObjectStore.snapshotSequence, hsnap, elim_none] at hle
    omega
  | some snapshot =>
    obtain ⟨hreplay, hposition⟩ := (hstore.rollup snapshot hsnap).restore
    refine sync_eq_replay hlog hstore hreplay (.inl fun q hle hgt => ?_)
    simp only [ObjectStore.snapshotSequence, hsnap, elim_some] at hle hgt
    omega

/-- In every run whose steps are all safe, rollups lose nothing in any state reached. -/
theorem rollups_lose_nothing_of_safe (interval : Nat) {s₀ s : Cluster ι} {as : List (Action ι)}
    (hinit : Initial s₀) (hsafe : Guarded (step interval) Safe s₀ as)
    (hrun : run (step interval) s₀ as = some s) : RollupSafe interval s := by
  have hinv := invariant Invariant.step hinit.invariant hsafe hrun
  exact ⟨hinv.store.kept, load_eq_replay hinv.numbered hinv.store ▸ load_returns interval s.store⟩

end Rollups

def rollupsInTurn : List (Action Bool) :=
  rolledUpTwo ++ calls false .sync 8 ++ calls false .writeSnapshot 3 ++ [.prune false 0 3 true, .advance false 0]

theorem rollups_in_turn_lose_nothing :
    ∃ s, run (step 2) fresh rollupsInTurn = some s ∧ s.store.snapshotSequence = 3 ∧ s.store.sequences = [] ∧
      RollupSafe 2 s := by
  exact exists_and_and (by decide) fun s hs _ _ => rollups_lose_nothing_of_safe 2 initial_fresh (by decide) hs

def staleRollup : List (Action Bool) :=
  calls true (.append [addsFile "a" "a/1"]) 6 ++ calls false .sync 5 ++ calls false .writeSnapshot 1 ++
  calls true (.append [addsFile "a" "a/2"]) 9 ++ [.prune true 0 1 true, .prune true 0 2 true, .advance true 0] ++
  [.advance false 0]

theorem stale_rollup_loses_entry :
    ∃ s, run (step 2) fresh staleRollup = some s ∧ s.committed.map FileIndexLogEntry.sequence = [1, 2] ∧
      s.store.snapshotSequence = 1 ∧ s.store.sequences = [] ∧ ¬RollupSafe 2 s := by
  refine exists_of_decide (fun s => s.committed.map FileIndexLogEntry.sequence = [1, 2] ∧ s.store.snapshotSequence = 1 ∧
    s.store.sequences = []) (by decide)
    fun s _ ⟨hcommitted, hrolled, hsequences⟩ => ⟨hcommitted, hrolled, hsequences, fun h => ?_⟩
  obtain ⟨e, he, hseq⟩ := mem_map.mp (hcommitted ▸ mem_cons_of_mem 1 (mem_singleton_self 2))
  have hkept := h.kept e he (by omega)
  have hmem : e.sequence ∈ s.store.sequences := mem_map_of_mem hkept
  simp [hsequences] at hmem

end VarveDB.FileIndexLog
