import VarveDB.FileIndex.Published

/-! When every manifest reaches the shared log, and once. -/
namespace VarveDB.Publisher
open Library Runs FileIndex List

def deltaKey (d : FileIndexDelta) : Nat × Nat × Nat := (d.snapshotSequence, d.dbId, d.tableId)

def Carries (log : List FileIndexLogEntry) (m : PersistedSnapshot) : Prop := ∀ k,
  (∀ f ∈ m.addedTo k, ∃ d ∈ ownDeltas m.nodeId log, (d.dbId, d.tableId) = k ∧
    d.snapshotSequence = m.snapshotSequenceNumber ∧ f ∈ d.added) ∧
  ∀ f ∈ m.removedFrom k, ∃ d ∈ ownDeltas m.nodeId log, (d.dbId, d.tableId) = k ∧
    d.snapshotSequence = m.snapshotSequenceNumber ∧ f.path ∈ d.removed

/-- After a pass that no manifest write overlapped the log carries every manifest ever written, and at all
times no table of a manifest has been appended twice. -/
def PublishedOnce (s : State) : Prop :=
  (s.drained = true → ∀ m ∈ s.written, Carries s.log m) ∧ ((ownDeltas s.nodeId s.log).map deltaKey).Nodup

structure Initial (s : State) : Prop where
  writing : s.writing = []
  written : s.written = []
  durable : s.durable = []
  numbered : NumberedLog s.log
  peers : ownDeltas s.nodeId s.log = []
  position : ∃ p ≤ s.log.length, s.index = replay (s.log.take p)
  pass : s.pass = .idle
  drained : s.drained = false

def Pass.deltas : Pass → List FileIndexDelta
  | .appending _ deltas => deltas
  | _ => []

def Pass.watermark : Pass → Option (Option Nat)
  | .listing _ watermark => some watermark
  | _ => none

/-- A manifest overwrites none and becomes durable above every number already published or being published; a listing
finds no more manifests than a pass loads. -/
def Safe (s : State) : Action → Prop
  | .write m => (∀ d ∈ s.durable, d.snapshotSequenceNumber ≠ m.snapshotSequenceNumber) ∧
      (deltasFromSnapshot m ≠ [] →
        ∀ d ∈ ownDeltas s.nodeId s.log ++ s.pass.deltas, d.snapshotSequence < m.snapshotSequenceNumber)
  | .list => ∀ watermark ∈ s.pass.watermark, (s.durable.filter (above watermark)).length ≤ maxManifestsPerPass
  | _ => True

instance (s : State) (a : Action) : Decidable (Safe s a) := by
  cases a <;> dsimp only [Safe] <;> infer_instance

def Within (ds : List FileIndexDelta) (m : PersistedSnapshot) : Prop := ∀ d ∈ deltasFromSnapshot m, d ∈ ds

section Deltas
variable {m : PersistedSnapshot} {d : FileIndexDelta}

private theorem carries_of_within {log : List FileIndexLogEntry} (h : Within (ownDeltas m.nodeId log) m) :
    Carries log m := by
  refine fun k => ⟨fun f hf => ?_, fun f hf => ?_⟩
  · exact ⟨_, h _ (mem_map_of_mem (mem_tablesOf_of_added hf)), rfl, rfl, hf⟩
  · exact ⟨_, h _ (mem_map_of_mem (mem_tablesOf_of_removed hf)), rfl, rfl, mem_map_of_mem hf⟩

private theorem nodup_deltaKeys {ms : List PersistedSnapshot}
    (h : (ms.map PersistedSnapshot.snapshotSequenceNumber).Nodup) :
    ((ms.flatMap deltasFromSnapshot).map deltaKey).Nodup := by
  rw [map_flatMap, nodup_flatMap]
  refine ⟨fun m _ => ?_, (pairwise_map.mp h).imp fun {a b} hne => ?_⟩
  · rw [deltasFromSnapshot, map_map]
    refine (nodup_dedup _).map fun k k' hk => ?_
    simp only [Function.comp_apply, deltaKey, Prod.mk.injEq, true_and] at hk
    exact Prod.ext hk.1 hk.2
  · simp only [Function.onFun, disjoint_left, mem_map]
    rintro _ ⟨d, hd, rfl⟩ ⟨d', hd', hkey⟩
    have hseq : d'.snapshotSequence = d.snapshotSequence := congrArg Prod.fst hkey
    rw [(snapshotSequence_of_mem hd).1, (snapshotSequence_of_mem hd').1] at hseq
    exact hne hseq.symm

end Deltas

private def PassOk (s : State) : Pass → Prop
  | .idle => True
  | .syncing quiet => quiet = true → s.writing = []
  | .listing quiet w => (quiet = true → s.writing = []) ∧ IsTop w (ownDeltas s.nodeId s.log)
  | .appending quiet ds =>
    (quiet = true → s.writing = [] ∧ ∀ m ∈ s.durable, Within (ownDeltas s.nodeId s.log) m ∨ Within ds m) ∧
    (∀ d ∈ ds, ∃ m ∈ s.durable, d ∈ deltasFromSnapshot m) ∧
    (∀ d ∈ ds, ∀ d' ∈ ownDeltas s.nodeId s.log, d'.snapshotSequence < d.snapshotSequence) ∧
    (ds.map deltaKey).Nodup ∧
    ∀ m ∈ s.durable, ∀ d ∈ ds, m.snapshotSequenceNumber ≤ d.snapshotSequence →
      Within (ownDeltas s.nodeId s.log) m ∨ Within ds m

private structure Invariant (s : State) : Prop where
  numbered : NumberedLog s.log
  replayed : IsReplay s.log s.index
  kept : s.written = s.durable
  distinct : (s.durable.map PersistedSnapshot.snapshotSequenceNumber).Nodup
  owned : ∀ m ∈ s.durable ++ s.writing, m.nodeId = s.nodeId
  below : ∀ m ∈ s.durable, ∀ d ∈ ownDeltas s.nodeId s.log, m.snapshotSequenceNumber ≤ d.snapshotSequence →
    Within (ownDeltas s.nodeId s.log) m
  once : ((ownDeltas s.nodeId s.log).map deltaKey).Nodup
  pass : PassOk s s.pass
  drained : s.drained = true → s.writing = [] ∧ ∀ m ∈ s.durable, Within (ownDeltas s.nodeId s.log) m

theorem Initial.invariant {s : State} (h : Initial s) : Invariant s := by
  obtain ⟨p, hp, hix⟩ := h.position
  refine ⟨h.numbered, hix ▸ isReplay_take h.numbered hp, ?_, ?_, ?_, ?_, ?_, h.pass ▸ trivial, ?_⟩ <;>
    simp [h.writing, h.written, h.durable, h.peers, h.drained]

private theorem Invariant.publishedOnce {s : State} (h : Invariant s) : PublishedOnce s := by
  refine ⟨fun hd m hm => carries_of_within ?_, h.once⟩
  rw [h.kept] at hm
  rw [h.owned m (mem_append_left _ hm)]
  exact (h.drained hd).2 m hm

theorem Invariant.synced_eq {s : State} (h : Invariant s) : s.synced = replay s.log :=
  h.replayed.foldl_apply h.numbered

section Steps
variable {s : State} (h : Invariant s)
include h

variable {m : PersistedSnapshot} {ds : List FileIndexDelta} {w : Option Nat} {quiet : Bool}

private theorem beginWrite_ok (hnode : m.nodeId = s.nodeId) :
    Invariant { s with writing := m :: s.writing, pass := s.pass.disturb, drained := false } := by
  refine ⟨h.numbered, h.replayed, h.kept, h.distinct, ?_, h.below, h.once, ?_, by simp⟩
  · intro d hd
    rcases mem_cons.mp (perm_middle.subset hd) with rfl | hd
    · exact hnode
    · exact h.owned d hd
  · exact match s.pass, h.pass with
      | .idle, _ => trivial
      | .syncing _, _ => nofun
      | .listing .., hpass => ⟨nofun, hpass.2⟩
      | .appending .., hpass => ⟨nofun, hpass.2⟩

private theorem abandonWrite_ok (hm : m ∈ s.writing) : Invariant { s with writing := s.writing.erase m } := by
  have hbusy : s.writing ≠ [] := ne_nil_of_mem hm
  have hsub : (s.durable ++ s.writing.erase m).Sublist (s.durable ++ s.writing) :=
    (erase_sublist).append_left _
  refine ⟨h.numbered, h.replayed, h.kept, h.distinct, fun d hd => h.owned d (hsub.subset hd), h.below,
    h.once, ?_, fun hd => absurd (h.drained hd).1 hbusy⟩
  exact match s.pass, h.pass with
    | .idle, _ => trivial
    | .syncing _, hpass => fun hq => absurd (hpass hq) hbusy
    | .listing .., hpass => ⟨fun hq => absurd (hpass.1 hq) hbusy, hpass.2⟩
    | .appending .., hpass => ⟨fun hq => absurd (hpass.1 hq).1 hbusy, hpass.2⟩

private theorem write_ok (hm : m ∈ s.writing) (hsafe : Safe s (.write m)) :
    Invariant { s with
      writing := s.writing.erase m, written := s.written ++ [m], durable := putSnapshot s.durable m } := by
  obtain ⟨hfresh, hsafe⟩ := hsafe
  have hbusy : s.writing ≠ [] := ne_nil_of_mem hm
  have hput : putSnapshot s.durable m = s.durable ++ [m] := by
    rw [putSnapshot, filter_eq_self.mpr fun d hd => by simpa using hfresh d hd]
  -- a manifest that says nothing is within any list, any other one is numbered above them all
  have hnew (ds : List FileIndexDelta) (d : FileIndexDelta) (hd : d ∈ ownDeltas s.nodeId s.log ++ s.pass.deltas)
      (hle : m.snapshotSequenceNumber ≤ d.snapshotSequence) : Within ds m := by
    by_cases hempty : deltasFromSnapshot m = []
    · simp [Within, hempty]
    · exact absurd (hsafe hempty d hd) (by omega)
  rw [hput, h.kept]
  refine ⟨h.numbered, h.replayed, rfl, ?_, fun d hd => ?_, ?_, h.once, ?_, fun hd => absurd (h.drained hd).1 hbusy⟩
  · rw [map_append, nodup_append]
    refine ⟨h.distinct, nodup_singleton _, ?_⟩
    rintro _ hd _ hnew rfl
    obtain ⟨d, hd, heq⟩ := mem_map.mp hd
    exact hfresh d hd (heq.trans (mem_singleton.mp hnew))
  · rcases mem_append.mp hd with hd | hd
    · rcases mem_snoc.mp hd with hd | rfl
      · exact h.owned d (mem_append_left _ hd)
      · exact h.owned d (mem_append_right _ hm)
    · exact h.owned d (mem_append_right _ (mem_of_mem_erase hd))
  · intro a ha d hd hle
    rcases mem_snoc.mp ha with ha | rfl
    · exact h.below a ha d hd hle
    · exact hnew _ d (mem_append_left _ hd) hle
  · have hpass := h.pass
    cases hp : s.pass with
    | idle | syncing | listing =>
      have hleft : PassOk { s with writing := s.writing.erase m } s.pass := (abandonWrite_ok h hm).pass
      rw [hp] at hleft
      exact hleft
    | appending quiet ds =>
      rw [hp] at hpass
      obtain ⟨hquiet, hsound, habove, honce, hcover⟩ := hpass
      refine ⟨fun hq => absurd (hquiet hq).1 hbusy, fun d hd => ?_, habove, honce, fun a ha d hd hle => ?_⟩
      · obtain ⟨a, ha, hda⟩ := hsound d hd
        exact ⟨a, mem_append_left _ ha, hda⟩
      · rcases mem_snoc.mp ha with ha | rfl
        · exact hcover a ha d hd hle
        · exact .inl (hnew _ d (mem_append_right _ (by rw [hp]; exact hd)) hle)

private theorem peerAppend_ok (hds : ∀ d ∈ ds, d.nodeId ≠ s.nodeId) :
    Invariant { s with log := s.log ++ [⟨s.log.length + 1, ds⟩] } := by
  have hown : ownDeltas s.nodeId (s.log ++ [⟨s.log.length + 1, ds⟩]) = ownDeltas s.nodeId s.log := by
    rw [ownDeltas_append, filter_eq_nil_iff.mpr fun d hd => by simpa using hds d hd, append_nil]
  refine ⟨h.numbered.append_singleton rfl, h.replayed.mono (prefix_append ..), h.kept, h.distinct, h.owned, ?_,
    ?_, ?_, ?_⟩
  · simpa only [hown] using h.below
  · simpa only [hown] using h.once
  · exact match s.pass, h.pass with
      | .idle, _ => trivial
      | .syncing _, hpass => hpass
      | .listing .., hpass | .appending .., hpass => by simpa only [PassOk, hown] using hpass
  · simpa only [hown] using h.drained

theorem index_ok {ix : FileIndex} (hix : IsReplay s.log ix) : Invariant { s with index := ix } := by
  refine { h with replayed := hix, pass := ?_ }
  have hpass := h.pass
  cases hp : s.pass <;> rw [hp] at hpass <;> exact hpass

theorem pass_ok {pass : Pass} (hpass : PassOk s pass) : Invariant { s with pass := pass } := by
  refine { h with pass := ?_ }
  cases pass <;> exact hpass

private theorem listed_within (htop : IsTop w (ownDeltas s.nodeId s.log))
    (hcount : (s.durable.filter (above w)).length ≤ maxManifestsPerPass) (hm : m ∈ s.durable) :
    Within (ownDeltas s.nodeId s.log) m ∨ Within (pendingDeltas w s.durable) m := by
  by_cases hab : above w m = true
  · refine .inr fun d hd => mem_flatMap.mpr ⟨m, (mem_manifestsToPublish hcount).mpr ⟨hm, hab⟩, hd⟩
  · cases w with
    | none => simp [above] at hab
    | some v =>
      obtain ⟨d, hd, rfl⟩ := htop.attained v rfl
      exact .inl (h.below m hm d hd (by simpa [above] using hab))

private theorem listed_ok (hquiet : quiet = true → s.writing = []) (htop : IsTop w (ownDeltas s.nodeId s.log))
    (hcount : (s.durable.filter (above w)).length ≤ maxManifestsPerPass) :
    PassOk s (.appending quiet (pendingDeltas w s.durable)) := by
  have hsource (d : FileIndexDelta) (hd : d ∈ pendingDeltas w s.durable) :
      ∃ m ∈ s.durable, above w m = true ∧ d ∈ deltasFromSnapshot m := by
    obtain ⟨m, hm, hdm⟩ := mem_flatMap.mp hd
    obtain ⟨hm, hab⟩ := (mem_manifestsToPublish hcount).mp hm
    exact ⟨m, hm, hab, hdm⟩
  refine ⟨fun hq => ⟨hquiet hq, fun m hm => listed_within h htop hcount hm⟩, fun d hd => ?_, fun d hd d' hd' => ?_, ?_,
    fun m hm _ _ _ => listed_within h htop hcount hm⟩
  · obtain ⟨m, hm, -, hdm⟩ := hsource d hd
    exact ⟨m, hm, hdm⟩
  · obtain ⟨m, -, hab, hdm⟩ := hsource d hd
    obtain ⟨v, rfl, hle⟩ := htop.bound d' hd'
    have hlt : v < m.snapshotSequenceNumber := by simpa [above] using hab
    have := (snapshotSequence_of_mem hdm).1
    omega
  · refine nodup_deltaKeys ?_
    have hload (n : Nat) : ((loadSnapshots n s.durable).map PersistedSnapshot.snapshotSequenceNumber).Nodup := by
      have hordered := ((orderedOldestFirst_perm s.durable).map _).nodup_iff.mpr h.distinct
      refine (nodup_reverse.mpr hordered).sublist ?_
      rw [← map_reverse]
      exact (take_sublist ..).map _
    refine List.Nodup.sublist (filter_sublist.map _) (((orderedOldestFirst_perm _).map _).nodup_iff.mpr ?_)
    cases w with
    | none => exact hload _
    | some v => exact (hload _).sublist (filter_sublist.map _)

/-- Appending what a pass has read: every delta is new, and nothing below the new watermark is missing. -/
theorem append_ok (hpass : PassOk s (.appending quiet ds))
    (ix : FileIndex) (hix : IsReplay (s.log ++ [⟨s.log.length + 1, ds⟩]) ix) (completes : Bool) :
    Invariant { s with log := s.log ++ [⟨s.log.length + 1, ds⟩], index := ix, pass := .idle,
                       drained := s.drained || (completes && quiet) } := by
  obtain ⟨hquiet, hsound, habove, honce, hcover⟩ := hpass
  have hnode : ∀ d ∈ ds, d.nodeId = s.nodeId := fun d hd => by
    obtain ⟨m, hm, hdm⟩ := hsound d hd
    exact (snapshotSequence_of_mem hdm).2.trans (h.owned m (mem_append_left _ hm))
  have hown : ownDeltas s.nodeId (s.log ++ [⟨s.log.length + 1, ds⟩]) = ownDeltas s.nodeId s.log ++ ds := by
    rw [ownDeltas_append, filter_eq_self.mpr fun d hd => by simpa using hnode d hd]
  have hboth {m : PersistedSnapshot} (hm : Within (ownDeltas s.nodeId s.log) m ∨ Within ds m) :
      Within (ownDeltas s.nodeId s.log ++ ds) m :=
    hm.elim (fun h d hd => mem_append_left _ (h d hd)) fun h d hd => mem_append_right _ (h d hd)
  refine ⟨h.numbered.append_singleton rfl, hix, h.kept, h.distinct, h.owned, ?_, ?_, trivial, ?_⟩
  · intro m hm d hd hle
    simp only [hown] at hd ⊢
    rcases mem_append.mp hd with hd | hd
    · exact hboth (.inl (h.below m hm d hd hle))
    · exact hboth (hcover m hm d hd hle)
  · rw [hown, map_append, nodup_append]
    refine ⟨h.once, honce, ?_⟩
    simp only [mem_map]
    rintro _ ⟨d', hd', rfl⟩ _ ⟨d, hd, rfl⟩ hkey
    have := habove d hd d' hd'
    have : d'.snapshotSequence = d.snapshotSequence := congrArg Prod.fst hkey
    omega
  · intro hdone
    simp only [hown]
    rcases Bool.or_eq_true_iff.mp hdone with hdone | hdone
    · exact ⟨(h.drained hdone).1, fun m hm => hboth (.inl ((h.drained hdone).2 m hm))⟩
    · obtain ⟨hwriting, hall⟩ := hquiet (Bool.and_eq_true_iff.mp hdone).2
      exact ⟨hwriting, fun m hm => hboth (hall m hm)⟩

end Steps

theorem Invariant.step {s s' : State} {a : Action} (h : Invariant s) (hsafe : Safe s a)
    (hstep : step s a = some s') : Invariant s' := by
  have hsynced : IsReplay s.log s.synced := h.synced_eq ▸ isReplay_replay h.numbered
  cases a
  case peerAppend ds =>
    obtain ⟨hds, ⟨⟩⟩ := ite_none_right_eq_some.mp hstep
    exact peerAppend_ok h hds
  case poll =>
    cases hstep
    exact index_ok h hsynced
  case beginPass =>
    rw [Publisher.step] at hstep
    split at hstep <;> cases hstep
    exact pass_ok h (fun hquiet => by simpa using hquiet)
  case sync =>
    rw [Publisher.step] at hstep
    split at hstep <;> cases hstep
    rename_i quiet hp
    exact pass_ok (index_ok h hsynced)
      ⟨(hp ▸ h.pass : PassOk s (.syncing quiet)), h.synced_eq ▸ isTop_watermark h.numbered⟩
  case list =>
    rw [Publisher.step] at hstep
    split at hstep
    · next quiet w hp =>
      have hpass : PassOk s (.listing quiet w) := hp ▸ h.pass
      have hok := listed_ok h hpass.1 hpass.2 (hsafe w (by rw [hp]; rfl))
      split at hstep
      · next hnone =>
        cases hstep
        rw [hnone] at hok
        refine { h with pass := trivial, drained := fun hdone => ?_ }
        rcases Bool.or_eq_true_iff.mp hdone with hdone | hdone
        · exact h.drained hdone
        · obtain ⟨hwriting, hall⟩ := hok.1 hdone
          exact ⟨hwriting, fun m hm => (hall m hm).elim id fun hw d hd => absurd (hw d hd) (by simp)⟩
      · next delta deltas hsome =>
        cases hstep
        exact pass_ok h (hsome ▸ hok)
    · cases hstep
  case append acknowledged =>
    rw [Publisher.step] at hstep
    split at hstep
    · next quiet ds hp =>
      have hpass : PassOk s (.appending quiet ds) := hp ▸ h.pass
      have hseq : s.synced.sequence = s.log.length := by rw [h.synced_eq, sequence_replay h.numbered]
      simp only [hseq] at hstep
      split at hstep
      · cases hstep
        have happly : s.synced.apply ⟨s.log.length + 1, ds⟩ = replay (s.log ++ [⟨s.log.length + 1, ds⟩]) := by
          rw [replay_append_singleton, h.synced_eq]
        have hok := append_ok h hpass (s.synced.apply ⟨s.log.length + 1, ds⟩)
          (happly ▸ isReplay_replay (h.numbered.append_singleton rfl)) true
        simpa [State.complete] using hok
      · cases hstep
        have hok := append_ok h hpass s.synced (hsynced.mono (prefix_append ..)) false
        simpa using hok
    · cases hstep
  case failPass =>
    cases hstep
    exact pass_ok h trivial
  case restart =>
    cases hstep
    exact pass_ok (index_ok h (isReplay_new _)) trivial
  all_goals obtain ⟨hm, ⟨⟩⟩ := ite_none_right_eq_some.mp hstep
  case beginWrite m => exact beginWrite_ok h hm
  case write m => exact write_ok h hm hsafe
  case abandonWrite m => exact abandonWrite_ok h hm

/-- In every run whose steps are all safe, manifests are published completely and once in
every state reached. -/
theorem published_once_of_safe {s₀ s : State} {as : List Action} (hinit : Initial s₀)
    (hsafe : Guarded step Safe s₀ as) (hrun : run step s₀ as = some s) : PublishedOnce s :=
  (invariant Invariant.step hinit.invariant hsafe hrun).publishedOnce

def idleNode : State := ⟨"ingest-01", [], [], [], [], new, .idle, false⟩

private theorem initial_idleNode : Initial idleNode :=
  ⟨rfl, rfl, rfl, .nil, rfl, ⟨0, le_rfl, rfl⟩, rfl, rfl⟩

def oneFileSnapshot (sequence : Nat) (path : String) : PersistedSnapshot :=
  ⟨"ingest-01", sequence, sequence, 1, 1, 1, 1, 0, 0, [((0, 0), [⟨sequence, path, 1, 1, 0, 0, 0⟩])], []⟩

def publish : List Action := [.beginPass, .sync, .list, .append true]

def publishedInOrder : List Action :=
  [.beginWrite (oneFileSnapshot 1 "a"), .write (oneFileSnapshot 1 "a")] ++ publish ++
  [.beginWrite (oneFileSnapshot 2 "b"), .write (oneFileSnapshot 2 "b")] ++ publish

theorem published_in_order_once : ∃ s, run step idleNode publishedInOrder = some s ∧
    s.drained = true ∧ s.written.length = 2 ∧ PublishedOnce s := by
  exact exists_and_and (by decide) fun s hs _ _ => published_once_of_safe initial_idleNode (by decide) hs

def publishedOutOfOrder : List Action :=
  [.beginWrite (oneFileSnapshot 1 "a"), .beginWrite (oneFileSnapshot 2 "b"), .write (oneFileSnapshot 2 "b")] ++
  publish ++ [.write (oneFileSnapshot 1 "a"), .beginPass, .sync, .list]

theorem out_of_order_never_published : Initial idleNode ∧
    ∃ s, run step idleNode publishedOutOfOrder = some s ∧ s.drained = true ∧
      oneFileSnapshot 1 "a" ∈ s.written ∧ ¬ PublishedOnce s := by
  refine ⟨initial_idleNode, ?_⟩
  refine exists_of_decide (fun s => s.drained = true ∧ oneFileSnapshot 1 "a" ∈ s.written ∧
    ∀ d ∈ ownDeltas "ingest-01" s.log, d.snapshotSequence = 2) (by decide)
    fun s hs ⟨hdone, hmem, hlog⟩ => ⟨hdone, hmem, fun h => ?_⟩
  obtain ⟨d, hd, -, hseq, -⟩ := (h.1 hdone _ hmem (0, 0)).1 ⟨1, "a", 1, 1, 0, 0, 0⟩ (by decide)
  exact absurd (hseq.symm.trans (hlog d hd)) (by decide)

end VarveDB.Publisher
