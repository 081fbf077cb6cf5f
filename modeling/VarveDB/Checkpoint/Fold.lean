import VarveDB.Checkpoint.Basic

/-! Folding manifests into checkpoints, and merging these into the live files of the whole history. -/
namespace VarveDB.Checkpoint
open Library List CachedCheckpoint Ledger

private structure Swept (es : List Entry) (a b : CachedCheckpoint) : Prop where
  databases : b.checkpoint.databases = a.checkpoint.databases.filter fun e => entryId e ∉ es.map entryId
  index : Indexes b.fileIndex b.checkpoint.databases
  kept : ∀ p ∈ a.checkpoint.pendingRemovedFiles, p ∈ b.checkpoint.pendingRemovedFiles
  pending : ∀ p ∈ b.checkpoint.pendingRemovedFiles, p ∈ a.checkpoint.pendingRemovedFiles ∨ p ∈ es
  served : ∀ e ∈ es, e ∈ b.checkpoint.pendingRemovedFiles ∨ entryId e ∈ a.checkpoint.databases.map entryId

variable {a : CachedCheckpoint}

private theorem Swept.append {es es' : List Entry} {b c : CachedCheckpoint} (h : Swept es a b) (h' : Swept es' b c) :
    Swept (es ++ es') a c where
  databases := by
    rw [h'.databases, h.databases, filter_filter]
    refine filter_congr fun e _ => Bool.eq_iff_iff.mpr ?_
    simp only [Bool.and_eq_true, decide_eq_true_eq, map_append, mem_append, not_or]
    exact and_comm
  index := h'.index
  kept := fun p hp => h'.kept p (h.kept p hp)
  pending := fun p hp => (h'.pending p hp).elim
    (fun hp => (h.pending p hp).imp_right (mem_append_left _)) (fun hp => .inr (mem_append_right _ hp))
  served := by
    intro e he
    rcases mem_append.mp he with he | he
    · exact (h.served e he).imp_left (h'.kept e)
    · refine (h'.served e he).imp_right fun hid => ?_
      rw [h.databases] at hid
      exact (filter_sublist.map entryId).subset hid

section
variable (hindex : Indexes a.fileIndex a.checkpoint.databases)
include hindex

section
variable (hnodup : (a.checkpoint.databases.map entryId).Nodup)
include hnodup

private theorem removeEntry_swept (flag : Bool) (e : Entry) : Swept [e] a (removeEntry (flag, a) e).2 := by
  unfold removeEntry
  cases hfound : a.fileIndex e.2.id with
  | none =>
    have habsent := hindex.eq_none.mp hfound
    refine ⟨?_, hindex, fun p hp => mem_append_left _ hp, fun p hp => mem_append.mp hp, ?_⟩
    · refine (filter_eq_self.mpr fun x hx => ?_).symm
      have hne : entryId x ≠ e.2.id := fun hid => habsent (hid ▸ mem_map_of_mem hx)
      simpa using hne
    · exact fun x hx => .inl (mem_append_right _ hx)
  | some k =>
    obtain ⟨f, hf, hid⟩ := (hindex _ _).mp hfound
    obtain ⟨hpending, -⟩ := a.checkpoint.removeFile_frame k e.2.id
    have hfilter : (a.checkpoint.removeFile k e.2.id).2.databases =
        a.checkpoint.databases.filter fun x => entryId x ≠ e.2.id := by
      rw [PersistedSnapshotCheckpoint.databases_removeFile, eraseP_eq_filter ?_ hnodup]
      · refine filter_congr fun x hx => ?_
        have htable : entryId x = e.2.id → x.1 = k := fun hx' =>
          Option.some.inj (((hindex _ x.1).mpr ⟨x.2, hx, hx'⟩).symm.trans hfound)
        refine Bool.eq_iff_iff.mpr ?_
        simp only [Bool.not_eq_true', decide_eq_false_iff_not, decide_eq_true_eq]
        exact not_congr ⟨And.right, fun hid => ⟨htable hid, hid⟩⟩
      · simp only [decide_eq_true_eq]
        exact fun x y hx hy => hx.2.trans hy.2.symm
    refine ⟨?_, ?_, ?_, ?_, ?_⟩
    · exact hfilter.trans (filter_congr fun x _ => by simp)
    · rw [hfilter]
      exact hindex.remove e.2.id
    · exact fun p hp => hpending ▸ hp
    · exact fun p hp => .inl (hpending ▸ hp)
    · intro x hx
      rw [mem_singleton.mp hx]
      exact .inr (mem_map.mpr ⟨(k, f), hf, hid⟩)

private theorem foldl_removeEntry_swept (flag : Bool) (es : List Entry) :
    Swept es a (es.foldl removeEntry (flag, a)).2 := by
  induction es using List.reverseRecOn with
  | nil => exact ⟨by simp, hindex, fun _ hp => hp, fun _ hp => .inl hp, nofun⟩
  | append_singleton es e ih =>
    rw [foldl_append]
    refine ih.append (removeEntry_swept ih.index ?_ _ e)
    rw [ih.databases]
    exact hnodup.sublist (filter_sublist.map entryId)

private theorem processRemovedFiles_swept (removed : List (TableKey × List ParquetFile)) :
    Swept (entries removed) a (a.processRemovedFiles removed) := by
  have h := foldl_removeEntry_swept hindex hnodup false (entries removed)
  simp only [processRemovedFiles]
  split
  · exact { h with }
  · exact h

end

end

private theorem foldl_addEntry (a : CachedCheckpoint) (es : List Entry) :
    (es.foldl addEntry a).checkpoint.databases = a.checkpoint.databases ++ es ∧
      (es.foldl addEntry a).checkpoint.pendingRemovedFiles = a.checkpoint.pendingRemovedFiles ∧
      (es.foldl addEntry a).checkpoint.numbers = a.checkpoint.numbers := by
  induction es using List.reverseRecOn with
  | nil => exact ⟨(append_nil _).symm, rfl, rfl⟩
  | append_singleton es e ih =>
    rw [foldl_append]
    refine ⟨?_, ih.2⟩
    rw [← append_assoc, ← ih.1]
    rfl

private theorem foldl_addEntry_indexes (hindex : Indexes a.fileIndex a.checkpoint.databases) {es : List Entry}
    (hnodup : ((a.checkpoint.databases ++ es).map entryId).Nodup) :
    Indexes (es.foldl addEntry a).fileIndex (a.checkpoint.databases ++ es) := by
  induction es using List.reverseRecOn with
  | nil => simpa using hindex
  | append_singleton es e ih =>
    rw [← append_assoc] at hnodup ⊢
    rw [map_append, nodup_append] at hnodup
    rw [foldl_append]
    exact (ih hnodup.1).insert fun he => hnodup.2.2 _ he _ (mem_singleton_self _) rfl

theorem numbers_applySnapshot (a : CachedCheckpoint) (m : PersistedSnapshot) :
    (a.applySnapshot m).checkpoint.numbers = (a.checkpoint.yearMonth, m.snapshotSequenceNumber, some m.nextFileId,
      m.walFileSequenceNumber, m.catalogSequenceNumber) := by
  have hremove (es : List Entry) (acc : Bool × CachedCheckpoint) :
      (es.foldl removeEntry acc).2.checkpoint.numbers = acc.2.checkpoint.numbers := by
    induction es generalizing acc with
    | nil => rfl
    | cons e es ih =>
      rw [foldl_cons, ih, removeEntry]
      cases acc.2.fileIndex e.2.id with
      | none => rfl
      | some k => exact (acc.2.checkpoint.removeFile_frame k e.2.id).2
  have hadd := (foldl_addEntry ⟨a.checkpoint.updateFromSnapshot m, a.fileIndex⟩ (entries m.databases)).2.2
  have hboth := (hremove (entries m.removedFiles) (false, _)).trans hadd
  simp only [applySnapshot, processRemovedFiles]
  split <;> exact hboth

/-- Manifests in the order of their numbers, with file ids used once and removals that
name the table the file was added to. -/
structure Sound (ms : List PersistedSnapshot) : Prop where
  numbers : Increasing PersistedSnapshot.snapshotSequenceNumber ms
  wellFormed : Ledger.WellFormed entryId (ms.map batch)
  tables : ∀ m ∈ ms, ∀ e ∈ entries m.removedFiles, ∀ d ∈ ms, ∀ e' ∈ entries d.databases,
    entryId e = entryId e' → e.1 = e'.1

private theorem map_id_filesOf_sublist (tables : List (TableKey × List ParquetFile)) (k : TableKey) :
    List.Sublist ((filesOf tables k).map ParquetFile.id) ((entries tables).map entryId) := by
  rw [filesOf, entries, map_flatMap, map_flatMap]
  refine List.Sublist.flatMap_right tables fun table _ => ?_
  split
  · simp [Function.comp_def]
  · exact nil_sublist _

variable {m : PersistedSnapshot}

namespace Sound
variable {ms ms' : List PersistedSnapshot}

theorem nil : Sound [] := ⟨Increasing.nil, ⟨nodup_nil, .nil⟩, nofun⟩

variable (h : Sound ms)
include h

theorem sublist (hs : List.Sublist ms' ms) : Sound ms' :=
  ⟨h.numbers.sublist hs, h.wellFormed.sublist (hs.map batch),
    fun m hm e he d hd => h.tables m (hs.subset hm) e he d (hs.subset hd)⟩

/-- A newer manifest with new ids, whose removals name files some manifest so far added. -/
theorem append (hnewest : ∀ d ∈ ms, d.snapshotSequenceNumber < m.snapshotSequenceNumber)
    (hnodup : ((entries m.databases).map entryId).Nodup) (hfresh : ∀ e ∈ entries m.databases, ∀ d ∈ ms,
      entryId e ∉ (entries d.databases).map entryId ∧ entryId e ∉ (entries d.removedFiles).map entryId)
    (hremoved : ∀ e ∈ entries m.removedFiles, ∃ d ∈ ms ++ [m], e ∈ entries d.databases) : Sound (ms ++ [m]) := by
  have hwf : Ledger.WellFormed entryId ((ms ++ [m]).map batch) := by
    rw [map_append, map_singleton]
    refine ⟨?_, pairwise_append.mpr ⟨h.wellFormed.ordered, pairwise_singleton _ _, ?_⟩⟩
    · rw [addedBy_append_singleton, map_append, nodup_append]
      refine ⟨h.wellFormed.distinct, hnodup, ?_⟩
      rintro _ hi _ hj rfl
      obtain ⟨e, he, hid⟩ := mem_map.mp hj
      obtain ⟨e', he', hid'⟩ := mem_map.mp hi
      simp only [addedBy, flatMap_map, mem_flatMap] at he'
      obtain ⟨d, hd, hed⟩ := he'
      exact (hfresh e he d hd).1 (mem_map.mpr ⟨e', hed, hid'.trans hid.symm⟩)
    · simp only [mem_map, mem_singleton]
      rintro _ ⟨d, hd, rfl⟩ _ rfl e he
      exact (hfresh e he d hd).2
  refine ⟨h.numbers.append_singleton hnewest, hwf, fun a ha e he d hd e' he' hid => ?_⟩
  rcases mem_append.mp ha with ha | ha
  · rcases mem_append.mp hd with hd | hd
    · exact h.tables a ha e he d hd e' he' hid
    · rw [mem_singleton.mp hd] at he'
      exact absurd (mem_map.mpr ⟨e, he, hid⟩) (hfresh e' he' a ha).2
  · rw [mem_singleton.mp ha] at he
    obtain ⟨b, hb, heb⟩ := hremoved e he
    have hadded {x : Entry} {c : PersistedSnapshot} (hc : c ∈ ms ++ [m]) (hx : x ∈ entries c.databases) :
        x ∈ addedBy ((ms ++ [m]).map batch) :=
      mem_flatMap.mpr ⟨batch c, mem_map_of_mem hc, hx⟩
    exact congrArg Prod.fst (inj_on_of_nodup_map hwf.distinct (hadded hb heb) (hadded hd he') hid)

/-- The files of a table that a rebuild from sound manifests lists. -/
theorem mem_newFromPersistedSnapshots {k : TableKey} {f : ParquetFile} :
    f ∈ (PersistedFiles.newFromPersistedSnapshots ms).files k ↔ (k, f) ∈ live entryId (ms.map batch) := by
  have hconsistent : Consistent ms := by
    refine ⟨pairwise_map.mpr (h.numbers.imp Nat.ne_of_lt), fun k => ?_, ?_⟩
    · refine h.wellFormed.distinct.sublist ?_
      rw [addedBy, flatMap_map, map_flatMap, map_flatMap]
      exact List.Sublist.flatMap_right ms fun m _ => map_id_filesOf_sublist m.databases k
    · intro a ha b hb hlt k f hf hid
      have hordered := h.numbers.rel_of_lt (pairwise_map.mp h.wellFormed.ordered) ha hb hlt (k, f)
        (mem_entries.mpr hf)
      exact hordered ((map_id_filesOf_sublist a.removedFiles k).subset hid)
  rw [PersistedFiles.mem_newFromPersistedSnapshots hconsistent, mem_live]
  simp only [mem_map, exists_exists_and_eq_and, forall_exists_index, and_imp, forall_apply_eq_imp_iff₂, batch,
    mem_entries]
  refine and_congr_right fun hadded => forall₂_congr fun m hm => not_congr ?_
  obtain ⟨d, hd, hfd⟩ := hadded
  constructor
  · rintro ⟨r, hr, hid⟩
    exact ⟨(k, r), mem_entries.mpr hr, hid⟩
  · rintro ⟨e, he, hid⟩
    have htable : e.1 = k := h.tables m hm e he d hd (k, f) (mem_entries.mpr hfd) hid
    exact ⟨e.2, mem_entries.mp (htable ▸ he), hid⟩

end Sound

def foldSnapshots (yearMonth : Nat) (ms : List PersistedSnapshot) : CachedCheckpoint :=
  ms.foldl CachedCheckpoint.applySnapshot (.new yearMonth)

section
variable (yearMonth : Nat) (ms : List PersistedSnapshot)

theorem foldSnapshots_append (m : PersistedSnapshot) :
    foldSnapshots yearMonth (ms ++ [m]) = (foldSnapshots yearMonth ms).applySnapshot m := by
  rw [foldSnapshots, foldl_append]
  rfl

theorem foldSnapshots_yearMonth : (foldSnapshots yearMonth ms).checkpoint.yearMonth = yearMonth := by
  induction ms using List.reverseRecOn with
  | nil => rfl
  | append_singleton ms m ih =>
    rw [foldSnapshots_append]
    exact (congrArg Prod.fst (numbers_applySnapshot _ m)).trans ih

theorem numbers_foldSnapshots (m : PersistedSnapshot) :
    (foldSnapshots yearMonth (ms ++ [m])).checkpoint.numbers = (yearMonth, m.snapshotSequenceNumber, some m.nextFileId,
      m.walFileSequenceNumber, m.catalogSequenceNumber) := by
  rw [foldSnapshots_append, numbers_applySnapshot, foldSnapshots_yearMonth]

theorem foldSnapshots_number (m : PersistedSnapshot) :
    (foldSnapshots yearMonth (ms ++ [m])).checkpoint.lastSnapshotSequenceNumber = m.snapshotSequenceNumber :=
  congrArg (fun n => n.2.1) (numbers_foldSnapshots yearMonth ms m)

end

/-- The checkpoint holds the live files of the manifests, and every removal it could not serve. -/
structure Tracks (ms : List PersistedSnapshot) (cached : CachedCheckpoint) : Prop where
  databases : cached.checkpoint.databases = Ledger.live entryId (ms.map batch)
  index : Indexes cached.fileIndex cached.checkpoint.databases
  pending : ∀ p ∈ cached.checkpoint.pendingRemovedFiles, ∃ m ∈ ms, p ∈ entries m.removedFiles
  served : ∀ m ∈ ms, ∀ e ∈ entries m.removedFiles, e ∈ cached.checkpoint.pendingRemovedFiles ∨
    ∃ d ∈ ms, entryId e ∈ (entries d.databases).map entryId

variable {cached : CachedCheckpoint}

private theorem applySnapshot_eq (hindex : Indexes cached.fileIndex cached.checkpoint.databases)
    (hnodup : ((cached.checkpoint.databases ++ entries m.databases).map entryId).Nodup) :
    ∃ added : CachedCheckpoint, cached.applySnapshot m = added.processRemovedFiles m.removedFiles ∧
      added.checkpoint.databases = cached.checkpoint.databases ++ entries m.databases ∧
      added.checkpoint.pendingRemovedFiles = cached.checkpoint.pendingRemovedFiles ∧
      Indexes added.fileIndex added.checkpoint.databases := by
  obtain ⟨hadded, hpending, -⟩ :=
    foldl_addEntry ⟨cached.checkpoint.updateFromSnapshot m, cached.fileIndex⟩ (entries m.databases)
  refine ⟨_, rfl, hadded, hpending, ?_⟩
  rw [addSnapshotFiles, hadded]
  exact foldl_addEntry_indexes (a := ⟨cached.checkpoint.updateFromSnapshot m, cached.fileIndex⟩) hindex hnodup

theorem Tracks.applySnapshot {ms : List PersistedSnapshot}
    (h : Tracks ms cached) (hwf : Ledger.WellFormed entryId ((ms ++ [m]).map batch)) :
    Tracks (ms ++ [m]) (cached.applySnapshot m) := by
  rw [map_append, map_singleton] at hwf
  have hdatabases : cached.checkpoint.databases ++ entries m.databases =
      live entryId (ms.map batch) ++ (batch m).added := congrArg (· ++ _) h.databases
  have hnodup : ((cached.checkpoint.databases ++ entries m.databases).map entryId).Nodup := by
    rw [hdatabases]
    refine hwf.distinct.sublist ?_
    rw [addedBy_append_singleton]
    exact (filter_sublist.append_right _).map entryId
  obtain ⟨added, happly, hadded, hpending, hindex⟩ := applySnapshot_eq h.index hnodup
  have hswept := processRemovedFiles_swept hindex (hadded ▸ hnodup) m.removedFiles
  rw [← happly] at hswept
  refine ⟨?_, hswept.index, fun p hp => ?_, fun a ha e he => ?_⟩
  · rw [map_append, map_singleton, live_append_singleton hwf, ← hdatabases, ← hadded]
    exact hswept.databases
  · rcases hswept.pending p hp with hp | hp
    · obtain ⟨d, hd, hpd⟩ := h.pending p (hpending ▸ hp)
      exact ⟨d, mem_append_left _ hd, hpd⟩
    · exact ⟨m, by simp, hp⟩
  · rcases mem_append.mp ha with ha | ha
    · refine (h.served a ha e he).imp (fun hp => hswept.kept e (hpending ▸ hp)) fun ⟨d, hd, hid⟩ => ?_
      exact ⟨d, mem_append_left _ hd, hid⟩
    · rw [mem_singleton.mp ha] at he
      refine (hswept.served e he).imp_right fun hid => ?_
      rw [hadded, hdatabases, map_append, mem_append] at hid
      rcases hid with hid | hid
      · obtain ⟨x, hx, hxid⟩ := mem_map.mp hid
        obtain ⟨⟨b, hb, hxb⟩, -⟩ := mem_live.mp hx
        obtain ⟨d, hd, rfl⟩ := mem_map.mp hb
        exact ⟨d, mem_append_left _ hd, mem_map.mpr ⟨x, hxb, hxid⟩⟩
      · exact ⟨m, by simp, hid⟩

theorem tracks_foldSnapshots (yearMonth : Nat) {ms : List PersistedSnapshot} (h : Sound ms) :
    Tracks ms (foldSnapshots yearMonth ms) := by
  induction ms using List.reverseRecOn with
  | nil => exact ⟨rfl, Indexes.empty, nofun, nofun⟩
  | append_singleton ms m ih =>
    rw [foldSnapshots_append]
    exact (ih (h.sublist (sublist_append_left ms [m]))).applySnapshot h.wellFormed

/-- Merging the fold of the next stretch into the live files so far. -/
theorem databases_merge_eq_live {as bs : List PersistedSnapshot} (h : Sound (as ++ bs))
    {c : PersistedSnapshotCheckpoint} (hc : c.databases = live entryId (as.map batch)) (ht : Tracks bs cached) :
    (c.merge cached.checkpoint).databases = live entryId ((as ++ bs).map batch) := by
  have hwf := h.wellFormed
  rw [map_append] at hwf ⊢
  have hnodup : ((c.databases ++ cached.checkpoint.databases).map entryId).Nodup := by
    rw [hc, ht.databases]
    refine hwf.distinct.sublist (List.Sublist.map entryId ?_)
    rw [addedBy, flatMap_append]
    exact filter_sublist.append filter_sublist
  rw [PersistedSnapshotCheckpoint.databases_merge, foldl_eraseP_eq_filter ?_ _ hnodup,
    live_append hwf (cached.checkpoint.pendingRemovedFiles.map entryId) ?_ ?_, hc, ht.databases]
  · refine filter_congr fun x hx => Bool.eq_iff_iff.mpr ?_
    have hadded : ∃ d ∈ as ++ bs, x ∈ entries d.databases := by
      rcases mem_append.mp hx with hx | hx <;>
        obtain ⟨⟨b, hb, hxb⟩, -⟩ := mem_live.mp hx <;> obtain ⟨d, hd, rfl⟩ := mem_map.mp hb
      · exact ⟨d, mem_append_left _ hd, hxb⟩
      · exact ⟨d, mem_append_right _ hd, hxb⟩
    obtain ⟨d, hd, hxd⟩ := hadded
    simp only [all_eq_true, Bool.not_eq_true', decide_eq_false_iff_not, decide_eq_true_eq, mem_map,
      not_exists, not_and]
    refine forall₂_congr fun e he => ⟨fun hne hid => hne ?_ hid.symm, fun hne _ hid => hne hid.symm⟩
    obtain ⟨m, hm, hem⟩ := ht.pending e he
    exact (h.tables m (mem_append_right _ hm) e hem d hd x hxd hid).symm
  · intro i hi
    obtain ⟨e, he, rfl⟩ := mem_map.mp hi
    obtain ⟨m, hm, hem⟩ := ht.pending e he
    exact mem_flatMap.mpr ⟨batch m, mem_map_of_mem hm, mem_map_of_mem hem⟩
  · intro i hi
    obtain ⟨b, hb, hib⟩ := mem_flatMap.mp hi
    obtain ⟨m, hm, rfl⟩ := mem_map.mp hb
    obtain ⟨e, he, rfl⟩ := mem_map.mp hib
    refine (ht.served m hm e he).imp (fun hp => mem_map_of_mem hp) fun hserved => ?_
    obtain ⟨d, hd, hid⟩ := hserved
    rw [addedBy, flatMap_map, map_flatMap]
    exact mem_flatMap.mpr ⟨d, hd, hid⟩
  · simp only [decide_eq_true_eq]
    exact fun e x y hx hy => hx.2.trans hy.2.symm

end VarveDB.Checkpoint
