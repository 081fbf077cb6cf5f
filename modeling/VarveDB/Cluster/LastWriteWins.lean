import VarveDB.Cluster.Ranking
import VarveDB.Cluster.Served
import VarveDB.Cluster.WriteOrder

/-! When the last write of a key outranks the earlier ones among the chunks of a query. -/
namespace VarveDB.Cluster
open Library Runs FileIndex Query List WriteBufferImpl Node

variable {e e' : SnapshotEntry} {c : QueryChunk}

namespace State.InWriteOrder
variable {cfg : Config} {n : String} {k : TableKey} {s : State} {filter : ChunkFilter} {f g : ParquetFile} {p q : Point}

section
variable (h : s.InWriteOrder cfg n k)
include h

section
variable (hf : f ∈ (s.nodes n).persistedFiles.files k) (hp : p ∈ rowsAt s.contents f)
include hf hp

private theorem node_of_file : p.node = n :=
  ((h.recorded.stored n k f (.inl (.listed hf))).rows p hp).1

theorem file_lt_buffered (hq : q ∈ (s.nodes n).frozenRows k filter ∨ q ∈ (s.nodes n).liveRows cfg k filter)
    (hrow : p.row = q.row) : p.written < q.written := by
  rcases hq with hq | hq
  · obtain ⟨c, hc, hk, -, hq⟩ := mem_frozenRows.mp hq
    exact (h.ordered.frozen c hc hk f hf p hp q hq hrow).1
  · obtain ⟨b, hb, hk, -, rfl⟩ := exists_live_of_mem_liveRows hq
    exact (h.ordered.files f hf).live b hb hk p hp hrow

end

private theorem frozen_lt_live (hp : p ∈ (s.nodes n).frozenRows k filter) (hq : q ∈ (s.nodes n).liveRows cfg k filter)
    (hrow : p.row = q.row) : p.written < q.written := by
  obtain ⟨c, hc, hk, -, hp⟩ := mem_frozenRows.mp hp
  obtain ⟨b, hb, hk', -, rfl⟩ := exists_live_of_mem_liveRows hq
  exact h.ordered.live b hb hk' c hc hk p hp hrow

private theorem live_unique (hp : p ∈ (s.nodes n).liveRows cfg k filter) (hq : q ∈ (s.nodes n).liveRows cfg k filter)
    (hrow : p.row = q.row) : p = q := by
  obtain ⟨b, hb, hk, hkept, rfl⟩ := exists_live_of_mem_liveRows hp
  obtain ⟨b', hb', hk', hkept', rfl⟩ := exists_live_of_mem_liveRows hq
  exact congrArg _ ((h.recorded.nodes n).buffered.eq_of_row hb hb' hkept hkept' (hk.trans hk'.symm) hrow)

private theorem frozen_unique (hp : p ∈ (s.nodes n).frozenRows k filter) (hq : q ∈ (s.nodes n).frozenRows k filter)
    (hrow : p.row = q.row) : p = q := by
  obtain ⟨c, hc, hk, -, hp⟩ := mem_frozenRows.mp hp
  obtain ⟨c', hc', hk', -, hq⟩ := mem_frozenRows.mp hq
  have hfrozen := (h.recorded.nodes n).frozen
  by_cases hcc : c = c'
  · subst hcc
    exact inj_on_of_nodup_map (hfrozen.valid c hc).keys hp hq hrow
  · rcases pairwise_or hfrozen.apart hc hc' hcc with hapart | hapart
    · exact absurd ⟨p, hp, q, hq, hrow⟩ (hapart (hk.trans hk'.symm))
    · exact absurd ⟨q, hq, p, hp, hrow.symm⟩ (hapart (hk'.trans hk.symm))

private theorem files_order : ((s.nodes n).getFilesFilteredUnsorted k filter).Pairwise fun f g =>
      ∀ p ∈ rowsAt s.contents f, ∀ q ∈ rowsAt s.contents g, p.row = q.row → p.written < q.written :=
  (h.ordered.order.imp fun hfg p hp q hq hrow => (hfg p hp q hq hrow).1).filter _

private theorem files_keys : ∀ f ∈ (s.nodes n).parquetFiles k filter, ((rowsAt s.contents f).map Point.row).Nodup :=
  fun f hf => (h.ordered.files f (mem_parquetFiles.mp hf).1).keys

end

theorem buffer_chunk (hc : c ∈ (s.nodes n).tableChunksLocked cfg k filter) :
    c.mayContainPkDuplicates = true ∧ (c.chunkOrder = Wal.i64Max - 1 ∧ c.rows ⊆ (s.nodes n).frozenRows k filter ∨
      c.chunkOrder = Wal.i64Max ∧ c.rows ⊆ (s.nodes n).liveRows cfg k filter) := by
  rcases isBufferChunk_of_mem_tableChunksLocked hc with hb | hb
  · exact ⟨hb.duplicates, .inl ⟨hb.order, hb.subset⟩⟩
  · exact ⟨hb.duplicates, .inr ⟨hb.order, hb.subset⟩⟩

section
variable (h : s.InWriteOrder cfg n k)
include h

/-- A node's own chunks rank its writes exactly if its files do. -/
theorem ranked_localChunks_iff (hlen : (localChunks cfg s.contents (s.nodes n) k filter).length ≤ maxVecLen) :
    RankedByWrite n (localChunks cfg s.contents (s.nodes n) k filter) ↔
      StartsNoLater (rowsAt s.contents) ((s.nodes n).getFilesFilteredUnsorted k filter) := by
  rw [← sorted_notBefore_iff h.files_order]
  constructor
  · intro hranked
    refine pairwise_iff_getElem.mpr fun i j hi hj hij p hp q hq hrow hlt => ?_
    have hchunk {i : Nat} (hi : i < ((s.nodes n).parquetFiles k filter).length) :
        parquetChunkFromFile s.contents 0 ((((s.nodes n).tableChunksLocked cfg k filter).length + i : Nat) : Int)
          ((s.nodes n).parquetFiles k filter)[i] ∈ localChunks cfg s.contents (s.nodes n) k filter :=
      mem_append_right _ (mem_filesFrom.mpr ⟨i, _, List.getElem?_eq_getElem hi, rfl⟩)
    have hnode {i : Nat} (hi : i < ((s.nodes n).parquetFiles k filter).length) {p : Point}
        (hp : p ∈ rowsAt s.contents ((s.nodes n).parquetFiles k filter)[i]) : p.node = n :=
      h.node_of_file (mem_parquetFiles.mp (getElem_mem hi)).1 hp
    have horder := hranked _ (hchunk hj) _ (hchunk hi) q hq p hp (hnode hj hq) (hnode hi hp) hrow.symm hlt
    simp only [parquetChunkFromFile] at horder
    omega
  · intro horder c hc c' hc' p hp q hq _ _ hrow hlt
    rcases mem_append.mp hc with hc | hc <;> rcases mem_append.mp hc' with hc' | hc'
    · rcases (buffer_chunk hc).2 with ⟨ho, hsub⟩ | ⟨ho, hsub⟩ <;>
        rcases (buffer_chunk hc').2 with ⟨ho', hsub'⟩ | ⟨ho', hsub'⟩
      · exact absurd hlt (by simp [h.frozen_unique (hsub hp) (hsub' hq) hrow])
      · rw [ho, ho']
        omega
      · exact absurd hlt (h.frozen_lt_live (hsub' hq) (hsub hp) hrow.symm).asymm
      · exact absurd hlt (by simp [h.live_unique (hsub hp) (hsub' hq) hrow])
    · obtain ⟨j, g, hg, rfl⟩ := mem_filesFrom.mp hc'
      have hlisted := (mem_parquetFiles.mp (mem_of_getElem? hg)).1
      have hbuffered := (buffer_chunk hc).2.imp (fun hb => hb.2 hp) fun hb => hb.2 hp
      exact absurd hlt (h.file_lt_buffered hlisted hq hbuffered hrow.symm).asymm
    · exact (levelled_localChunks cfg s.contents _ k filter).buffersAboveFiles hlen _ (mem_append_left _ hc') _
        (mem_append_right _ hc) (buffer_chunk hc').1 (by obtain ⟨i, f, -, rfl⟩ := mem_filesFrom.mp hc; rfl)
    · obtain ⟨i, f, hf, rfl⟩ := mem_filesFrom.mp hc
      obtain ⟨j, g, hg, rfl⟩ := mem_filesFrom.mp hc'
      have := lt_of_written_lt horder h.files_keys hf hg hp hq hrow hlt
      simp only [parquetChunkFromFile]
      omega

private theorem ranked_unseen
    (hstarts : StartsNoLater (rowsAt s.contents) ((s.nodes n).getFilesFilteredUnsorted k filter)) (since : Option Nat) :
    RankedByWrite n (fileChunks s.contents ((s.nodes n).bufferBatches cfg k filter since).unseen) := by
  intro c hc c' hc' p hp q hq _ _ hrow hlt
  obtain ⟨i, f, hf, rfl⟩ := mem_fileChunks.mp hc
  obtain ⟨j, g, hg, rfl⟩ := mem_fileChunks.mp hc'
  have hsublist : ((s.nodes n).bufferBatches cfg k filter since).unseen.Sublist ((s.nodes n).parquetFiles k filter) :=
    Recorded.unseen_subset
  have horder := ((sorted_notBefore_iff h.files_order).mpr hstarts).sublist hsublist
  have := lt_of_written_lt horder (fun f hf => h.files_keys f (hsublist.subset hf)) hf hg hp hq hrow hlt
  simp only [parquetChunkFromFile]
  omega

private theorem published_order (hwal : (s.nodes n).walFileNumber ≤ 10 ^ 10) {position : Nat}
    (he : e ∈ (replay (s.log.take position)).files)
    (he' : e' ∈ (replay (s.log.take position)).files) (htable : e.nodeId = n ∧ (e.dbId, e.tableId) = k)
    (htable' : e'.nodeId = n ∧ (e'.dbId, e'.tableId) = k) (hp : p ∈ rowsAt s.contents e.file)
    (hq : q ∈ rowsAt s.contents e'.file) (hrow : p.row = q.row) (hlt : p.written < q.written) :
    ¬e'.publishedBefore e := by
  obtain ⟨entry, hentry, hseq, d, hd, hadds⟩ := adds_of_mem_replay_take he
  obtain ⟨entry', hentry', hseq', d', hd', hadds'⟩ := adds_of_mem_replay_take he'
  rw [htable.1, htable.2] at hadds
  rw [htable'.1, htable'.2] at hadds'
  have hatt : s.Attributed n k e.file d.snapshotSequence := .inr ⟨entry, hentry, d, hd, hadds, rfl⟩
  have hatt' : s.Attributed n k e'.file d'.snapshotSequence := .inr ⟨entry', hentry', d', hd', hadds', rfl⟩
  have hlisted := (h.ordered.attributed_listed _ _ hatt).1
  have hlisted' := (h.ordered.attributed_listed _ _ hatt').1
  -- the manifest of the later write has the higher number
  have hnumber : d.snapshotSequence < d'.snapshotSequence := by
    rcases Nat.lt_trichotomy d.snapshotSequence d'.snapshotSequence with hnum | hnum | hnum
    · exact hnum
    · by_cases hfile : e.file = e'.file
      · obtain rfl := inj_on_of_nodup_map ((h.ordered.files _ hlisted).keys) hp (hfile ▸ hq) hrow
        omega
      · exact absurd ⟨p, hp, q, hq, hrow⟩ (h.ordered.attributed_apart _ _ _ hatt (hnum ▸ hatt') hfile)
    · exact absurd hlt (h.ordered.attributed_order _ _ _ _ hatt' hatt hnum q hq p hp hrow.symm).1.asymm
  have hpath : e.file.path < e'.file.path := by
    obtain ⟨-, -, w, w', ⟨ordinal, hw⟩, ⟨ordinal', hw'⟩, hww, hbound⟩ :=
      h.ordered.attributed_order _ _ _ _ hatt hatt' hnumber p hp q hq hrow
    have hwindow : e.file.chunkTime = e'.file.chunkTime := by
      rw [← (h.ordered.files _ hlisted).windows p hp, ← (h.ordered.files _ hlisted').windows q hq, hrow]
    rw [hw, hw', hwindow]
    exact parquetFilePath_lt hww (hbound.trans_le hwal) _ _
  have hsequence : e.addedAt ≤ e'.addedAt := by
    rw [← hseq, ← hseq']
    by_cases hsame : entry = entry'
    · exact Nat.le_of_eq (congrArg _ hsame)
    · rcases pairwise_or (h.recorded.published.and h.recorded.numbered.pairwise) hentry hentry' hsame with
        ⟨-, hle⟩ | ⟨hbelow, -⟩
      · exact Nat.le_of_lt hle
      · have := hbelow d' hd' d hd (hadds'.1.trans hadds.1.symm)
        omega
  rintro (hbefore | ⟨-, hle⟩)
  · omega
  · exact absurd hpath (not_lt_of_ge hle)

end

/-- The rows a peer would serve together share no key: neither live ones with frozen ones nor
either with those of files above the ticket's id. -/
def ServedApart (cfg : Config) (s : State) (n : String) (k : TableKey) (filter : ChunkFilter) (since : Option Nat) :
    Prop :=
  ¬ShareKey ((s.nodes n).frozenRows k filter) ((s.nodes n).liveRows cfg k filter) ∧
    ∀ f ∈ (s.nodes n).persistedFiles.files k, Node.Unseen filter since f →
      ¬ShareKey (rowsAt s.contents f) ((s.nodes n).frozenRows k filter) ∧
      ¬ShareKey (rowsAt s.contents f) ((s.nodes n).liveRows cfg k filter)

theorem unseen_listed {since : Option Nat} (hf : f ∈ ((s.nodes n).bufferBatches cfg k filter since).unseen) :
    f ∈ (s.nodes n).persistedFiles.files k :=
  (mem_unseen.mp hf).1

private theorem answer_unique_iff (h : s.InWriteOrder cfg n k) (since : Option Nat) :
    (∀ p ∈ (s.nodes n).doGet cfg s.contents k filter since, ∀ q ∈ (s.nodes n).doGet cfg s.contents k filter since,
      p.row = q.row → ¬p.written < q.written) ↔ ServedApart cfg s n k filter since := by
  have hstored : ∀ f ∈ ((s.nodes n).bufferBatches cfg k filter since).unseen, Stored s.contents n f :=
    fun f hf => h.recorded.stored_parquetFiles f (Recorded.unseen_subset.subset hf)
  have hbuffered {p : Point} (hp : p ∈ (s.nodes n).frozenRows k filter ∨ p ∈ (s.nodes n).liveRows cfg k filter) :
      p ∈ (s.nodes n).doGet cfg s.contents k filter since := mem_append_left _ (mem_batches.mpr hp)
  constructor
  · intro hunique
    have hfile {f : ParquetFile} (hf : f ∈ (s.nodes n).persistedFiles.files k) (hunseen : Node.Unseen filter since f)
        {p q : Point} (hp : p ∈ rowsAt s.contents f) (hrow : p.row = q.row) :
        ¬ (q ∈ (s.nodes n).frozenRows k filter ∨ q ∈ (s.nodes n).liveRows cfg k filter) := by
      intro hq
      obtain ⟨p', hp', hrow'⟩ := exists_mem_compactPlan hstored (mem_unseen.mpr ⟨hf, hunseen⟩) hp
      obtain ⟨f', hf', hpf'⟩ := exists_file_of_mem_compactPlan hstored hp'
      exact hunique p' (mem_append_right _ hp') q (hbuffered hq) (hrow'.trans hrow)
        (h.file_lt_buffered (unseen_listed hf') hpf' hq (hrow'.trans hrow))
    exact ⟨fun ⟨p, hp, q, hq, hrow⟩ =>
        hunique p (hbuffered (.inl hp)) q (hbuffered (.inr hq)) hrow (h.frozen_lt_live hp hq hrow),
      fun f hf hunseen => ⟨fun ⟨p, hp, q, hq, hrow⟩ => hfile hf hunseen hp hrow (.inl hq),
        fun ⟨p, hp, q, hq, hrow⟩ => hfile hf hunseen hp hrow (.inr hq)⟩⟩
  · rintro ⟨hbuffer, hfiles⟩ p hp q hq hrow hlt
    have hfile {f : ParquetFile} (hf : f ∈ ((s.nodes n).bufferBatches cfg k filter since).unseen) {p q : Point}
        (hp : p ∈ rowsAt s.contents f)
          (hq : q ∈ (s.nodes n).frozenRows k filter ∨ q ∈ (s.nodes n).liveRows cfg k filter) :
        p.row ≠ q.row := fun hrow =>
      have hapart := hfiles f (mem_unseen.mp hf).1 (mem_unseen.mp hf).2
      hq.elim (fun hq => hapart.1 ⟨p, hp, q, hq, hrow⟩) fun hq => hapart.2 ⟨p, hp, q, hq, hrow⟩
    rcases h.recorded.mem_doGet hp with hp | ⟨hp, f, hf, hpf⟩ <;>
      rcases h.recorded.mem_doGet hq with hq | ⟨hq, g, hg, hqg⟩
    · rcases hp with hp | hp <;> rcases hq with hq | hq
      · exact absurd hlt (by simp [h.frozen_unique hp hq hrow])
      · exact hbuffer ⟨p, hp, q, hq, hrow⟩
      · exact hbuffer ⟨q, hq, p, hp, hrow.symm⟩
      · exact absurd hlt (by simp [h.live_unique hp hq hrow])
    · exact hfile hg hqg hp hrow.symm
    · exact hfile hf hpf hq hrow
    · have hnodup := nodup_compactPlan hstored (fun f hf => (h.ordered.files f (unseen_listed hf)).keys)
        fun f hf g hg ⟨p, hp, q, hq, hrow⟩ => by
          rw [← (h.ordered.files f (unseen_listed hf)).windows p hp,
            ← (h.ordered.files g (unseen_listed hg)).windows q hq, hrow]
      exact absurd hlt (by simp [inj_on_of_nodup_map hnodup hp hq hrow])

section Reader
open ClusterWriteBuffer
variable {reader : Reader} {position : Nat}

section
variable (h : s.InWriteOrder cfg n k)
include h

theorem listed_of_entry {e : SnapshotEntry} (he : e ∈ (replay (s.log.take position)).files)
    (htable : (e.dbId, e.tableId) = k) (hp : p ∈ rowsAt s.contents e.file) (hnode : p.node = n) :
    e.nodeId = n ∧ e.file ∈ (s.nodes n).persistedFiles.files k ∧
      e.file ∈ (replay (s.log.take position)).filesForTable n k.1 k.2 := by
  obtain ⟨entry, hentry, -, d, hd, hadds⟩ := adds_of_mem_replay_take he
  rw [htable] at hadds
  have hn : e.nodeId = n := by
    rw [← hnode]
    exact ((h.recorded.stored _ _ _ (.inr ⟨entry, hentry, d, hd, hadds⟩)).rows p hp).1.symm
  rw [hn] at hadds
  refine ⟨hn, (h.ordered.attributed_listed _ _ (.inr ⟨entry, hentry, d, hd, hadds, rfl⟩)).1, ?_⟩
  subst htable
  exact mem_map_of_mem (mem_filter.mpr ⟨he, by simp [SnapshotEntry.inTable, hn]⟩)

private theorem not_lt_indexed (hindex : reader.fileIndex = replay (s.log.take position))
    (hp : p ∈ (s.nodes n).doGet cfg s.contents k filter (reader.sinceFileId n k))
    (hg : g ∈ (s.nodes n).persistedFiles.files k)
    (hindexed : g ∈ (replay (s.log.take position)).filesForTable n k.1 k.2)
    (hq : q ∈ rowsAt s.contents g) (hrow : p.row = q.row) : ¬p.written < q.written := by
  rcases h.recorded.mem_doGet hp with hp | ⟨-, f, hf, hp⟩
  · exact (h.file_lt_buffered hg hq hp hrow.symm).asymm
  · -- the file is unseen, so its id is above all that are indexed
    obtain ⟨since, hsince, hle⟩ : ∃ since, reader.sinceFileId n k = some since ∧ g.id ≤ since := by
      have hmem : g.id ∈ ((replay (s.log.take position)).filesForTable n k.1 k.2).map ParquetFile.id :=
        mem_map_of_mem hindexed
      obtain ⟨since, hmax⟩ := isSome_iff_exists.mp (isSome_max?_of_mem hmem)
      refine ⟨since, ?_, (List.max?_eq_some_iff.mp hmax).2 _ hmem⟩
      rw [Reader.sinceFileId, hindex]
      exact hmax
    have hlt : since < f.id := by
      rw [hsince] at hf
      exact of_decide_eq_true (mem_filter.mp hf).2
    have hne : f ≠ g := fun heq => by
      subst heq
      omega
    rcases pairwise_or h.ordered.order (unseen_listed hf) hg hne with hfg | hgf
    · have := (hfg p hp q hq hrow).2.1
      omega
    · exact (hgf q hq p hp hrow.symm).1.asymm

theorem chunk_of_node (hreader : reader.nodeId ≠ n)
    (hc : c ∈ bufferedAndLocal cfg s reader k filter) (hp : p ∈ c.rows) (hnode : p.node = n) :
    c = peerBufferChunk cfg s reader k filter n ∧ n ∈ reader.peersRead filter := by
  rcases mem_append.mp hc with hc | hc
  · exact absurd ((h.recorded.node_of_localChunks hc hp).symm.trans hnode) hreader
  · obtain ⟨node, hmem, rfl⟩ := mem_map.mp hc
    have hid : node.nodeId = n := (h.recorded.node_of_doGet hp).symm.trans hnode
    exact ⟨congrArg _ hid, mem_map.mpr ⟨node, hmem, hid⟩⟩

private theorem lt_of_indexed (hwal : (s.nodes n).walFileNumber ≤ 10 ^ 10) {entries : List SnapshotEntry}
    (hsorted : entries.Pairwise SnapshotEntry.publishedBefore)
    (hentries : ∀ e ∈ entries, e ∈ (replay (s.log.take position)).files ∧ (e.dbId, e.tableId) = k) {i j : Nat}
    (he : entries[i]? = some e) (he' : entries[j]? = some e') (hp : p ∈ rowsAt s.contents e.file)
    (hq : q ∈ rowsAt s.contents e'.file) (hnode : p.node = n) (hnode' : q.node = n) (hrow : p.row = q.row)
    (hlt : p.written < q.written) : i < j := by
  obtain ⟨hmem, htable⟩ := hentries e (mem_of_getElem? he)
  obtain ⟨hmem', htable'⟩ := hentries e' (mem_of_getElem? he')
  obtain ⟨hn, hlisted, -⟩ := h.listed_of_entry hmem htable hp hnode
  obtain ⟨hn', -, -⟩ := h.listed_of_entry hmem' htable' hq hnode'
  rcases Nat.lt_trichotomy i j with hij | rfl | hji
  · exact hij
  · obtain rfl := some.inj (he.symm.trans he')
    exact absurd hlt (by simp [inj_on_of_nodup_map ((h.ordered.files _ hlisted).keys) hp hq hrow])
  · obtain ⟨hi, rfl⟩ := List.getElem?_eq_some_iff.mp he
    obtain ⟨hj, rfl⟩ := List.getElem?_eq_some_iff.mp he'
    exact absurd (pairwise_iff_getElem.mp hsorted j i hj hi hji)
      (h.published_order hwal hmem hmem' ⟨hn, htable⟩ ⟨hn', htable'⟩ hp hq hrow hlt)

private theorem ranked_own_iff
    (hindex : reader.fileIndex = replay (s.log.take position)) (hreader : reader.nodeId = n) :
    RankedByWrite n (allChunks cfg s reader k filter) ↔
      RankedByWrite n (localChunks cfg s.contents (s.nodes n) k filter) := by
  subst hreader
  have hlocal {c : QueryChunk} (hc : c ∈ allChunks cfg s reader k filter) {p : Point} (hp : p ∈ c.rows)
      (hnode : p.node = reader.nodeId) :
      c ∈ localChunks cfg s.contents (s.nodes reader.nodeId) k filter := by
    rcases mem_append.mp hc with hc | hc
    · rcases mem_append.mp hc with hc | hc
      · exact hc
      · obtain ⟨node, hmem, rfl⟩ := mem_map.mp hc
        have hasks := (mem_filter.mp hmem).2
        have hid := (h.recorded.node_of_doGet hp).symm.trans hnode
        simp [Reader.asks, hid] at hasks
    · obtain ⟨entries, hfiles, -, hentries⟩ :=
        reader.fileIndex.exists_entries_getFilesFiltered k.1 k.2 filter (some reader.nodeId)
      obtain ⟨i, f, hf, rfl⟩ := mem_filesFrom.mp hc
      rw [Reader.peerParquet, hfiles, List.getElem?_map, map_eq_some_iff] at hf
      obtain ⟨e, he, rfl⟩ := hf
      obtain ⟨hmem, hother, htable⟩ := hentries e (mem_of_getElem? he)
      exact absurd (congrArg some (h.listed_of_entry (hindex ▸ hmem) htable hp hnode).1.symm) hother
  constructor
  · intro hranked c hc c' hc'
    exact hranked c (mem_append_left _ (mem_append_left _ hc)) c' (mem_append_left _ (mem_append_left _ hc'))
  · exact fun hranked c hc c' hc' p hp q hq hnode hnode' =>
      hranked c (hlocal hc hp hnode) c' (hlocal hc' hq hnode') p hp q hq hnode hnode'

/-- A reader's chunks rank the writes of a peer exactly if the peer's buffer, where it is asked,
serves rows that are apart. -/
theorem ranked_allChunks_iff (hwal : (s.nodes n).walFileNumber ≤ 10 ^ 10)
    (hindex : reader.fileIndex = replay (s.log.take position)) (hreader : reader.nodeId ≠ n)
    (hlen : (allChunks cfg s reader k filter).length ≤ maxVecLen) : RankedByWrite n (allChunks cfg s reader k filter) ↔
      (n ∈ reader.peersRead filter → ServedApart cfg s n k filter (reader.sinceFileId n k)) := by
  constructor
  · intro hranked hasked
    obtain ⟨node, hmem, rfl⟩ := mem_map.mp hasked
    have hchunk : peerBufferChunk cfg s reader k filter node.nodeId ∈ allChunks cfg s reader k filter :=
      mem_append_left _ (mem_append_right _ (mem_map.mpr ⟨node, hmem, rfl⟩))
    refine (h.answer_unique_iff _).mp fun p hp q hq hrow hlt => ?_
    exact lt_irrefl _ (hranked _ hchunk _ hchunk p hp q hq (h.recorded.node_of_doGet hp) (h.recorded.node_of_doGet hq)
      hrow hlt)
  · intro hapart c hc c' hc' p hp q hq hnode hnode' hrow hlt
    obtain ⟨entries, hfiles, hsorted, hentries⟩ :=
      reader.fileIndex.exists_entries_getFilesFiltered k.1 k.2 filter (some reader.nodeId)
    rw [hindex] at hentries
    have hfile {i : Nat} {f : ParquetFile} (hf : (reader.peerParquet k filter)[i]? = some f) :
        ∃ e, entries[i]? = some e ∧ e.file = f := by
      rwa [Reader.peerParquet, hfiles, List.getElem?_map, map_eq_some_iff] at hf
    rcases mem_append.mp hc with hc | hc <;> rcases mem_append.mp hc' with hc' | hc'
    · obtain ⟨rfl, hasked⟩ := h.chunk_of_node hreader hc hp hnode
      obtain ⟨rfl, -⟩ := h.chunk_of_node hreader hc' hq hnode'
      exact absurd hlt ((h.answer_unique_iff _).mpr (hapart hasked) p hp q hq hrow)
    · obtain ⟨rfl, -⟩ := h.chunk_of_node hreader hc hp hnode
      obtain ⟨j, g, hg, rfl⟩ := mem_filesFrom.mp hc'
      obtain ⟨e, he, rfl⟩ := hfile hg
      obtain ⟨hmem, -, htable⟩ := hentries e (mem_of_getElem? he)
      obtain ⟨-, hlisted, hindexed⟩ := h.listed_of_entry hmem htable hq hnode'
      exact absurd hlt (h.not_lt_indexed hindex hp hlisted hindexed hq hrow)
    · obtain ⟨rfl, -⟩ := h.chunk_of_node hreader hc' hq hnode'
      exact (levelled_allChunks cfg s reader k filter).buffersAboveFiles hlen _ (mem_append_left _ hc') _
        (mem_append_right _ hc) rfl (by obtain ⟨i, f, -, rfl⟩ := mem_filesFrom.mp hc; rfl)
    · obtain ⟨i, f, hf, rfl⟩ := mem_filesFrom.mp hc
      obtain ⟨j, g, hg, rfl⟩ := mem_filesFrom.mp hc'
      obtain ⟨e, he, rfl⟩ := hfile hf
      obtain ⟨e', he', rfl⟩ := hfile hg
      have := h.lt_of_indexed hwal hsorted (fun e he => ⟨(hentries e he).1, (hentries e he).2.2⟩) he he' hp hq hnode
        hnode' hrow hlt
      simp only [parquetChunkFromFile]
      omega

end

end Reader

end State.InWriteOrder

section
open State.InWriteOrder
variable {cfg : Config} {n : String} {k : TableKey} {as : List (String × NodeAction)} {s : State} {filter : ChunkFilter}

/-- On a node that leaves the files unmerged, the chunks of a query rank the writes to a key exactly if of two files
with a common key the later one starts no later and the rows served together share no key. -/
theorem ranked_by_write_iff (hrun : run (State.step cfg) .empty as = some s)
    (hspares : Guarded (State.step cfg) (Spares n k) .empty as) (hwal : (s.nodes n).walFileNumber ≤ 10 ^ 10)
    {queryFileLimit : Nat} {own : List QueryChunk}
    (hown : WriteBufferImpl.getTableChunks cfg s.contents queryFileLimit (s.nodes n) k filter = .ok own)
    (hownLen : own.length ≤ maxVecLen) (reader : ClusterWriteBuffer.Reader) (position : Nat)
    (hindex : reader.fileIndex = replay (s.log.take position)) {chunks : List QueryChunk}
    (hchunks : ClusterWriteBuffer.getTableChunks cfg s reader k filter = .ok chunks)
    (hlen : chunks.length ≤ maxVecLen) :
    ((RankedByWrite n own ∧ BuffersAboveFiles own) ∧ (RankedByWrite n chunks ∧ BuffersAboveFiles chunks) ∧
      (n ∈ reader.peersRead filter → RankedByWrite n
        (fileChunks s.contents ((s.nodes n).bufferBatches cfg k filter (reader.sinceFileId n k)).unseen))) ↔
    StartsNoLater (rowsAt s.contents) ((s.nodes n).getFilesFilteredUnsorted k filter) ∧
      (n ∈ reader.peersRead filter → ServedApart cfg s n k filter (reader.sinceFileId n k)) := by
  have h : s.InWriteOrder cfg n k := invariant State.InWriteOrder.step (.empty cfg n k) hspares hrun
  obtain rfl := WriteBufferImpl.getTableChunks_eq_ok hown
  obtain rfl := ClusterWriteBuffer.getTableChunks_eq_ok hchunks
  rw [numberChunks, length_mapIdx] at hownLen hlen
  have habove := ((levelled_localChunks _ _ _ _ _).buffersAboveFiles hownLen).numberChunks
  have habove' := ((levelled_allChunks _ _ _ _ _).buffersAboveFiles hlen).numberChunks
  rw [rankedByWrite_numberChunks, rankedByWrite_numberChunks, h.ranked_localChunks_iff hownLen]
  have hreader (hstarts : StartsNoLater (rowsAt s.contents) ((s.nodes n).getFilesFilteredUnsorted k filter)) :
      RankedByWrite n (ClusterWriteBuffer.allChunks cfg s reader k filter) ↔
        (n ∈ reader.peersRead filter → ServedApart cfg s n k filter (reader.sinceFileId n k)) := by
    by_cases hself : reader.nodeId = n
    · -- a node asks no peer for its own buffer
      refine iff_of_true ((h.ranked_own_iff hindex hself).mpr ((h.ranked_localChunks_iff hownLen).mpr hstarts)) ?_
      intro hasked
      obtain ⟨node, hmem, hid⟩ := mem_map.mp hasked
      have hasks := (mem_filter.mp hmem).2
      simp [ClusterWriteBuffer.Reader.asks, hid, hself] at hasks
    · exact h.ranked_allChunks_iff hwal hindex hself hlen
  constructor
  · rintro ⟨⟨hstarts, -⟩, ⟨hranked, -⟩, -⟩
    exact ⟨hstarts, (hreader hstarts).mp hranked⟩
  · rintro ⟨hstarts, hapart⟩
    exact ⟨⟨hstarts, habove⟩, ⟨(hreader hstarts).mpr hapart, habove'⟩, fun _ => h.ranked_unseen hstarts _⟩

instance (n : String) (chunks : List QueryChunk) : Decidable (RankedByWrite n chunks) :=
  inferInstanceAs (Decidable (∀ c ∈ chunks, ∀ c' ∈ chunks, ∀ p ∈ c.rows, ∀ q ∈ c'.rows, _))

instance (rows : ParquetFile → List Point) (files : List ParquetFile) : Decidable (StartsNoLater rows files) :=
  inferInstanceAs (Decidable (files.Pairwise _))

instance (cfg : Config) (s : State) (n : String) (k : TableKey) (filter : ChunkFilter) (since : Option Nat) :
    Decidable (ServedApart cfg s n k filter since) :=
  inferInstanceAs (Decidable (_ ∧ _))

private def inOrder : List (String × NodeAction) :=
  samplePersist (0, 1) 0 [5] (5, 5) ++ samplePersist (0, 1) 1 [1, 5] (1, 5) ++ [sampleWrite "a" (0, 1) [6] false]

theorem ranked_by_write_of_overwritten_file : ∃ s own chunks, run (State.step sampleConfig) .empty inOrder = some s ∧
    WriteBufferImpl.getTableChunks sampleConfig s.contents 100 (s.nodes "a") (0, 1) ⟨none, none⟩ = .ok own ∧
    ClusterWriteBuffer.getTableChunks sampleConfig s (sampleReader s 2) (0, 1) ⟨none, none⟩ = .ok chunks ∧
    "a" ∈ (sampleReader s 2).peersRead ⟨none, none⟩ ∧ (RankedByWrite "a" own ∧ BuffersAboveFiles own) ∧
    (RankedByWrite "a" chunks ∧ BuffersAboveFiles chunks) := by
  obtain ⟨s, hrun, own, hown, chunks, hchunks, hwal, hownLen, hlen, hreads, hstarts, hapart⟩ :
      ∃ s, run (State.step sampleConfig) .empty inOrder = some s ∧
        ∃ own, WriteBufferImpl.getTableChunks sampleConfig s.contents 100 (s.nodes "a") (0, 1) ⟨none, none⟩ = .ok own ∧
        ∃ chunks, ClusterWriteBuffer.getTableChunks sampleConfig s (sampleReader s 2) (0, 1) ⟨none, none⟩ = .ok chunks ∧
          (s.nodes "a").walFileNumber ≤ 10 ^ 10 ∧ own.length ≤ maxVecLen ∧ chunks.length ≤ maxVecLen ∧
          "a" ∈ (sampleReader s 2).peersRead ⟨none, none⟩ ∧
          StartsNoLater (rowsAt s.contents) ((s.nodes "a").getFilesFilteredUnsorted (0, 1) ⟨none, none⟩) ∧
          ServedApart sampleConfig s "a" (0, 1) ⟨none, none⟩ ((sampleReader s 2).sinceFileId "a" (0, 1)) := by decide
  have hranked := (ranked_by_write_iff hrun (by decide) hwal hown hownLen (sampleReader s 2) 2 rfl hchunks hlen).mpr
    ⟨hstarts, fun _ => hapart⟩
  exact ⟨s, own, chunks, hrun, hown, hchunks, hreads, hranked.1, hranked.2.1⟩

private def outOfOrder : List (String × NodeAction) :=
  samplePersist (0, 1) 0 [1, 5] (1, 5) ++ samplePersist (0, 1) 2 [5] (5, 5) ++ samplePersist (0, 1) 3 [8] (8, 8) ++
    [sampleWrite "a" (0, 1) [8] false]

/-- A file that starts later is sorted before the one it overwrites; and a file the reader has not indexed yet reaches
it in one chunk with the live row that overwrites it. -/
theorem not_ranked_by_write : ∃ s own chunks, run (State.step sampleConfig) .empty outOfOrder = some s ∧
    Guarded (State.step sampleConfig) (Spares "a" (0, 1)) .empty outOfOrder ∧
    WriteBufferImpl.getTableChunks sampleConfig s.contents 100 (s.nodes "a") (0, 1) ⟨none, none⟩ = .ok own ∧
    ClusterWriteBuffer.getTableChunks sampleConfig s (sampleReader s 2) (0, 1) ⟨none, none⟩ = .ok chunks ∧
    ¬RankedByWrite "a" own ∧ ¬RankedByWrite "a" chunks := by
  simp only [exists_and_left]
  decide

end
end VarveDB.Cluster
