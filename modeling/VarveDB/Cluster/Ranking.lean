import VarveDB.Cluster.Chunks

/-! How the chunks of a query rank: buffers above files, and files by their place in a list that is
sorted by time. -/
namespace VarveDB.Cluster
open Library FileIndex Query List ClusterWriteBuffer

/-- Of two rows of the node with one key, the one written later is in a chunk of higher order. -/
def RankedByWrite (n : String) (chunks : List QueryChunk) : Prop :=
  ∀ c ∈ chunks, ∀ c' ∈ chunks, ∀ p ∈ c.rows, ∀ q ∈ c'.rows, p.node = n → q.node = n → p.row = q.row →
    p.written < q.written → c.chunkOrder < c'.chunkOrder

/-- Chunks of buffers, which may hold a key twice, outrank those of files, which say they do not. -/
def BuffersAboveFiles (chunks : List QueryChunk) : Prop :=
  ∀ c ∈ chunks, ∀ c' ∈ chunks, c.mayContainPkDuplicates = true → c'.mayContainPkDuplicates = false →
    c'.chunkOrder < c.chunkOrder

def maxVecLen : Nat := (2 ^ 63 - 1) / 16

/-- Of two files that hold a common key, the one that comes later in the list starts no later. -/
def StartsNoLater (rows : ParquetFile → List Point) (files : List ParquetFile) : Prop :=
  files.Pairwise fun f g => ShareKey (rows f) (rows g) → g.minTime ≤ f.minTime

def NotBefore (rows : ParquetFile → List Point) (f g : ParquetFile) : Prop :=
  ∀ p ∈ rows f, ∀ q ∈ rows g, p.row = q.row → ¬q.written < p.written

section Files
variable {rows : ParquetFile → List Point} {files : List ParquetFile} {contents : Contents}

/-- Positions follow writes in a list that is in order. -/
theorem lt_of_written_lt (horder : files.Pairwise (NotBefore rows))
    (hkeys : ∀ f ∈ files, ((rows f).map Point.row).Nodup) {i j : Nat} {f g : ParquetFile} (hf : files[i]? = some f)
    (hg : files[j]? = some g) {p q : Point} (hp : p ∈ rows f) (hq : q ∈ rows g) (hrow : p.row = q.row)
    (hlt : p.written < q.written) : i < j := by
  rcases Nat.lt_trichotomy i j with hij | rfl | hji
  · exact hij
  · obtain rfl := Option.some.inj (hf.symm.trans hg)
    obtain rfl := inj_on_of_nodup_map (hkeys f (mem_of_getElem? hf)) hp hq hrow
    omega
  · obtain ⟨hi, rfl⟩ := List.getElem?_eq_some_iff.mp hf
    obtain ⟨hj, rfl⟩ := List.getElem?_eq_some_iff.mp hg
    exact absurd hlt (pairwise_iff_getElem.mp horder j i hj hi hji q hq p hp hrow.symm)

/-- The files of a list sorted by descending start are in the order of their writes exactly if
the list's later files start no later. -/
theorem sorted_notBefore_iff
    (horder : files.Pairwise fun f g => ∀ p ∈ rows f, ∀ q ∈ rows g, p.row = q.row → p.written < q.written) :
    (Node.sortByMinTimeDesc files).Pairwise (NotBefore rows) ↔ StartsNoLater rows files := by
  have hmem {f : ParquetFile} : f ∈ Node.sortByMinTimeDesc files ↔ f ∈ files := mem_insertionSort _
  constructor
  · intro hnot
    have hsorted : (Node.sortByMinTimeDesc files).Pairwise fun a b : ParquetFile => b.minTime ≤ a.minTime := by
      exact pairwise_insertionSort _ files
    refine horder.imp_of_mem fun {f g} hf hg hfg ⟨p, hp, q, hq, hrow⟩ => ?_
    by_contra hlt
    have hne : f ≠ g := fun heq => hlt (heq ▸ le_rfl)
    rcases pairwise_or (hnot.and hsorted) (hmem.mpr hf) (hmem.mpr hg) hne with ⟨-, hle⟩ | ⟨hgf, -⟩
    · exact hlt hle
    · exact hgf q hq p hp hrow.symm (hfg p hp q hq hrow)
  · intro hstarts
    have hboth := horder.and hstarts
    refine (pairwise_insertionSort_stable (r := fun a b : ParquetFile => b.minTime ≤ a.minTime) hboth).imp_of_mem
      fun {f g} hf hg hfg p hp q hq hrow hlt => ?_
    rcases hfg with ⟨hfg, -⟩ | hstart
    · exact Nat.lt_asymm hlt (hfg p hp q hq hrow)
    · have hne : f ≠ g := fun heq => hstart (heq ▸ le_rfl)
      rcases pairwise_or hboth (hmem.mp hf) (hmem.mp hg) hne with ⟨hfg, -⟩ | ⟨-, hgf⟩
      · exact Nat.lt_asymm hlt (hfg p hp q hq hrow)
      · exact hstart (hgf ⟨q, hq, p, hp, hrow.symm⟩)

end Files

section Renumber
variable {chunks : List QueryChunk} {n : String}

theorem rankedByWrite_numberChunks : RankedByWrite n (numberChunks chunks) ↔ RankedByWrite n chunks := by
  constructor
  · intro h c hc c' hc'
    obtain ⟨i, hi⟩ := exists_mem_numberChunks hc
    obtain ⟨j, hj⟩ := exists_mem_numberChunks hc'
    exact fun p hp q hq => h _ hi _ hj p hp q hq
  · intro h c hc c' hc'
    obtain ⟨c₀, hc₀, i, rfl⟩ := exists_of_mem_numberChunks hc
    obtain ⟨c₁, hc₁, j, rfl⟩ := exists_of_mem_numberChunks hc'
    exact h c₀ hc₀ c₁ hc₁

theorem BuffersAboveFiles.numberChunks (h : BuffersAboveFiles chunks) : BuffersAboveFiles (numberChunks chunks) := by
  intro c hc c' hc'
  obtain ⟨c₀, hc₀, i, rfl⟩ := exists_of_mem_numberChunks hc
  obtain ⟨c₁, hc₁, j, rfl⟩ := exists_of_mem_numberChunks hc'
  exact h c₀ hc₀ c₁ hc₁

end Renumber

section Levels
variable {chunks : List QueryChunk} {bound bound' : Nat}

def Levelled (bound : Nat) (chunks : List QueryChunk) : Prop :=
  ∀ c ∈ chunks, c.mayContainPkDuplicates = true ∧ Wal.i64Max - 1 ≤ c.chunkOrder ∨
    c.mayContainPkDuplicates = false ∧ c.chunkOrder < bound

theorem Levelled.mono (h : Levelled bound chunks) (hle : bound ≤ bound') : Levelled bound' chunks :=
  fun c hc => (h c hc).imp id fun ⟨hfile, hlt⟩ => ⟨hfile, by omega⟩

theorem Levelled.append {chunks' : List QueryChunk} (h : Levelled bound chunks) (h' : Levelled bound chunks') :
    Levelled bound (chunks ++ chunks') :=
  fun c hc => (mem_append.mp hc).elim (h c) (h' c)

private theorem levelled_filesFrom (contents : Contents) (first : Nat) (files : List ParquetFile) :
    Levelled (first + files.length) (filesFrom contents first files) := by
  intro c hc
  obtain ⟨i, f, hf, rfl⟩ := mem_filesFrom.mp hc
  have hi := (List.getElem?_eq_some_iff.mp hf).1
  exact .inr ⟨rfl, by simp only [parquetChunkFromFile]; omega⟩

theorem Levelled.buffersAboveFiles (h : Levelled bound chunks) (hbound : bound ≤ maxVecLen) :
    BuffersAboveFiles chunks := by
  intro c hc c' hc' hbuffer hfile
  rcases h c hc with ⟨-, horder⟩ | ⟨hno, -⟩
  · rcases h c' hc' with ⟨hno, -⟩ | ⟨-, horder'⟩
    · exact absurd hno (by simp [hfile])
    · simp only [maxVecLen] at hbound
      simp only [Wal.i64Max] at horder
      omega
  · exact absurd hbuffer (by simp [hno])

theorem levelled_localChunks (cfg : Config) (contents : Contents) (x : Node) (k : TableKey) (filter : ChunkFilter) :
    Levelled (WriteBufferImpl.localChunks cfg contents x k filter).length
      (WriteBufferImpl.localChunks cfg contents x k filter) := by
  have hfiles := levelled_filesFrom contents (x.tableChunksLocked cfg k filter).length (x.parquetFiles k filter)
  refine Levelled.append (fun c hc => .inl ?_) (hfiles.mono ?_)
  · rcases Node.isBufferChunk_of_mem_tableChunksLocked hc with hb | hb
    · exact ⟨hb.duplicates, hb.order.ge⟩
    · exact ⟨hb.duplicates, by rw [hb.order]; omega⟩
  · simp [WriteBufferImpl.localChunks, filesFrom]

theorem levelled_allChunks (cfg : Config) (s : State) (reader : ClusterWriteBuffer.Reader) (k : TableKey)
    (filter : ChunkFilter) : Levelled (allChunks cfg s reader k filter).length (allChunks cfg s reader k filter) := by
  have hlen : (allChunks cfg s reader k filter).length =
      (bufferedAndLocal cfg s reader k filter).length + (reader.peerParquet k filter).length := by
    simp [allChunks, filesFrom]
  refine ((Levelled.append (((levelled_localChunks cfg s.contents _ k filter)).mono ?_) fun c hc => .inl ?_).append
    ((levelled_filesFrom _ _ _).mono hlen.ge))
  · rw [hlen, bufferedAndLocal, length_append]
    omega
  · obtain ⟨node, -, rfl⟩ := mem_map.mp hc
    exact ⟨rfl, le_rfl⟩

end Levels

end VarveDB.Cluster
