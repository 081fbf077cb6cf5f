import VarveDB.Cluster.Served

/-! Between a peer's buffer and a reader's index: files published in the order of their ids. -/
namespace VarveDB.Cluster
open Library Runs FileIndex Compaction Compactor Query Publisher List PersistedFiles

def addsOf (ds : List FileIndexDelta) (n : String) (k : TableKey) : List ParquetFile :=
  (ds.filter fun d => d.nodeId = n ∧ (d.dbId, d.tableId) = k).flatMap FileIndexDelta.added

variable {f : ParquetFile} {k : TableKey}

private theorem mem_addsOf {ds : List FileIndexDelta} {n : String} : f ∈ addsOf ds n k ↔ ∃ d ∈ ds, Adds d n k f := by
  simp [addsOf, Adds, and_assoc]

private theorem published_iff {log : List FileIndexLogEntry} {n : String} :
    Published log n k f ↔ ∃ d ∈ logDeltas log, Adds d n k f := by
  simp only [Published, logDeltas, mem_flatMap]
  constructor
  · rintro ⟨entry, hentry, d, hd, h⟩
    exact ⟨d, ⟨entry, hentry, hd⟩, h⟩
  · rintro ⟨d, ⟨entry, hentry, hd⟩, h⟩
    exact ⟨entry, hentry, d, hd, h⟩

variable {path : String}

namespace Node

def heldFiles (x : Node) (k : TableKey) : List ParquetFile :=
  x.persistedFiles.files k ++ (x.persisted.filter fun job => job.1.table = k).map Prod.snd

theorem mem_heldFiles {x : Node} :
    f ∈ x.heldFiles k ↔ f ∈ x.persistedFiles.files k ∨ ∃ c, (c, f) ∈ x.persisted ∧ c.table = k := by
  simp [heldFiles, and_comm]

inductive RemovesPath (x : Node) (k : TableKey) (path : String) : Prop
  | merge {d : Applying} (hd : d ∈ x.applying) (hk : d.table = k) {f : ParquetFile} (hf : f ∈ d.removed)
      (hpath : f.path = path)
  | manifest {m : PersistedSnapshot} (hm : m ∈ x.manifests) {f : ParquetFile} (hf : f ∈ m.removedFrom k)
      (hpath : f.path = path)

variable {cfg : Config} {n : String} {log : List FileIndexLogEntry} {contents : Contents} {x : Node} {a : NodeAction}
  {e : Effect} {k : TableKey}

section
variable (h : Stepped cfg n log contents x a e)
include h

/-- Only a merge removes further paths: those of its inputs that the node lists. -/
theorem RemovesPath.of_stepped (hr : e.node.RemovesPath k path) : x.RemovesPath k path ∨
      ∃ position coldBefore config group output sizeBytes,
        a = .compact position coldBefore config group output sizeBytes ∧
        table group = k ∧ path ∈ group.paths ∧ ((∃ f ∈ x.persistedFiles.files k, f.path = path) ∨ path = output) := by
  cases hr with
  | manifest hm hf hpath =>
    rcases mem_manifests_of_stepped h hm with hm | ⟨-, hnone⟩ | ⟨m₀, c, file, -, hm₀, -, rfl⟩ | ⟨-, d, hd, hremoved⟩
    · exact .inl (.manifest hm hf hpath)
    · simp [(hnone k).2] at hf
    · exact .inl (.manifest (mem_manifests.mpr (.inl hm₀)) hf hpath)
    · rw [(hremoved k).2, mem_ite_nil_right] at hf
      exact .inl (.merge hd hf.1 hf.2 hpath)
  | merge hd hk hf hpath =>
    cases h with
    | compact =>
      rcases mem_applyMerge hd with hd | ⟨htable, -, -, hremoved⟩
      · exact .inl (.merge hd hk hf hpath)
      · obtain rfl := htable.symm.trans hk
        obtain ⟨hmem, hlisted⟩ := hremoved _ hf
        subst hpath
        refine .inr ⟨_, _, _, _, _, _, rfl, rfl, hmem, hlisted.imp (fun hf => ⟨_, hf, rfl⟩) ?_⟩
        rintro rfl
        rfl
    | reserve =>
      obtain ⟨d₀, hd₀, rfl⟩ := mem_map.mp hd
      refine .inl (.merge hd₀ ?_ (f := _) ?_ hpath)
      · split at hk <;> exact hk
      · split at hf <;> exact hf
    | persistCompaction => exact .inl (.merge (mem_of_mem_filter hd) hk hf hpath)
    | _ => exact .inl (.merge hd hk hf hpath)

private theorem id_of_makes (hmakes : Makes cfg n log contents x a k f) :
    f.id = x.nextFileId ∧ e.node.nextFileId = x.nextFileId + 1 := by
  cases hmakes with
  | persist => cases h with | persistChunk => exact ⟨rfl, rfl⟩
  | compact => cases h with | compact => exact ⟨rfl, rfl⟩

private theorem nextFileId_le : x.nextFileId ≤ e.node.nextFileId := by
  cases h with
  | persistChunk | compact => exact Nat.le_succ _
  | _ => exact le_rfl

end

def MergesAnew (contents : Contents) (x : Node) (k : TableKey) : NodeAction → Prop
  | .compact _ _ _ group path _ =>
    table group = k → contents path = none ∨ ∃ f ∈ x.persistedFiles.files k, f.path = path
  | _ => True

instance (contents : Contents) (x : Node) (k : TableKey) (a : NodeAction) : Decidable (MergesAnew contents x k a) := by
  cases a <;> dsimp only [MergesAnew] <;> infer_instance

private theorem held_of_stepped (h : Stepped cfg n log contents x a e) (hanew : MergesAnew contents x k a)
    (hf : f ∈ e.node.heldFiles k) : f ∈ x.heldFiles k ∨ f.id = x.nextFileId ∧ contents f.path = none := by
  rw [mem_heldFiles] at hf ⊢
  cases h with
  | persistChunk _ _ _ hpath =>
    rcases hf with hf | ⟨c, hjob, hk⟩
    · exact .inl (.inl hf)
    · rcases mem_snoc.mp hjob with hjob | hjob
      · exact .inl (.inr ⟨c, hjob, hk⟩)
      · cases hjob
        exact .inr ⟨rfl, hpath⟩
  | handOver hjob =>
    rcases hf with hf | ⟨c, hjob', hk⟩
    · rcases mem_addPersistedFile hf with hf | ⟨rfl, rfl⟩
      · exact .inl (.inl hf)
      · exact .inl (.inr ⟨_, hjob, rfl⟩)
    · exact .inl (.inr ⟨c, mem_of_mem_erase hjob', hk⟩)
  | compact =>
    rcases hf with hf | hjob
    · rcases (mem_applyCompaction _ _ _ _).1 k f hf with hf' | ⟨rfl, rfl⟩
      · exact .inl (.inl hf')
      · rcases hanew rfl with hnew | hlisted
        · exact .inr ⟨rfl, hnew⟩
        · exact .inl (.inl (mem_files_of_applyCompaction hlisted hf))
    · exact .inl (.inr hjob)
  | _ => exact .inl hf

end Node

/-- With every file go those of lower id that the node holds, unless they are published already. Its merges write to
new paths. -/
def PublishesInOrder (n : String) (k : TableKey) (s : State) : String × NodeAction → Prop
  | (n', .publish) => n' = n →
    ∀ g ∈ addsOf (pendingDeltas ((replay s.log).watermarks.lookup n) (s.nodes n).durable) n k,
      ∀ f ∈ (s.nodes n).heldFiles k, g.id < f.id ∨
        f ∈ addsOf (logDeltas s.log ++ pendingDeltas ((replay s.log).watermarks.lookup n) (s.nodes n).durable) n k
  | (n', a) => n' = n → Node.MergesAnew s.contents (s.nodes n) k a

instance (n : String) (k : TableKey) (s : State) (a : String × NodeAction) : Decidable (PublishesInOrder n k s a) := by
  rcases a with ⟨_, _ | _⟩ <;> dsimp only [PublishesInOrder] <;> infer_instance

def State.Removed (s : State) (n : String) (k : TableKey) (path : String) : Prop :=
  (s.nodes n).RemovesPath k path ∨ ∃ d ∈ logDeltas s.log, Removes d n k path

structure State.HandedOff (cfg : Config) (n : String) (k : TableKey) (s : State) : Prop where
  recorded : s.Recorded cfg
  minted : ∀ f, (s.nodes n).Records k f ∨ Published s.log n k f → f.id < (s.nodes n).nextFileId
  ordered : ∀ position g, Published (s.log.take position) n k g → ∀ f ∈ (s.nodes n).heldFiles k,
    g.id < f.id ∨ Published (s.log.take position) n k f
  removed : ∀ path, s.Removed n k path → (∃ rows, s.contents path = some rows) ∧
    ∀ f ∈ (s.nodes n).heldFiles k, f.path ≠ path
  jobs : ∀ job ∈ (s.nodes n).persisted, ∀ f ∈ (s.nodes n).persistedFiles.files k, f.path ≠ job.2.path
  distinct : (s.nodes n).persisted.Pairwise fun job job' => job.2.path ≠ job'.2.path

namespace State
variable {cfg : Config} {n : String} {k : TableKey} {s s' : State} {a : NodeAction} {e : Effect}

theorem HandedOff.empty (cfg : Config) (n : String) (k : TableKey) : HandedOff cfg n k .empty where
  recorded := .empty cfg
  minted f hf := by rcases hf with (⟨⟨⟩⟩ | ⟨⟨⟩, -⟩ | ⟨⟨⟩, -⟩ | ⟨⟨⟩, -, -⟩) | ⟨entry, ⟨⟩, -⟩
  ordered position g hg := by
    obtain ⟨entry, hentry, -⟩ := hg
    simp [State.empty] at hentry
  removed path hr := by rcases hr with (⟨⟨⟩, -, -, -⟩ | ⟨⟨⟩, -, -⟩) | ⟨d, ⟨⟩, -⟩
  jobs := nofun
  distinct := .nil

theorem published_take_append {log : List FileIndexLogEntry} {o : Option FileIndexLogEntry} {position : Nat}
    {g : ParquetFile} : Published ((log ++ o.toList).take position) n k g ↔
      Published (log.take position) n k g ∨ log.length < position ∧ Published o.toList n k g := by
  have happend {log log' : List FileIndexLogEntry} :
      Published (log ++ log') n k g ↔ Published log n k g ∨ Published log' n k g := by
    simp only [Published, mem_append, or_and_right, exists_or]
  rw [take_append, happend]
  refine or_congr_right ?_
  rcases Nat.lt_or_ge log.length position with hlt | hge
  · rw [take_of_length_le (by cases o <;> simp; omega)]
    simp [hlt]
  · simp [Nat.sub_eq_zero_of_le hge, Nat.not_lt.mpr hge, Published]

private theorem removes_after (h : s.Recorded cfg) {node : String}
    (hstepped : Node.Stepped cfg node s.log s.contents (s.nodes node) a e)
    (hr : ∃ d ∈ logDeltas (s.after node e).log, Removes d n k path) : s.Removed n k path := by
  obtain ⟨d, hd, hremoves⟩ := hr
  obtain ⟨entry, hentry, hd⟩ := mem_flatMap.mp hd
  rcases delta_after hstepped hentry hd with hentry | ⟨m, hm, hdm⟩
  · exact .inr ⟨d, mem_flatMap.mpr ⟨entry, hentry, hd⟩, hremoves⟩
  · obtain ⟨k', -, rfl⟩ := mem_map.mp hdm
    obtain ⟨hnode, rfl, hpath⟩ := hremoves
    obtain ⟨f, hf, rfl⟩ := mem_map.mp hpath
    have hmem := Node.mem_manifests.mpr (.inr (.inr hm))
    obtain rfl : node = n := ((h.nodes node).owned m hmem).symm.trans hnode
    exact .inl (.manifest hmem hf rfl)

section
variable (h : s.HandedOff cfg n k)
include h

section
variable (hstepped : Node.Stepped cfg n s.log s.contents (s.nodes n) a e)
include hstepped

private theorem HandedOff.ordered_step (hguard : PublishesInOrder n k s (n, a))
    (hanew : Node.MergesAnew s.contents (s.nodes n) k a) :
    ∀ position g, Published ((s.after n e).log.take position) n k g → ∀ f ∈ e.node.heldFiles k,
      g.id < f.id ∨ Published ((s.after n e).log.take position) n k f := by
  intro position g hg f hf
  rcases Node.held_of_stepped hstepped hanew hf with hheld | ⟨hid, -⟩
  · rcases published_take_append.mp hg with hold | ⟨hlt, hnew⟩
    · exact (h.ordered position g hold f hheld).imp id fun hf => published_take_append.mpr (.inl hf)
    · cases hstepped with
      | publish =>
        obtain ⟨entry, hentry, d, hd, hadds⟩ := hnew
        obtain rfl := mem_singleton.mp hentry
        refine (hguard rfl g (mem_addsOf.mpr ⟨d, hd, hadds⟩) f hheld).imp id fun hf => published_take_append.mpr ?_
        obtain ⟨d', hd', hadds'⟩ := mem_addsOf.mp hf
        rcases mem_append.mp hd' with hd' | hd'
        · rw [take_of_length_le hlt.le]
          exact .inl (published_iff.mpr ⟨d', hd', hadds'⟩)
        · exact .inr ⟨hlt, _, mem_singleton.mpr rfl, d', hd', hadds'⟩
      | _ =>
        obtain ⟨entry, hentry, -⟩ := hnew
        cases hentry
  · -- what is published has an id given out before
    refine .inl (hid ▸ ?_)
    obtain ⟨entry, hentry, hd⟩ := hg
    rcases published_after hstepped ⟨entry, mem_of_mem_take hentry, hd⟩ with hold | ⟨m, hm, -, hadded⟩
    · exact h.minted g (.inr hold)
    · exact h.minted g (.inl (.manifest (Node.mem_manifests.mpr (.inr (.inr hm))) hadded))

private theorem HandedOff.minted_step
    (hf : ((s.after n e).nodes n).Records k f ∨ Published (s.after n e).log n k f) : f.id < e.node.nextFileId := by
  rcases h.recorded.known_of_stepped hstepped hf with hold | ⟨-, hmakes⟩
  · exact (h.minted f hold).trans_le (Node.nextFileId_le hstepped)
  · obtain ⟨hid, hnext⟩ := Node.id_of_makes hstepped hmakes
    omega

variable (hanew : Node.MergesAnew s.contents (s.nodes n) k a)
include hanew

private theorem HandedOff.removed_step (hr : (s.after n e).Removed n k path) :
    (∃ rows, (s.after n e).contents path = some rows) ∧ ∀ f ∈ e.node.heldFiles k, f.path ≠ path := by
  have hext := extends_after hstepped
  have hold (hold : s.Removed n k path) :
      (∃ rows, (s.after n e).contents path = some rows) ∧ ∀ f ∈ e.node.heldFiles k, f.path ≠ path := by
    obtain ⟨⟨rows, hrows⟩, hapart⟩ := h.removed path hold
    refine ⟨⟨rows, hext path rows hrows⟩, fun f hf => ?_⟩
    rcases Node.held_of_stepped hstepped hanew hf with hf | ⟨-, hnew⟩
    · exact hapart f hf
    · rintro rfl
      cases hnew.symm.trans hrows
  rcases hr with hr | hr
  · have hr : e.node.RemovesPath k path := by simpa [after] using hr
    rcases hr.of_stepped hstepped with hr | ⟨_, _, _, group, output, _, rfl, rfl, hpath, hsource⟩
    · exact hold (.inl hr)
    · -- a merge of the table: the path is no longer listed, and no job writes to it
      have hlisted : (∃ rows, (s.after n e).contents path = some rows) ∧
          ∀ job ∈ (s.nodes n).persisted, job.2.path ≠ path := by
        have hof {f : ParquetFile} (hf : f ∈ (s.nodes n).persistedFiles.files (Node.table group)) :
            (∃ rows, (s.after n e).contents f.path = some rows) ∧ ∀ job ∈ (s.nodes n).persisted, job.2.path ≠ f.path :=
          ⟨((h.recorded.stored n _ f (.inl (.listed hf))).mono hext).object,
            fun job hjob => (h.jobs job hjob f hf).symm⟩
        rcases hsource with ⟨f, hf, rfl⟩ | rfl
        · exact hof hf
        · rcases hanew rfl with hnew | ⟨f, hf, rfl⟩
          · cases hstepped with | compact =>
            refine ⟨⟨Node.mergedRows s.contents group, by simp [after]⟩, fun job hjob heq => ?_⟩
            obtain ⟨-, m, -, hfile⟩ := (h.recorded.nodes n).jobs job hjob
            cases (heq ▸ hnew).symm.trans hfile.object
          · exact hof hf
      cases hstepped with | compact =>
      refine ⟨hlisted.1, fun f hf => ?_⟩
      rcases Node.mem_heldFiles.mp hf with hf | ⟨c, hjob, -⟩
      · rintro rfl
        exact (path_applyCompaction _ _ _ _).1 f hf hpath
      · exact hlisted.2 _ hjob
  · exact hold (removes_after h.recorded hstepped hr)

private theorem HandedOff.jobs_step :
    (∀ job ∈ e.node.persisted, ∀ f ∈ e.node.persistedFiles.files k, f.path ≠ job.2.path) ∧
      e.node.persisted.Pairwise fun job job' => job.2.path ≠ job'.2.path := by
  have hobject {job : SnapshotChunk × ParquetFile} (hjob : job ∈ (s.nodes n).persisted) :
      ∃ rows, s.contents job.2.path = some rows := by
    obtain ⟨-, m, -, hfile⟩ := (h.recorded.nodes n).jobs job hjob
    exact ⟨_, hfile.object⟩
  have hnew {path path' : String} (hnone : s.contents path = none) (hsome : ∃ rows, s.contents path' = some rows) :
      path' ≠ path := by
    rintro rfl
    obtain ⟨rows, hrows⟩ := hsome
    cases hnone.symm.trans hrows
  cases hstepped with
  | persistChunk _ _ _ hpath =>
    refine ⟨fun job hjob f hf => ?_, pairwise_append.mpr ⟨h.distinct, pairwise_singleton _ _, ?_⟩⟩
    · rcases mem_snoc.mp hjob with hjob | rfl
      · exact h.jobs job hjob f hf
      · exact hnew hpath (h.recorded.stored n k f (.inl (.listed hf))).object
    · intro job hjob job' hjob'
      obtain rfl := mem_singleton.mp hjob'
      exact hnew hpath (hobject hjob)
  | @handOver chunk file hjob =>
    have hnodup : (s.nodes n).persisted.Nodup := (h.recorded.nodes n).once.of_map
    refine ⟨fun job hmem f hf => ?_, h.distinct.sublist erase_sublist⟩
    obtain ⟨hne, hold⟩ := hnodup.mem_erase_iff.mp hmem
    rcases mem_addPersistedFile hf with hf | ⟨-, rfl⟩
    · exact h.jobs job hold f hf
    · exact (pairwise_or h.distinct hjob hold (Ne.symm hne)).elim id Ne.symm
  | compact =>
    refine ⟨fun job hjob f hf => ?_, h.distinct⟩
    rcases (mem_applyCompaction _ _ _ _).1 k f hf with hf' | ⟨rfl, rfl⟩
    · exact h.jobs job hjob f hf'
    · rcases hanew rfl with hnone | hlisted
      · exact (hnew hnone (hobject hjob)).symm
      · exact h.jobs job hjob _ (mem_files_of_applyCompaction hlisted hf)
  | _ => exact ⟨h.jobs, h.distinct⟩

end

theorem HandedOff.step {a : String × NodeAction} (hguard : PublishesInOrder n k s a) (hstep : s.step cfg a = some s') :
    s'.HandedOff cfg n k := by
  have hrecorded := h.recorded.step hstep
  obtain ⟨node, action⟩ := a
  obtain ⟨e, hstepped, rfl⟩ := stepped_of_step hstep
  by_cases hn : node = n
  · subst hn
    have hnode : (s.after node e).nodes node = e.node := by simp [after]
    have hanew : Node.MergesAnew s.contents (s.nodes node) k action := by
      cases action with
      | compact => exact hguard rfl
      | _ => trivial
    have hjobs := h.jobs_step hstepped hanew
    exact {
      recorded := hrecorded
      minted := fun f hf => hnode ▸ h.minted_step hstepped hf
      ordered := hnode ▸ h.ordered_step hstepped hguard hanew
      removed := fun path hr => hnode ▸ h.removed_step hstepped hanew hr
      jobs := hnode ▸ hjobs.1
      distinct := hnode ▸ hjobs.2 }
  · have hnode : (s.after node e).nodes n = s.nodes n := by simp [after, Ne.symm hn]
    have hpublished {log : List FileIndexLogEntry} {f : ParquetFile} : log ⊆ (s.after node e).log →
        Published log n k f → Published s.log n k f := by
      rintro hsub ⟨entry, hentry, hd⟩
      rcases published_after hstepped ⟨entry, hsub hentry, hd⟩ with hold | ⟨m, hm, howner, -⟩
      · exact hold
      · exact absurd (((h.recorded.nodes node).owned m (Node.mem_manifests.mpr (.inr (.inr hm)))).symm.trans howner) hn
    refine ⟨hrecorded, ?_, ?_, ?_, ?_, ?_⟩
    · rw [hnode]
      exact fun f hf => h.minted f (hf.imp id (hpublished (List.Subset.refl _)))
    · rw [hnode]
      intro position g hg f hf
      rcases published_take_append.mp hg with hg | ⟨hlt, hg⟩
      · exact (h.ordered position g hg f hf).imp id fun hf => published_take_append.mpr (.inl hf)
      · have hold := hpublished (subset_append_right _ _) hg
        rw [← take_of_length_le (i := position) hlt.le] at hold
        exact (h.ordered position g hold f hf).imp id fun hf => published_take_append.mpr (.inl hf)
    · intro path hr
      have hold : s.Removed n k path := by
        rcases hr with hr | hr
        · exact .inl (hnode ▸ hr)
        · exact removes_after h.recorded hstepped hr
      obtain ⟨⟨rows, hrows⟩, hapart⟩ := h.removed path hold
      exact ⟨⟨rows, extends_after hstepped path rows hrows⟩, hnode ▸ hapart⟩
    · exact hnode ▸ h.jobs
    · exact hnode ▸ h.distinct

end

end State

def Node.Holds (contents : Contents) (x : Node) (k : TableKey) (p : Point) : Prop :=
  (∃ b ∈ x.live, b.table = k ∧ b.superseded = false ∧ b.point = p) ∨
    (∃ c ∈ x.snapshotting, c.table = k ∧ p ∈ c.rows) ∨ ∃ f ∈ x.persistedFiles.files k, p ∈ rowsAt contents f

instance (contents : Contents) (x : Node) (k : TableKey) (p : Point) : Decidable (x.Holds contents k p) := by
  unfold Node.Holds
  infer_instance

/-- If the table's files are published in the order of their ids, every row the node holds reaches a reader: in a
listed file, in the peer's batches, or in a file above the ticket's id. -/
theorem every_row_handed_off {cfg : Config} {n : String} {k : TableKey} {as : List (String × NodeAction)} {s : State}
    (hrun : run (State.step cfg) .empty as = some s)
    (hguard : Guarded (State.step cfg) (PublishesInOrder n k) .empty as) (position : Nat) (filter : ChunkFilter)
    {p : Point} (hp : (s.nodes n).Holds s.contents k p)
    (htime : filter.testTimeStampMinMax p.row.time p.row.time = true) :
    (∃ g ∈ (replay (s.log.take position)).filesForTable n k.1 k.2, p ∈ rowsAt s.contents g) ∨
      p ∈ ((s.nodes n).bufferBatches cfg k filter ((replay (s.log.take position)).maxFileId n k.1 k.2)).batches ∨
      ∃ f ∈ ((s.nodes n).bufferBatches cfg k filter ((replay (s.log.take position)).maxFileId n k.1 k.2)).unseen,
        p ∈ rowsAt s.contents f := by
  have h : s.HandedOff cfg n k := invariant (State.HandedOff.step ·) (.empty cfg n k) hguard hrun
  rcases hp with ⟨b, hb, hk, hkept, rfl⟩ | ⟨c, hc, hk, hp⟩ | ⟨f, hf, hp⟩
  · exact .inr (.inl (Node.mem_batches.mpr (.inr (Node.mem_liveRows hb hk hkept htime))))
  · obtain ⟨-, -, hmin, hmax⟩ := ((h.recorded.nodes n).frozen.valid c hc).rows p hp
    exact .inr (.inl (Node.mem_batches.mpr (.inl (Node.mem_frozenRows.mpr
      ⟨c, hc, hk, ChunkFilter.test_of_covers htime hmin hmax, hp⟩))))
  · have hheld := Node.mem_heldFiles.mpr (.inl hf)
    obtain ⟨-, hmin, hmax⟩ := (h.recorded.stored n k f (.inl (.listed hf))).rows p hp
    by_cases hpublished : Published (s.log.take position) n k f
    · -- published and, as it is still held, never removed
      obtain ⟨e, he, hkey⟩ := lists_replay (h.recorded.numbered.take position) (published_iff.mp hpublished)
        fun d hd hremoves => (h.removed f.path (.inr ⟨d, by
          obtain ⟨entry, hentry, hd⟩ := mem_flatMap.mp hd
          exact mem_flatMap.mpr ⟨entry, mem_of_mem_take hentry, hd⟩, hremoves⟩)).2 f hheld rfl
      simp only [SnapshotEntry.key, Prod.mk.injEq] at hkey
      obtain ⟨hnode, hdb, htable, hpath⟩ := hkey
      refine .inl ⟨e.file, mem_map_of_mem (mem_filter.mpr ⟨he, inTable_iff.mpr ⟨hnode, hdb, htable⟩⟩), ?_⟩
      rwa [rowsAt, hpath]
    · refine .inr (.inr ⟨f, Node.mem_unseen.mpr ⟨hf, ChunkFilter.test_of_covers htime hmin hmax, fun i hi => ?_⟩, hp⟩)
      obtain ⟨g, hg, rfl⟩ := mem_map.mp (List.max?_mem hi)
      exact (h.ordered position g (published_of_mem_filesForTable hg) f hheld).resolve_right hpublished

private def handedOver : List (String × NodeAction) :=
  let chunk : SnapshotChunk := ⟨(0, 1), 0, 0, (7, 7), [⟨⟨7, 7⟩, "a", 2⟩]⟩
  samplePersist (0, 1) 0 [5] (5, 5) ++ samplePersist (0, 1) 1 [6] (6, 6) ++
    [sampleWrite "a" (0, 1) [7] true, ("a", .persistChunk chunk 100), ("a", .handOver chunk)]

private def rowSeven : Point := ⟨⟨7, 7⟩, "a", 2⟩

theorem handed_off_of_unpublished_file : ∃ s, run (State.step sampleConfig) .empty handedOver = some s ∧
    (∀ g ∈ (replay (s.log.take 2)).filesForTable "a" 0 1, rowSeven ∉ rowsAt s.contents g) ∧
    (rowSeven ∈ ((s.nodes "a").bufferBatches sampleConfig (0, 1) ⟨none, none⟩
        ((replay (s.log.take 2)).maxFileId "a" 0 1)).batches ∨
      ∃ f ∈ ((s.nodes "a").bufferBatches sampleConfig (0, 1) ⟨none, none⟩
        ((replay (s.log.take 2)).maxFileId "a" 0 1)).unseen, rowSeven ∈ rowsAt s.contents f) := by
  refine exists_of_decide
    (fun s => (∀ g ∈ (replay (s.log.take 2)).filesForTable "a" 0 1, rowSeven ∉ rowsAt s.contents g) ∧
    ∃ f ∈ (s.nodes "a").persistedFiles.files (0, 1), rowSeven ∈ rowsAt s.contents f) (by decide)
    fun s hrun ⟨hunlisted, hheld⟩ => ?_
  refine ⟨hunlisted, (every_row_handed_off hrun (by decide) 2 ⟨none, none⟩ (.inr (.inr hheld)) rfl).resolve_left ?_⟩
  exact fun ⟨g, hg, hp⟩ => hunlisted g hg hp

private def overtaken : List (String × NodeAction) :=
  let file (id : Nat) (time : Int) : ParquetFile :=
    ⟨id, Node.pathOf sampleConfig "a" (.new "a" (id + 1) (id + 1) 0 id) ⟨(0, 1), 0, 0, (time, time), []⟩, 100, 1, 0,
      time, time⟩
  handedOver ++ [("a", .compact 2 10 ⟨1000, 1000, 10⟩ ⟨0, 1, [file 0 5, file 1 6]⟩ "merged" 200), ("a", .reserve 3),
    ("a", .persistCompaction 3 true), ("a", .publish)]

/-- A merge is published before the snapshot whose file took a lower id: the file's row is
neither listed, nor buffered, nor above the ticket's id. -/
theorem row_overtaken_by_merge : ∃ s, run (State.step sampleConfig) .empty overtaken = some s ∧
    (s.nodes "a").Holds s.contents (0, 1) rowSeven ∧
    (∀ g ∈ (replay s.log).filesForTable "a" 0 1, rowSeven ∉ rowsAt s.contents g) ∧
    rowSeven ∉ ((s.nodes "a").bufferBatches sampleConfig (0, 1) ⟨none, none⟩
      ((replay s.log).maxFileId "a" 0 1)).batches ∧
    ∀ f ∈ ((s.nodes "a").bufferBatches sampleConfig (0, 1) ⟨none, none⟩ ((replay s.log).maxFileId "a" 0 1)).unseen,
      rowSeven ∉ rowsAt s.contents f := by
  decide

end VarveDB.Cluster
