import VarveDB.Wal.Node

/-! What the WAL files and the manifests in the object store say about each other. -/
namespace VarveDB.Wal
open Library Runs List WalContents

def watermark (ms : List Manifest) : Nat := ms.foldl (fun w m => max w m.walFileSequenceNumber) 0

theorem watermark_append_singleton (ms : List Manifest) (m : Manifest) :
    watermark (ms ++ [m]) = max (watermark ms) m.walFileSequenceNumber := by simp [watermark]

theorem walFileSequenceNumber_le_watermark {ms : List Manifest} {m : Manifest} (hm : m ∈ ms) :
    m.walFileSequenceNumber ≤ watermark ms := by
  induction ms using List.reverseRecOn with
  | nil => cases hm
  | append_singleton ms m' ih =>
    rw [watermark_append_singleton]
    rcases mem_snoc.mp hm with hm | rfl
    · exact Nat.le_trans (ih hm) (Nat.le_max_left _ _)
    · exact Nat.le_max_right _ _

theorem watermark_le {ms : List Manifest} {n : Nat} (h : ∀ m ∈ ms, m.walFileSequenceNumber ≤ n) : watermark ms ≤ n := by
  induction ms using List.reverseRecOn with
  | nil => exact Nat.zero_le n
  | append_singleton ms m ih =>
    rw [watermark_append_singleton]
    exact Nat.max_le.mpr ⟨ih fun m' hm' => h m' (mem_append_left _ hm'), h m (by simp)⟩

def above (w : Nat) (files : List WalContents) : List WalContents := files.filter fun f => w < f.walFileNumber

def periodsUpTo (w n : Nat) (files : List WalContents) : List WalPeriod :=
  ((above w files).filter fun f => f.walFileNumber ≤ n).map WalContents.period

section
variable {w w' n n' : Nat} {files : List WalContents} {f g : WalContents}

theorem mem_above : f ∈ above w files ↔ f ∈ files ∧ w < f.walFileNumber := by simp [above]

theorem above_append : above w (files ++ rest) = above w files ++ above w rest := filter_append ..

theorem above_above (h : w ≤ w') : above w' (above w files) = above w' files := by
  simp only [above, filter_filter]
  refine filter_congr fun f _ => ?_
  simp only [Bool.and_eq_left_iff_imp, decide_eq_true_eq]
  omega

theorem filter_period : ((files.map period).filter fun p => w < p.walFileNumber) = (above w files).map period := by
  rw [filter_map]
  rfl

theorem mem_periodsUpTo {p : WalPeriod} : p ∈ periodsUpTo w n files ↔
    ∃ f ∈ files, w < f.walFileNumber ∧ f.walFileNumber ≤ n ∧ f.period = p := by
  simp [periodsUpTo, above, and_assoc, and_left_comm]

theorem period_mem_periodsUpTo (hf : f ∈ files) (hw : w < f.walFileNumber) (hn : f.walFileNumber ≤ n) :
    f.period ∈ periodsUpTo w n files := mem_periodsUpTo.mpr ⟨f, hf, hw, hn, rfl⟩

theorem increasing_periods (h : Increasing walFileNumber files) :
    Increasing WalPeriod.walFileNumber (files.map period) := h.map fun _ => rfl

theorem increasing_periodsUpTo (h : Increasing walFileNumber files) :
    Increasing WalPeriod.walFileNumber (periodsUpTo w n files) := increasing_periods ((h.filter _).filter _)

private theorem periodsUpTo_filter (h : w ≤ w') :
    ((periodsUpTo w n files).filter fun p => w' < p.walFileNumber) = periodsUpTo w' n files := by
  unfold periodsUpTo
  rw [filter_period, above, filter_comm]
  exact congrArg (fun l => (List.filter (fun f : WalContents => decide (f.walFileNumber ≤ n)) l).map period)
    (above_above h)

/-- Files numbered above `n` do not matter. -/
theorem periodsUpTo_append (h : ∀ f ∈ rest, n < f.walFileNumber) :
    periodsUpTo w n (files ++ rest) = periodsUpTo w n files := by
  have hrest : (above w rest).filter (fun f => f.walFileNumber ≤ n) = [] :=
    filter_eq_nil_iff.mpr fun f hf => by simpa using h f (mem_above.mp hf).1
  rw [periodsUpTo, above_append, filter_append, hrest, append_nil, periodsUpTo]

theorem periodsUpTo_of_le (h : ∀ f ∈ files, f.walFileNumber ≤ n) :
    periodsUpTo w n files = (above w files).map period := by
  rw [periodsUpTo, filter_eq_self.mpr fun f hf => by simpa using h f (mem_above.mp hf).1]

/-- The periods up to an earlier file are a prefix of those up to a later one. -/
theorem periodsUpTo_split (h : Increasing walFileNumber files) (hle : n ≤ n') :
    ∃ qs, periodsUpTo w n' files = periodsUpTo w n files ++ qs := by
  have hle' : ((periodsUpTo w n' files).filter fun p => p.walFileNumber ≤ n) = periodsUpTo w n files := by
    rw [periodsUpTo, filter_map, filter_filter, periodsUpTo]
    refine congrArg (List.map period) (filter_congr fun f _ => ?_)
    rw [Bool.eq_iff_iff]
    rw [Bool.and_eq_true]
    exact ⟨fun hn => hn.1, fun hn => ⟨hn, by simpa using Nat.le_trans (of_decide_eq_true hn) hle⟩⟩
  have hcut := (increasing_periodsUpTo (w := w) (n := n') h).filter_le_append_filter_gt n
  rw [hle'] at hcut
  exact ⟨_, hcut.symm⟩

end

def Taken (ms : List Manifest) (d : SnapshotDetails) : Prop :=
  ∃ m ∈ ms, m.snapshotSequenceNumber = d.snapshotSequenceNumber

/-- Replaying a file decides nothing for a snapshot that is taken, and on the same snapshot again for one that is not;
only the latest can be untaken. -/
structure Recorded (cfg : Config) (ms : List Manifest) (files : List WalContents) : Prop where
  increasing : Increasing WalContents.walFileNumber files
  last_le : ∀ f ∈ files, ∀ d, f.snapshot = some d → Taken ms d → d.lastWalSequenceNumber ≤ watermark ms
  quiet : ∀ f ∈ files, ∀ d, f.snapshot = some d → Taken ms d → watermark ms < f.walFileNumber →
    d.forced = false ∧ Quiet cfg (periodsUpTo (watermark ms) f.walFileNumber files)
  planned : ∀ f ∈ files, ∀ d, f.snapshot = some d → ¬ Taken ms d →
    Planned cfg (periodsUpTo (watermark ms) f.walFileNumber files) d
  latest : ∀ f ∈ files, ∀ d, f.snapshot = some d → ¬ Taken ms d →
    ∀ g ∈ files, g.snapshot ≠ none → g.walFileNumber ≤ f.walFileNumber

namespace Recorded
variable {cfg : Config} {ms : List Manifest} {files : List WalContents} {f g : WalContents} {d : SnapshotDetails}
  {m : Manifest}

theorem untaken_unique (h : Recorded cfg ms files) {d' : SnapshotDetails} (hf : f ∈ files) (hg : g ∈ files)
    (hfd : f.snapshot = some d) (hgd : g.snapshot = some d') (hd : ¬ Taken ms d) (hd' : ¬ Taken ms d') : f = g := by
  have hfg := h.latest f hf d hfd hd g hg (by simp [hgd])
  have hgf := h.latest g hg d' hgd hd' f hf (by simp [hfd])
  exact h.increasing.eq_of_key_eq hf hg (Nat.le_antisymm hgf hfg)

theorem last_bounds (h : Recorded cfg ms files) (hf : f ∈ files) (hfd : f.snapshot = some d) (hd : ¬ Taken ms d) :
    watermark ms < d.lastWalSequenceNumber ∧ d.lastWalSequenceNumber ≤ f.walFileNumber := by
  obtain ⟨p, hp, hlast⟩ := (h.planned f hf d hfd hd).last_mem
  obtain ⟨g, -, hlow, hhigh, rfl⟩ := mem_periodsUpTo.mp hp
  rw [← hlast]
  exact ⟨hlow, hhigh⟩

/-- The files a crash leaves in the store. -/
theorem append_left (rest : List WalContents) (h : Recorded cfg ms (files ++ rest)) : Recorded cfg ms files := by
  have hper : ∀ f ∈ files, periodsUpTo (watermark ms) f.walFileNumber (files ++ rest) =
      periodsUpTo (watermark ms) f.walFileNumber files :=
    fun f hf => periodsUpTo_append fun g hg => h.increasing.lt_of_append hf hg
  have hmem : ∀ f ∈ files, f ∈ files ++ rest := fun f hf => mem_append_left _ hf
  refine ⟨h.increasing.append_left, fun f hf => h.last_le f (hmem f hf), ?_, ?_, ?_⟩
  · intro f hf d hfd hd hw
    exact hper f hf ▸ h.quiet f (hmem f hf) d hfd hd hw
  · intro f hf d hfd hd
    exact hper f hf ▸ h.planned f (hmem f hf) d hfd hd
  · intro f hf d hfd hd g hg
    exact h.latest f (hmem f hf) d hfd hd g (hmem g hg)

section
variable (h : Recorded cfg ms files)
include h

/-- A new file, which records no snapshot unless all earlier ones are taken. -/
theorem append (hnew : ∀ g ∈ files, g.walFileNumber < f.walFileNumber) (hf : ∀ d, f.snapshot = some d → ¬ Taken ms d ∧
      Planned cfg (periodsUpTo (watermark ms) f.walFileNumber (files ++ [f])) d ∧
      ∀ g ∈ files, ∀ d', g.snapshot = some d' → Taken ms d') : Recorded cfg ms (files ++ [f]) := by
  have hper : ∀ g ∈ files, periodsUpTo (watermark ms) g.walFileNumber files =
      periodsUpTo (watermark ms) g.walFileNumber (files ++ [f]) :=
    fun g hg => (periodsUpTo_append fun f' hf' => (mem_singleton.mp hf') ▸ hnew g hg).symm
  refine ⟨h.increasing.append_singleton hnew, ?_, ?_, ?_, ?_⟩
  · exact forall_mem_snoc.mpr ⟨h.last_le, fun d hgd hd => absurd hd (hf d hgd).1⟩
  · exact forall_mem_snoc.mpr ⟨fun g hg => hper g hg ▸ h.quiet g hg, fun d hgd hd _ => absurd hd (hf d hgd).1⟩
  · exact forall_mem_snoc.mpr ⟨fun g hg => hper g hg ▸ h.planned g hg, fun d hgd _ => (hf d hgd).2.1⟩
  · intro g hg d hgd hd g' hg' hg'd
    rcases mem_snoc.mp hg with hold | rfl
    · rcases mem_snoc.mp hg' with hg' | rfl
      · exact h.latest g hold d hgd hd g' hg' hg'd
      · obtain ⟨d', hd'⟩ := Option.ne_none_iff_exists'.mp hg'd
        exact absurd ((hf d' hd').2.2 g hold d hgd) hd
    · rcases mem_snoc.mp hg' with hg' | rfl
      · exact Nat.le_of_lt (hnew g' hg')
      · exact le_rfl

section
variable (hf : f ∈ files) (hfd : f.snapshot = some d) (hd : ¬ Taken ms d)
include hf hfd hd

private theorem not_forced (hg : g ∈ files) (hgf : g.walFileNumber ≤ f.walFileNumber)
    (hlast : d.lastWalSequenceNumber < g.walFileNumber) : d.forced = false := by
  rcases hforced : d.forced with _ | _
  · rfl
  · have hw := (h.last_bounds hf hfd hd).1
    have hle := (h.planned f hf d hfd hd).le_last_of_forced (increasing_periodsUpTo h.increasing) hforced
      (period_mem_periodsUpTo hg (Nat.lt_trans hw hlast) hgf)
    exact absurd hlast (Nat.not_lt.mpr hle)

variable (hseq : m.snapshotSequenceNumber = d.snapshotSequenceNumber)
include hseq

/-- Once the untaken snapshot has its manifest, every recorded one has. -/
theorem taken_append : ∀ g ∈ files, ∀ d', g.snapshot = some d' → Taken (ms ++ [m]) d' := by
  intro g hg d' hgd
  by_cases hd' : Taken ms d'
  · obtain ⟨m', hm', he⟩ := hd'
    exact ⟨m', mem_append_left _ hm', he⟩
  · obtain rfl := h.untaken_unique hf hg hfd hgd hd hd'
    rw [hfd] at hgd
    exact ⟨m, by simp, some.inj hgd ▸ hseq⟩

/-- The untaken snapshot's manifest becomes durable. -/
theorem take (hwal : m.walFileSequenceNumber = d.lastWalSequenceNumber) :
    Recorded cfg (ms ++ [m]) files ∧ watermark (ms ++ [m]) = d.lastWalSequenceNumber := by
  obtain ⟨hlow, hhigh⟩ := h.last_bounds hf hfd hd
  have hmark : watermark (ms ++ [m]) = d.lastWalSequenceNumber := by
    rw [watermark_append_singleton, hwal]
    omega
  have htaken := h.taken_append hf hfd hd hseq
  refine ⟨⟨h.increasing, ?_, ?_, fun g hg d' hgd hd' => absurd (htaken g hg d' hgd) hd',
    fun g hg d' hgd hd' => absurd (htaken g hg d' hgd) hd'⟩, hmark⟩
  · intro g hg d' hgd _
    rw [hmark]
    by_cases hd' : Taken ms d'
    · exact Nat.le_trans (h.last_le g hg d' hgd hd') (Nat.le_of_lt hlow)
    · obtain rfl := h.untaken_unique hf hg hfd hgd hd hd'
      rw [hfd] at hgd
      exact Nat.le_of_eq (congrArg _ (some.inj hgd).symm)
  · intro g hg d' hgd _ hw
    rw [hmark] at hw ⊢
    have hgf := h.latest f hf d hfd hd g hg (by simp [hgd])
    have hforced := h.not_forced hf hfd hd hg hgf hw
    obtain ⟨qs, hsplit⟩ := periodsUpTo_split (w := watermark ms) h.increasing hgf
    have hinc := increasing_periodsUpTo (w := watermark ms) (n := f.walFileNumber) h.increasing
    have hplan := h.planned f hf d hfd hd
    rw [hsplit] at hinc hplan
    rw [← periodsUpTo_filter (Nat.le_of_lt hlow)]
    by_cases hd' : Taken ms d'
    · obtain ⟨hforced', hquiet⟩ := h.quiet g hg d' hgd hd' (Nat.lt_trans hlow hw)
      exact ⟨hforced', hplan.quiet_of_prefix hinc hforced (Or.inr hquiet)⟩
    · obtain rfl := h.untaken_unique hf hg hfd hgd hd hd'
      rw [hfd] at hgd
      exact ⟨some.inj hgd ▸ hforced, hplan.quiet_of_prefix hinc hforced (Or.inl (by simpa using hsplit))⟩

end

/-- A manifest that carries no new watermark and no recorded snapshot's number. -/
theorem add_manifest (hwal : m.walFileSequenceNumber ≤ watermark ms)
    (hseq : ∀ f ∈ files, ∀ d, f.snapshot = some d → ¬ Taken ms d →
      m.snapshotSequenceNumber ≠ d.snapshotSequenceNumber) :
    Recorded cfg (ms ++ [m]) files ∧ watermark (ms ++ [m]) = watermark ms := by
  have hmark : watermark (ms ++ [m]) = watermark ms := by
    rw [watermark_append_singleton]
    omega
  have htaken : ∀ f ∈ files, ∀ d, f.snapshot = some d → (Taken (ms ++ [m]) d ↔ Taken ms d) := by
    intro f hf d hfd
    refine ⟨fun hd => ?_, fun ⟨m', hm', he⟩ => ⟨m', mem_append_left _ hm', he⟩⟩
    by_contra hnot
    obtain ⟨m', hm', he⟩ := hd
    rcases mem_append.mp hm' with hm' | hm'
    · exact hnot ⟨m', hm', he⟩
    · exact hseq f hf d hfd hnot (mem_singleton.mp hm' ▸ he)
  refine ⟨⟨h.increasing, ?_, ?_, ?_, ?_⟩, hmark⟩
  · intro f hf d hfd hd
    exact hmark.symm ▸ h.last_le f hf d hfd ((htaken f hf d hfd).mp hd)
  · intro f hf d hfd hd hw
    rw [hmark] at hw ⊢
    exact h.quiet f hf d hfd ((htaken f hf d hfd).mp hd) hw
  · intro f hf d hfd hd
    exact hmark.symm ▸ h.planned f hf d hfd (fun ht => hd ((htaken f hf d hfd).mpr ht))
  · intro f hf d hfd hd
    exact h.latest f hf d hfd (fun ht => hd ((htaken f hf d hfd).mpr ht))

end

end Recorded
end VarveDB.Wal
