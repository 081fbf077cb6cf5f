import VarveDB.Checkpoint.History

/-! When every stored checkpoint is complete. -/
namespace VarveDB.Checkpoint
open Library Runs List StoredSnapshot
open Wal (i64Min)

section Append
variable {ms : List StoredSnapshot} {cs : List PersistedSnapshotCheckpoint} {c : PersistedSnapshotCheckpoint}
  {x : StoredSnapshot} {month : Nat}

private theorem monthlyUpTo_append_self (hnew : ∀ y ∈ ms, y.number < x.number) :
    monthlyUpTo (ms ++ [x]) x.month x.number =
      (ms.filter fun y => y.month = x.month).map snapshot ++ [x.snapshot] := by
  have hold : ms.filter (fun y => y.month = x.month ∧ y.number ≤ x.number) = ms.filter fun y => y.month = x.month :=
    filter_congr fun y hy => by simp [Nat.le_of_lt (hnew y hy)]
  rw [monthlyUpTo, filter_append, hold, map_append]
  simp

theorem Exact.append (h : Exact ms c) (hnew : ∀ y ∈ ms, y.number < x.number) : Exact (ms ++ [x]) c := by
  obtain ⟨y, hy, hmonth, hnumber⟩ := h.last
  refine ⟨?_, y, mem_append_left _ hy, hmonth, hnumber⟩
  have hx : ¬(x.month = c.yearMonth ∧ x.number ≤ c.lastSnapshotSequenceNumber) := by have := hnew y hy; omega
  simpa [monthlyUpTo, hx] using h.fold

theorem Whole.append (h : Whole ms c) (hne : x.month ≠ c.yearMonth) : Whole (ms ++ [x]) c := by
  intro y hy hmonth
  rcases mem_append.mp hy with hy | hy
  · exact h y hy hmonth
  · exact absurd (mem_singleton.mp hy ▸ hmonth) hne

theorem Preceded.append (h : Preceded ms cs month) (hle : month ≤ x.month) : Preceded (ms ++ [x]) cs month := by
  intro y hy hlt
  rcases mem_snoc.mp hy with hy | rfl
  · obtain ⟨c, hc, hmonth, hwhole⟩ := h y hy hlt
    exact ⟨c, hc, hmonth, hwhole.append (by omega)⟩
  · omega

theorem Preceded.mono {cs' : List PersistedSnapshotCheckpoint} (h : Preceded ms cs month)
    (hsub : ∀ c ∈ cs, Whole ms c → c ∈ cs') : Preceded ms cs' month := by
  intro y hy hlt
  obtain ⟨c, hc, hmonth, hwhole⟩ := h y hy hlt
  exact ⟨c, hsub c hc hwhole, hmonth, hwhole⟩

theorem mem_putCheckpoint (hcs : ∀ d ∈ cs, Exact ms d) (hc : Exact ms c)
    {d : PersistedSnapshotCheckpoint} : d ∈ putCheckpoint cs c ↔ d ∈ cs ∨ d = c := by
  simp only [putCheckpoint, mem_append, mem_filter, mem_singleton, decide_eq_true_eq]
  refine ⟨Or.imp_left And.left, fun h => h.elim (fun hd => ?_) .inr⟩
  by_cases hpath : d.yearMonth = c.yearMonth ∧ d.lastSnapshotSequenceNumber = c.lastSnapshotSequenceNumber
  · refine .inr ?_
    rw [(hcs d hd).fold, hpath.1, hpath.2]
    exact hc.fold.symm
  · exact .inl ⟨hd, hpath⟩

end Append

/-- A manifest adds files under ids that no manifest has used, and removes files that one lists. -/
def Persister.FreshFiles (ms : List StoredSnapshot) (m : PersistedSnapshot) : Prop :=
  ((entries m.databases).map entryId).Nodup ∧
    (∀ e ∈ entries m.databases, ∀ x ∈ ms, entryId e ∉ (entries x.snapshot.databases).map entryId ∧
      entryId e ∉ (entries x.snapshot.removedFiles).map entryId) ∧
    ∀ e ∈ entries m.removedFiles, ∃ d ∈ ms.map snapshot ++ [m], e ∈ entries d.databases

instance (ms : List StoredSnapshot) (m : PersistedSnapshot) : Decidable (Persister.FreshFiles ms m) :=
  inferInstanceAs (Decidable (_ ∧ _ ∧ _))

structure Stored (ms : List StoredSnapshot) (cs : List PersistedSnapshotCheckpoint) (month : Nat) : Prop where
  history : History ms
  past : ∀ x ∈ ms, x.month ≤ month
  exact : ∀ c ∈ cs, Exact ms c
  preceded : ∀ c ∈ cs, Preceded ms cs c.yearMonth

namespace Stored
variable {ms : List StoredSnapshot} {cs : List PersistedSnapshotCheckpoint} {c : PersistedSnapshotCheckpoint}
  {month : Nat}

section
variable (h : Stored ms cs month)
include h

theorem advance (months : Nat) : Stored ms cs (month + months) :=
  { h with past := fun x hx => Nat.le_trans (h.past x hx) (Nat.le_add_right _ _) }

theorem append_snapshot {m : PersistedSnapshot} (hnewest : Persister.Admissible ms m)
    (hfiles : Persister.FreshFiles ms m) : Stored (ms ++ [⟨m, month⟩]) cs month := by
  obtain ⟨hnodup, hfresh, hremoved⟩ := hfiles
  refine ⟨⟨?_, ?_⟩, ?_, fun c hc => (h.exact c hc).append hnewest, fun c hc => ?_⟩
  · rw [map_append]
    refine h.history.sound.append ?_ hnodup ?_ hremoved
    · exact forall_mem_map.mpr hnewest
    · exact fun e he => forall_mem_map.mpr (hfresh e he)
  · refine pairwise_append.mpr ⟨h.history.months, pairwise_singleton _ _, fun x hx y hy => ?_⟩
    rw [mem_singleton.mp hy]
    exact h.past x hx
  · intro x hx
    rcases mem_append.mp hx with hx | hx
    · exact h.past x hx
    · rw [mem_singleton.mp hx]
  · obtain ⟨x, hx, hmonth, -⟩ := (h.exact c hc).last
    exact (h.preceded c hc).append (hmonth ▸ h.past x hx)

theorem put (hc : Exact ms c) (hpreceded : Preceded ms cs c.yearMonth) : Stored ms (putCheckpoint cs c) month := by
  have hmem {d : PersistedSnapshotCheckpoint} := mem_putCheckpoint (d := d) h.exact hc
  refine { h with
    exact := fun d hd => ?_
    preceded := fun d hd => Preceded.mono ?_ fun e he _ => hmem.mpr (.inl he) }
  · exact (hmem.mp hd).elim (h.exact d) fun heq => heq ▸ hc
  · exact (hmem.mp hd).elim (h.preceded d) fun heq => heq ▸ hpreceded

variable (hc : Persister.Superseded cs c)
include hc

private theorem not_whole_of_superseded : ¬ Whole ms c := by
  intro hwhole
  obtain ⟨d, hd⟩ := exists_mem_of_length_pos (Nat.lt_of_lt_of_le (by decide) hc)
  simp only [mem_filter, decide_eq_true_eq] at hd
  obtain ⟨x, hx, hmonth, hnumber⟩ := (h.exact d hd.1).last
  have := hwhole x hx (hmonth.trans hd.2.1)
  omega

theorem cleanup : Stored ms (cs.filter fun d => d ≠ c) month := by
  have hkept : ∀ d ∈ cs, Whole ms d → d ∈ cs.filter fun d => d ≠ c := fun d hd hwhole =>
    mem_filter.mpr ⟨hd, decide_eq_true fun heq => h.not_whole_of_superseded hc (heq ▸ hwhole)⟩
  refine { h with
    exact := fun d hd => h.exact d (mem_filter.mp hd).1
    preceded := fun d hd => (h.preceded d (mem_filter.mp hd).1).mono hkept }

end

end Stored

structure Current (ms : List StoredSnapshot) (cached : CachedCheckpoint) : Prop where
  exact : Exact ms cached.checkpoint
  newest : ∀ x ∈ ms, x.number ≤ cached.checkpoint.lastSnapshotSequenceNumber
  index : Indexes cached.fileIndex cached.checkpoint.databases

namespace Current
variable {ms : List StoredSnapshot} {cached : CachedCheckpoint} {m : PersistedSnapshot} {month : Nat}

theorem whole (h : Current ms cached) : Whole ms cached.checkpoint := fun x hx _ => h.newest x hx

private theorem eq_fold (h : Current ms cached) (hist : History ms) : cached = foldSnapshots cached.checkpoint.yearMonth
      ((ms.filter fun x => x.month = cached.checkpoint.yearMonth).map snapshot) := by
  have hmonth : monthlyUpTo ms cached.checkpoint.yearMonth cached.checkpoint.lastSnapshotSequenceNumber =
      (ms.filter fun x => x.month = cached.checkpoint.yearMonth).map snapshot :=
    congrArg (List.map _) (filter_congr fun x hx => by simp [h.newest x hx])
  have hfold := h.exact.fold
  rw [hmonth] at hfold
  have htracks := tracks_foldSnapshots cached.checkpoint.yearMonth
    (hist.sound.sublist ((filter_sublist (p := fun x => x.month = cached.checkpoint.yearMonth)).map _))
  have hdatabases := congrArg PersistedSnapshotCheckpoint.databases hfold
  exact CachedCheckpoint.ext hfold
    (funext fun i => Option.ext fun k => ((hdatabases ▸ h.index) i k).trans (htracks.index i k).symm)

private theorem of_fold (hist : History (ms ++ [⟨m, month⟩]))
    (hfold : cached = foldSnapshots month ((ms.filter fun x => x.month = month).map snapshot)) :
    Current (ms ++ [⟨m, month⟩]) (cached.applySnapshot m) ∧ (cached.applySnapshot m).checkpoint.yearMonth = month := by
  have hnew : ∀ y ∈ ms, y.number < m.snapshotSequenceNumber := fun y hy =>
    hist.numbers.lt_of_append hy (mem_singleton_self _)
  have hsegment := monthlyUpTo_append_self (x := ⟨m, month⟩) hnew
  have happly : cached.applySnapshot m =
      foldSnapshots month (monthlyUpTo (ms ++ [⟨m, month⟩]) month m.snapshotSequenceNumber) := by
    rw [hsegment, foldSnapshots_append, ← hfold]
  have hmonth : (cached.applySnapshot m).checkpoint.yearMonth = month := by
    rw [happly, foldSnapshots_yearMonth]
  have hnumber : (cached.applySnapshot m).checkpoint.lastSnapshotSequenceNumber = m.snapshotSequenceNumber :=
    congrArg (fun n => n.2.1) (numbers_applySnapshot cached m)
  refine ⟨⟨⟨?_, ⟨m, month⟩, by simp, hmonth.symm, hnumber.symm⟩, fun y hy => ?_, ?_⟩, hmonth⟩
  · rw [hmonth, hnumber]
    exact congrArg CachedCheckpoint.checkpoint happly
  · rw [hnumber]
    exact hist.numbers.le_getLast List.getLast?_concat y hy
  · rw [happly]
    exact (tracks_foldSnapshots month (hist.sound.sublist (filter_sublist.map _))).index

end Current

variable {ms : List StoredSnapshot} {cs : List PersistedSnapshotCheckpoint}

variable {month now : Nat}

private theorem exact_of_month (hist : History ms) (hmonth : ∃ x ∈ ms, x.month = month)
    {c : PersistedSnapshotCheckpoint}
    (hc : c = (foldSnapshots month ((ms.filter fun x => x.month = month).map snapshot)).checkpoint) :
    c.yearMonth = month ∧ Exact ms c ∧ Whole ms c := by
  obtain ⟨x, hx, hxmonth⟩ := hmonth
  have hmem {z : StoredSnapshot} (hz : z ∈ ms) (hzmonth : z.month = month) :
      z ∈ ms.filter fun x => x.month = month := mem_filter.mpr ⟨hz, decide_eq_true hzmonth⟩
  obtain ⟨init, y, hlist⟩ := (eq_nil_or_concat _).resolve_left (ne_nil_of_mem (hmem hx hxmonth))
  rw [concat_eq_append] at hlist
  obtain ⟨hy, hymonth⟩ := mem_filter.mp (hlist ▸ mem_append_right init (mem_singleton_self y))
  have hyearMonth : c.yearMonth = month := by rw [hc, foldSnapshots_yearMonth]
  have hnumber : c.lastSnapshotSequenceNumber = y.number := by
    rw [hc, hlist, map_append, map_singleton, foldSnapshots_number]
  have hlast : ∀ z ∈ ms, z.month = month → z.number ≤ y.number := fun z hz hzmonth =>
    (hist.numbers.filter _).le_getLast (hlist ▸ List.getLast?_concat) z (hmem hz hzmonth)
  refine ⟨hyearMonth, ⟨?_, y, hy, (of_decide_eq_true hymonth).trans hyearMonth.symm, hnumber.symm⟩, ?_⟩
  · rw [hyearMonth, hnumber, monthlyUpTo]
    refine hc.trans (congrArg (fun l => (foldSnapshots month (List.map _ l)).checkpoint) ?_)
    exact filter_congr fun z hz => Bool.eq_iff_iff.mpr (by simpa using hlast z hz)
  · intro z hz hzmonth
    exact hnumber ▸ hlast z hz (hzmonth.trans hyearMonth)

structure Building (ms : List StoredSnapshot) (cs : List PersistedSnapshotCheckpoint) (month : Nat)
    (b : BackgroundBuild) : Prop where
  ordered : Increasing Prod.fst b.remaining
  loaded : ∀ g ∈ b.remaining, (∃ x ∈ ms, x.month = g.1) ∧
    g.2.reverse = (ms.filter fun x => x.month = g.1).map StoredSnapshot.snapshot
  settled : ∀ x ∈ ms, (∃ g ∈ b.remaining, g.1 = x.month) ∨ ∃ c ∈ cs, c.yearMonth = x.month ∧ Whole ms c
  past : ∀ x ∈ ms, x.month ≤ b.currentMonth
  started : b.currentMonth ≤ month
  kept : ∀ c ∈ b.currentMonthCheckpoint, c.yearMonth = b.currentMonth ∧ Exact ms c ∧ Whole ms c
  built : ∀ x ∈ ms, x.month = b.currentMonth → (∃ g ∈ b.remaining, g.1 = x.month) ∨ b.currentMonthCheckpoint.isSome

structure Running (ms : List StoredSnapshot) (cs : List PersistedSnapshotCheckpoint) (month : Nat)
    (p : Process) : Prop where
  current : ∀ cached ∈ p.cachedCheckpoint, Current ms cached
  puts : ∀ c ∈ p.previousMonthPuts, Exact ms c ∧ Whole ms c ∧
    ∃ cached ∈ p.cachedCheckpoint, c.yearMonth < cached.checkpoint.yearMonth
  settled : p.build = none → ∀ x ∈ ms,
    (∃ c, (c ∈ cs ∨ c ∈ p.previousMonthPuts) ∧ c.yearMonth = x.month ∧ Whole ms c) ∨
      ∃ cached ∈ p.cachedCheckpoint, cached.checkpoint.yearMonth = x.month
  cold : p.build = none → p.cachedCheckpoint = none → ∀ x ∈ ms, x.month < month
  building : ∀ b ∈ p.build, p.cachedCheckpoint = none ∧ Building ms cs month b

variable {b : BackgroundBuild} {rest : List (Nat × List PersistedSnapshot)} {loaded : List PersistedSnapshot}

namespace Running
variable {ms : List StoredSnapshot} {cs cs' : List PersistedSnapshotCheckpoint} {month month' : Nat}
  {p : Process} {cached : CachedCheckpoint} {c : PersistedSnapshotCheckpoint}

section
variable (h : Running ms cs month p)
include h

private theorem build_eq_none (hcached : p.cachedCheckpoint = some cached) : p.build = none :=
  Option.eq_none_iff_forall_ne_some.mpr fun b hb => Option.some_ne_none cached
    (hcached.symm.trans (h.building b hb).1)

theorem mono (hsub : ∀ c ∈ cs, Whole ms c → c ∈ cs') (hle : month ≤ month') : Running ms cs' month' p where
  __ := h
  settled := fun hbuild x hx => (h.settled hbuild x hx).imp_left fun ⟨c, hc, hmonth, hwhole⟩ =>
    ⟨c, hc.imp_left fun hc => hsub c hc hwhole, hmonth, hwhole⟩
  cold := fun hbuild hcached x hx => Nat.lt_of_lt_of_le (h.cold hbuild hcached x hx) hle
  building := fun b hb => by
    obtain ⟨hnone, hb⟩ := h.building b hb
    refine ⟨hnone, { hb with
      settled := fun x hx => (hb.settled x hx).imp_right fun ⟨c, hc, hmonth, hwhole⟩ =>
        ⟨c, hsub c hc hwhole, hmonth, hwhole⟩
      started := Nat.le_trans hb.started hle }⟩

theorem preceded {month : Nat} (hcached : p.cachedCheckpoint = some cached) (hle : month ≤ cached.checkpoint.yearMonth)
    (hsafe : ∀ d ∈ p.previousMonthPuts, month ≤ d.yearMonth) : Preceded ms cs month := by
  intro x hx hlt
  rcases h.settled (h.build_eq_none hcached) x hx with ⟨c, hc | hc, hmonth, hwhole⟩ | ⟨other, hother, hmonth⟩
  · exact ⟨c, hc, hmonth, hwhole⟩
  · have := hsafe c hc
    omega
  · have heq : other = cached := some.inj (hother.symm.trans hcached)
    subst heq
    omega

private theorem erase_put (hc : c ∈ cs) :
    Running ms cs month { p with previousMonthPuts := p.previousMonthPuts.erase c } := by
  refine { h with
    puts := fun d hd => h.puts d (mem_of_mem_erase hd)
    settled := fun hbuild x hx => (h.settled hbuild x hx).imp_left fun ⟨d, hd, hmonth, hwhole⟩ => ?_ }
  refine ⟨d, hd.elim .inl fun hd => ?_, hmonth, hwhole⟩
  by_cases heq : d = c
  · exact .inl (heq ▸ hc)
  · exact .inr ((mem_erase_of_ne heq).mpr hd)

private theorem of_building (hnone : p.cachedCheckpoint = none) (hbuilding : Building ms cs' month b) :
    Running ms cs' month { p with build := some b } :=
  ⟨h.current, h.puts, nofun, nofun, fun _ hb => some.inj hb ▸ ⟨hnone, hbuilding⟩⟩

end

private theorem filter_month_eq_nil (h : ∀ x ∈ ms, x.month < month) : (ms.filter fun x => x.month = month) = [] :=
  filter_eq_nil_iff.mpr fun x hx => by simpa using Nat.ne_of_lt (h x hx)

variable (h : Running ms cs month p)
include h

/-- The cache a manifest is applied to holds the month so far, and what precedes the month is
stored or on its way. -/
theorem rollover (hstored : Stored ms cs month) (hbuild : p.build = none) :
    (p.rollover month).1 = foldSnapshots month ((ms.filter fun x => x.month = month).map snapshot) ∧
      (∀ c ∈ (p.rollover month).2, Exact ms c ∧ Whole ms c ∧ c.yearMonth < month) ∧
      ∀ x ∈ ms, x.month < month → ∃ c, (c ∈ cs ∨ c ∈ (p.rollover month).2) ∧ c.yearMonth = x.month ∧ Whole ms c := by
  unfold Process.rollover
  cases hcached : p.cachedCheckpoint with
  | none =>
    have hempty := filter_month_eq_nil (h.cold hbuild hcached)
    refine ⟨by rw [hempty]; rfl, fun c hc => ?_, fun x hx _ => ?_⟩
    · obtain ⟨-, -, cached, hsome, -⟩ := h.puts c hc
      exact absurd (hcached.symm.trans hsome) (Option.some_ne_none cached).symm
    · exact (h.settled hbuild x hx).resolve_right fun ⟨cached, hsome, _⟩ =>
        (Option.some_ne_none cached) (hsome.symm.trans hcached)
  | some cached =>
    have hcurrent := h.current cached hcached
    have hputs : ∀ c ∈ p.previousMonthPuts, Exact ms c ∧ Whole ms c ∧ c.yearMonth < cached.checkpoint.yearMonth := by
      intro c hc
      obtain ⟨hexact, hwhole, other, hother, hlt⟩ := h.puts c hc
      exact ⟨hexact, hwhole, some.inj (hother.symm.trans hcached) ▸ hlt⟩
    have hsettled : ∀ x ∈ ms, (∃ c, (c ∈ cs ∨ c ∈ p.previousMonthPuts) ∧ c.yearMonth = x.month ∧ Whole ms c) ∨
        cached.checkpoint.yearMonth = x.month := fun x hx => (h.settled hbuild x hx).imp_right
      fun ⟨other, hother, hmonth⟩ => some.inj (hother.symm.trans hcached) ▸ hmonth
    by_cases hsame : cached.checkpoint.yearMonth = month
    · simp only [hsame, if_true]
      refine ⟨hsame ▸ hcurrent.eq_fold hstored.history, hsame ▸ hputs, fun x hx hlt => ?_⟩
      exact (hsettled x hx).resolve_right (by omega)
    · simp only [hsame, if_false]
      obtain ⟨y, hy, hymonth, hynumber⟩ := hcurrent.exact.last
      have hlt : cached.checkpoint.yearMonth < month :=
        Nat.lt_of_le_of_ne (hymonth ▸ hstored.past y hy) hsame
      have hempty := filter_month_eq_nil fun x hx =>
        Nat.lt_of_le_of_lt (hymonth ▸ hstored.history.month_le hx hy (hynumber ▸ hcurrent.newest x hx)) hlt
      refine ⟨by rw [hempty]; rfl, fun c hc => ?_, fun x hx _ => ?_⟩
      · rcases mem_snoc.mp hc with hc | rfl
        · obtain ⟨hexact, hwhole, hltc⟩ := hputs c hc
          exact ⟨hexact, hwhole, Nat.lt_trans hltc hlt⟩
        · exact ⟨hcurrent.exact, hcurrent.whole, hlt⟩
      · rcases hsettled x hx with ⟨c, hc, hmonth, hwhole⟩ | hmonth
        · exact ⟨c, hc.imp_right (mem_append_left _), hmonth, hwhole⟩
        · exact ⟨cached.checkpoint, .inr (by simp), hmonth, hcurrent.whole⟩

theorem persistSnapshot (hstored : Stored ms cs month) {m : PersistedSnapshot}
    (hm : Persister.Admissible ms m) (hfiles : Persister.FreshFiles ms m) (hbuild : p.build = none) :
    Running (ms ++ [⟨m, month⟩]) cs month (p.updateCachedCheckpoint month m) := by
  have hstored' := hstored.append_snapshot hm hfiles
  obtain ⟨hfold, hputs, hearlier⟩ := h.rollover hstored hbuild
  obtain ⟨hcurrent, hmonth⟩ := Current.of_fold hstored'.history hfold
  refine ⟨fun cached hcached => ?_, fun c hc => ?_, fun _ x hx => ?_, nofun, fun b hb => ?_⟩
  · exact some.inj hcached ▸ hcurrent
  · obtain ⟨hexact, hwhole, hlt⟩ := hputs c hc
    exact ⟨hexact.append hm, hwhole.append (Nat.ne_of_gt hlt), _, rfl, Nat.lt_of_lt_of_eq hlt hmonth.symm⟩
  · rcases Nat.eq_or_lt_of_le (hstored'.past x hx) with heq | hlt
    · exact .inr ⟨_, rfl, hmonth.trans heq.symm⟩
    · rcases mem_snoc.mp hx with hx | rfl
      · obtain ⟨c, hc, hcmonth, hwhole⟩ := hearlier x hx hlt
        exact .inl ⟨c, hc, hcmonth, hwhole.append (by dsimp only; omega)⟩
      · exact absurd hlt (Nat.lt_irrefl _)
  · exact nomatch (hbuild.symm.trans hb)

end Running

section Start
variable {ms : List StoredSnapshot} {cs l : List PersistedSnapshotCheckpoint} {month : Nat}
  {c : PersistedSnapshotCheckpoint} {minSequence : Nat} {cutoff : Option Nat}

private theorem Current.of_whole (hist : History ms) (hexact : Exact ms c) (hwhole : Whole ms c)
    (hlast : ∀ x ∈ ms, x.month ≤ c.yearMonth) : Current ms ⟨c, buildFileIndex c.databases⟩ := by
  refine ⟨hexact, fun x hx => ?_, buildFileIndex_indexes ?_⟩
  · rcases Nat.eq_or_lt_of_le (hlast x hx) with heq | hlt
    · exact hwhole x hx heq
    · obtain ⟨y, hy, hmonth, hnumber⟩ := hexact.last
      exact hnumber ▸ Nat.le_of_lt (hist.number_lt hx hy (hmonth ▸ hlt))
  · have hsound := hist.sound.sublist ((filter_sublist
      (p := fun x => x.month = c.yearMonth ∧ x.number ≤ c.lastSnapshotSequenceNumber)).map snapshot)
    have hlive := (congrArg PersistedSnapshotCheckpoint.databases hexact.fold).trans
      (tracks_foldSnapshots c.yearMonth hsound).databases
    rw [hlive]
    exact hsound.wellFormed.distinct.sublist (filter_sublist.map _)

private theorem mem_of_mem_overlapping (h : c ∈ overlapping minSequence l) : c ∈ l := by
  induction l with
  | nil => exact h
  | cons d l ih =>
    unfold overlapping at h
    split at h
    · exact (mem_cons.mp h).elim (fun h => h ▸ mem_cons_self) fun h => mem_cons_of_mem _ (ih h)
    · exact mem_cons_of_mem _ (ih h)

private theorem mem_overlapping (h : c ∈ l) (hmin : minSequence ≤ c.lastSnapshotSequenceNumber) :
    c ∈ overlapping minSequence l := by
  induction l with
  | nil => exact h
  | cons d l ih =>
    unfold overlapping
    rcases mem_cons.mp h with rfl | h
    · rw [if_pos (.inl hmin)]
      exact mem_cons_self
    · split
      · exact mem_cons_of_mem _ (ih h)
      · exact ih h

private theorem latest_of_mem_loaded (h : c ∈ listLatestCheckpointsPerMonth cs cutoff) :
    latestOfMonth cs c.yearMonth = some c := by
  have hmem : c ∈ latestPerMonth cs := by
    cases cutoff with
    | none => exact h
    | some n => exact mem_of_mem_overlapping h
  obtain ⟨m, -, hlatest⟩ := mem_filterMap.mp hmem
  rw [(latestOfMonth_spec hlatest).2.1]
  exact hlatest

private theorem mem_loaded_of_latest (hlatest : latestOfMonth cs month = some c)
    (hmin : ∀ n ∈ cutoff, n ≤ c.lastSnapshotSequenceNumber) : c ∈ listLatestCheckpointsPerMonth cs cutoff := by
  obtain ⟨hc, hmonth, -⟩ := latestOfMonth_spec hlatest
  have hmem : c ∈ latestPerMonth cs :=
    mem_filterMap.mpr ⟨month, mem_sortedMonths.mpr (mem_map.mpr ⟨c, hc, hmonth⟩), hlatest⟩
  cases cutoff with
  | none => exact hmem
  | some n => exact mem_overlapping hmem (hmin n rfl)

theorem Stored.settled (h : Stored ms cs month)
    (hcover : ∀ x ∈ ms, ∃ c ∈ cs, x.number ≤ c.lastSnapshotSequenceNumber) {x : StoredSnapshot} (hx : x ∈ ms) :
    ∃ c ∈ cs, c.yearMonth = x.month ∧ Whole ms c := by
  obtain ⟨init, y, hlist⟩ := (eq_nil_or_concat ms).resolve_left (ne_nil_of_mem hx)
  have hy : y ∈ ms := by simp [hlist]
  have hnewest := h.history.numbers.le_getLast (x := y) (by simp [hlist])
  obtain ⟨c, hc, hreach⟩ := hcover y hy
  obtain ⟨z, hz, hzmonth, hznumber⟩ := (h.exact c hc).last
  have hmonth := h.history.month_le hx hz (by have := hnewest x hx; omega)
  rcases Nat.eq_or_lt_of_le hmonth with heq | hlt
  · refine ⟨c, hc, by omega, fun w hw _ => ?_⟩
    have := hnewest w hw
    omega
  · exact h.preceded c hc x hx (hzmonth ▸ hlt)

end Start

/-- The month at the head of a build is whole, and all earlier ones are stored. -/
theorem Building.head (h : Building ms cs now b) (hist : History ms)
    (hremaining : b.remaining = (month, loaded) :: rest) :
    (foldSnapshots month loaded.reverse).checkpoint.yearMonth = month ∧
      Exact ms (foldSnapshots month loaded.reverse).checkpoint ∧
      Whole ms (foldSnapshots month loaded.reverse).checkpoint ∧ Preceded ms cs month := by
  have hhead : (month, loaded) ∈ b.remaining := hremaining ▸ mem_cons_self
  obtain ⟨hsome, hall⟩ := h.loaded _ hhead
  obtain ⟨hmonth, hexact, hwhole⟩ :=
      exact_of_month hist hsome (congrArg (fun l => (foldSnapshots month l).checkpoint) hall)
  refine ⟨hmonth, hexact, hwhole, fun x hx hlt => (h.settled x hx).resolve_left fun ⟨g, hg, hgx⟩ => ?_⟩
  have hordered := h.ordered
  rw [hremaining] at hg hordered
  rcases mem_cons.mp hg with rfl | hg
  · exact absurd hgx (Nat.ne_of_gt hlt)
  · have := (pairwise_cons.mp hordered).1 g hg
    omega

theorem Building.next {cs' : List PersistedSnapshotCheckpoint} (h : Building ms cs now b)
    (hist : History ms) (hremaining : b.remaining = (month, loaded) :: rest) (hsub : ∀ c ∈ cs, c ∈ cs')
    (hmem : (foldSnapshots month loaded.reverse).checkpoint ∈ cs') :
    Building ms cs' now (b.next month loaded rest) := by
  obtain ⟨hmonth, hexact, hwhole, -⟩ := h.head hist hremaining
  have hrest {g : Nat × List PersistedSnapshot} (hg : g ∈ b.remaining) : g = (month, loaded) ∨ g ∈ rest :=
    mem_cons.mp (hremaining ▸ hg)
  refine ⟨?_, fun g hg => h.loaded g (hremaining ▸ mem_cons_of_mem _ hg), fun x hx => ?_, h.past, h.started,
    fun c hc => ?_, fun x hx hcurrent => ?_⟩
  · exact (pairwise_cons.mp (hremaining ▸ h.ordered)).2
  · rcases h.settled x hx with ⟨g, hg, hgx⟩ | ⟨c, hc, hcx⟩
    · rcases hrest hg with rfl | hg
      · exact .inr ⟨_, hmem, hmonth.trans hgx, hwhole⟩
      · exact .inl ⟨g, hg, hgx⟩
    · exact .inr ⟨c, hsub c hc, hcx⟩
  · by_cases hthis : month = b.currentMonth
    · simp only [BackgroundBuild.next, hthis, if_true, Option.mem_def, some.injEq] at hc
      subst hc hthis
      exact ⟨hmonth, hexact, hwhole⟩
    · simp only [BackgroundBuild.next, hthis, if_false] at hc
      exact h.kept c hc
  · by_cases hthis : month = b.currentMonth
    · exact .inr (by simp [BackgroundBuild.next, hthis])
    · simp only [BackgroundBuild.next, hthis, if_false]
      refine (h.built x hx hcurrent).imp_left fun ⟨g, hg, hgx⟩ => ⟨g, (hrest hg).resolve_left ?_, hgx⟩
      rintro rfl
      exact hthis (hgx.trans hcurrent)

theorem Running.finishBuild {p : Process} (h : Running ms cs month p)
    (hist : History ms) (hb : p.build = some b) (hremaining : b.remaining = []) :
    Running ms cs month (p.finishBuild b) := by
  obtain ⟨hnone, hbuild⟩ := h.building b hb
  have hputs : p.previousMonthPuts = [] := eq_nil_iff_forall_not_mem.mpr fun c hc => by
    obtain ⟨-, -, cached, hcached, -⟩ := h.puts c hc
    exact absurd (hnone.symm.trans hcached) (Option.some_ne_none cached).symm
  have hleft {x : StoredSnapshot} : ¬ ∃ g ∈ b.remaining, g.1 = x.month := by simp [hremaining]
  have hsettled : ∀ x ∈ ms, ∃ c, (c ∈ cs ∨ c ∈ p.previousMonthPuts) ∧ c.yearMonth = x.month ∧ Whole ms c := by
    intro x hx
    obtain ⟨c, hc, hcx⟩ := (hbuild.settled x hx).resolve_left hleft
    exact ⟨c, .inl hc, hcx⟩
  unfold Process.finishBuild
  cases hkept : b.currentMonthCheckpoint with
  | some c =>
    obtain ⟨hmonth, hexact, hwhole⟩ := hbuild.kept c hkept
    have hcurrent := Current.of_whole hist hexact hwhole fun x hx => hmonth ▸ hbuild.past x hx
    simp only [Process.warmCheckpointCache, hnone, Option.isSome_none, Bool.false_eq_true, if_false]
    exact ⟨fun _ hcached => some.inj hcached ▸ hcurrent, fun _ hc => (nomatch (hputs ▸ hc)),
      fun _ x hx => .inl (hsettled x hx), nofun, nofun⟩
  | none =>
    refine ⟨h.current, h.puts, fun _ x hx => .inl (hsettled x hx), fun _ _ x hx => ?_, nofun⟩
    refine Nat.lt_of_lt_of_le (Nat.lt_of_le_of_ne (hbuild.past x hx) fun heq => ?_) hbuild.started
    simpa [hkept] using (hbuild.built x hx heq).resolve_left hleft

namespace Persister

/-- A start-up finds a checkpoint of the newest manifest or loads every one; files are new, and removals listed;
nothing is persisted during a build; a checkpoint follows the month-end writes of all earlier months, and these do not
fail. -/
def Safe (n : Nat) (s : Persister) : Action → Prop
  | .persistSnapshot m => FreshFiles s.snapshots m ∧ ∀ p ∈ s.process, p.build.isNone
  | .persistSnapshotThenCrash m => FreshFiles s.snapshots m
  | .persistCheckpoint => ∀ p ∈ s.process, ∀ cached ∈ p.cachedCheckpoint, ∀ d ∈ p.previousMonthPuts,
      cached.checkpoint.yearMonth ≤ d.yearMonth
  | .landPreviousMonth c => ∀ p ∈ s.process, ∀ d ∈ p.previousMonthPuts, c.yearMonth ≤ d.yearMonth
  | .losePreviousMonth c => c ∈ s.checkpoints
  | .start latestKnown listed =>
    if s.loadedCheckpoints n latestKnown listed = [] then
      s.snapshots.length ≤ n ∧ ∀ x ∈ s.snapshots, x.snapshot.maxTime ≠ i64Min
    else ∀ x ∈ s.snapshots, ∃ c ∈ s.checkpoints, x.number ≤ c.lastSnapshotSequenceNumber
  | .buildMonth persisted => persisted = true ∨ ∀ p ∈ s.process, ∀ b ∈ p.build, ∀ g ∈ b.remaining.head?,
      (foldSnapshots g.1 g.2.reverse).checkpoint ∈ s.checkpoints
  | _ => True

instance (n : Nat) (s : Persister) (a : Action) : Decidable (Safe n s a) := by
  cases a <;> dsimp only [Safe] <;> infer_instance

variable {s : Persister} {latestKnown listed : Bool}

private theorem cutoff_le {n k : Nat} (h : ∀ x ∈ s.snapshots, x.number ≤ k) (latestKnown : Bool) :
    ∀ m ∈ (if latestKnown then s.sequenceCutoff n else none), m ≤ k := by
  intro m hm
  cases latestKnown with
  | false => exact nomatch hm
  | true =>
    obtain ⟨y, hy, rfl⟩ := map_eq_some_iff.mp hm
    exact Nat.le_trans (Nat.sub_le _ _) (h y (mem_of_getLast? hy))

private theorem startProcess_of_loaded {n : Nat} (hne : s.loadedCheckpoints n latestKnown listed ≠ []) :
    s.startProcess n latestKnown listed =
      ⟨((s.loadedCheckpoints n latestKnown listed).find? fun c => c.yearMonth = s.month).map
        fun c => ⟨c, buildFileIndex c.databases⟩, [], none, false⟩ := by
  cases hloaded : s.loadedCheckpoints n latestKnown listed with
  | nil => exact absurd hloaded hne
  | cons c cs =>
    cases hfind : (c :: cs).find? (fun c => c.yearMonth = s.month) <;> simp only [startProcess, hloaded, hfind] <;> rfl

section
variable (h : Stored s.snapshots s.checkpoints s.month) {n : Nat}
include h

private theorem running_of_loaded (hne : s.loadedCheckpoints n latestKnown listed ≠ [])
    (hcover : ∀ x ∈ s.snapshots, ∃ c ∈ s.checkpoints, x.number ≤ c.lastSnapshotSequenceNumber) :
    Running s.snapshots s.checkpoints s.month (s.startProcess n latestKnown listed) := by
  have hlisted : listed = true := by
    cases listed with
    | true => rfl
    | false => exact absurd rfl hne
  subst hlisted
  have hwhole {c : PersistedSnapshotCheckpoint} (hlatest : latestOfMonth s.checkpoints s.month = some c) :
      Current s.snapshots ⟨c, buildFileIndex c.databases⟩ := by
    obtain ⟨hc, hmonth, hmax⟩ := latestOfMonth_spec hlatest
    refine Current.of_whole h.history (h.exact c hc) (fun x hx hxmonth => ?_) fun x hx => hmonth ▸ h.past x hx
    obtain ⟨d, hd, hdmonth, hend⟩ := h.settled hcover hx
    exact Nat.le_trans (hend x hx hdmonth.symm) (hmax d hd (by omega))
  have hsettled : ∀ x ∈ s.snapshots, ∃ c ∈ s.checkpoints, c.yearMonth = x.month ∧ Whole s.snapshots c :=
    fun x hx => h.settled hcover hx
  rw [startProcess_of_loaded hne]
  refine ⟨fun cached hcached => ?_, fun c hc => (nomatch hc), fun _ x hx => ?_, fun _ hcold x hx => ?_,
    fun b hb => (nomatch hb)⟩
  · obtain ⟨c, hfind, rfl⟩ := map_eq_some_iff.mp hcached
    have hmonth : c.yearMonth = s.month := by simpa using List.find?_some hfind
    exact hwhole (hmonth ▸ latest_of_mem_loaded (mem_of_find?_eq_some hfind))
  · obtain ⟨c, hc, hmonth, hend⟩ := hsettled x hx
    exact .inl ⟨c, .inl hc, hmonth, hend⟩
  · refine Nat.lt_of_le_of_ne (h.past x hx) fun heq => ?_
    obtain ⟨d, hd, hdmonth, -⟩ := hsettled x hx
    obtain ⟨c, hlatest⟩ := exists_latestOfMonth hd
    rw [hdmonth, heq] at hlatest
    have hloaded := mem_loaded_of_latest hlatest (cutoff_le (n := n) (hwhole hlatest).newest latestKnown)
    have hnone := List.find?_eq_none.mp (Option.map_eq_none_iff.mp hcold) c hloaded
    exact hnone (decide_eq_true (latestOfMonth_spec hlatest).2.1)

private theorem running_of_snapshots (hnil : s.loadedCheckpoints n latestKnown listed = [])
    (hall : s.snapshots.length ≤ n) (hdated : ∀ x ∈ s.snapshots, x.snapshot.maxTime ≠ i64Min) :
    Running s.snapshots s.checkpoints s.month (s.startProcess n latestKnown listed) := by
  have hloaded : s.loadSnapshots n = s.snapshots.reverse := take_of_length_le (by simpa using hall)
  have hkeep : s.snapshots.reverse.filter (fun x => x.snapshot.maxTime ≠ i64Min) = s.snapshots.reverse :=
    filter_eq_self.mpr fun x hx => decide_eq_true (hdated x (mem_reverse.mp hx))
  simp only [startProcess, hnil, hloaded]
  split
  case isTrue hempty =>
    have hms : s.snapshots = [] := reverse_eq_nil_iff.mp hempty
    rw [hms]
    exact ⟨nofun, nofun, nofun,
      nofun, nofun⟩
  case isFalse =>
    refine ⟨nofun, nofun, nofun, nofun,
      fun b hb => ⟨rfl, ?_⟩⟩
    rw [← some.inj hb]
    have hgroup : ∀ x ∈ s.snapshots, ∃ g ∈ groupByMonth s.snapshots.reverse, g.1 = x.month := by
      intro x hx
      simp only [groupByMonth, hkeep, mem_map]
      exact ⟨_, ⟨x.month, mem_sortedMonths.mpr (mem_map_of_mem (mem_reverse.mpr hx)), rfl⟩, rfl⟩
    refine ⟨?_, fun g hg => ?_, fun x hx => .inl (hgroup x hx), h.past, le_rfl, fun c hc => (nomatch hc),
      fun x hx _ => .inl (hgroup x hx)⟩
    · exact (sortedMonths_increasing _).map fun _ => rfl
    · simp only [groupByMonth, hkeep, mem_map] at hg
      obtain ⟨m, hm, rfl⟩ := hg
      obtain ⟨x, hx, hmonth⟩ := mem_map.mp (mem_sortedMonths.mp hm)
      refine ⟨⟨x, mem_reverse.mp hx, hmonth⟩, ?_⟩
      rw [filter_reverse, map_reverse, reverse_reverse]

end

structure Invariant (s : Persister) : Prop where
  stored : Stored s.snapshots s.checkpoints s.month
  running : ∀ p ∈ s.process, Running s.snapshots s.checkpoints s.month p

namespace Invariant
variable {n : Nat} {s s' : Persister} {a : Action}

theorem empty : Invariant Persister.empty :=
  ⟨⟨⟨Sound.nil, .nil⟩, nofun, nofun, nofun⟩,
    nofun⟩

theorem step (h : Invariant s) (hsafe : Safe n s a) (hstep : s.step n a = some s') : Invariant s' := by
  cases stepped_of_step hstep with
  | advance months =>
    exact ⟨h.stored.advance months, fun p hp =>
      (h.running p hp).mono (fun _ hc _ => hc) (Nat.le_add_right _ _)⟩
  | persistSnapshot hp hm =>
    refine ⟨h.stored.append_snapshot hm hsafe.1, fun p' hp' => some.inj hp' ▸ ?_⟩
    exact (h.running _ hp).persistSnapshot h.stored hm hsafe.1 (Option.isNone_iff_eq_none.mp (hsafe.2 _ hp))
  | persistSnapshotThenCrash hm => exact ⟨h.stored.append_snapshot hm hsafe, nofun⟩
  | persistCheckpoint hp hcached =>
    have hrunning := h.running _ hp
    have hcurrent := hrunning.current _ hcached
    have hmem {d : PersistedSnapshotCheckpoint} := mem_putCheckpoint (d := d) h.stored.exact hcurrent.exact
    refine ⟨h.stored.put hcurrent.exact (hrunning.preceded hcached le_rfl (hsafe _ hp _ hcached)),
      fun p' hp' => some.inj hp' ▸ ?_⟩
    have hrunning' := hrunning.mono (fun _ hc _ => hmem.mpr (.inl hc)) le_rfl
    exact { hrunning' with }
  | landPreviousMonth hp hc =>
    have hrunning := h.running _ hp
    obtain ⟨hexact, -, cached, hcached, hmonth⟩ := hrunning.puts _ hc
    have hmem {d : PersistedSnapshotCheckpoint} := mem_putCheckpoint (d := d) h.stored.exact hexact
    refine ⟨h.stored.put hexact (hrunning.preceded hcached (by omega) (hsafe _ hp)), fun p' hp' => some.inj hp' ▸ ?_⟩
    exact (hrunning.mono (fun _ hc _ => hmem.mpr (.inl hc)) le_rfl).erase_put (hmem.mpr (.inr rfl))
  | losePreviousMonth hp =>
    exact ⟨h.stored, fun p' hp' => some.inj hp' ▸ (h.running _ hp).erase_put hsafe⟩
  | cleanup hc =>
    refine ⟨h.stored.cleanup hc, fun p hp => (h.running p hp).mono (fun d hd hwhole => ?_) le_rfl⟩
    exact mem_filter.mpr ⟨hd, decide_eq_true fun heq => h.stored.not_whole_of_superseded hc (heq ▸ hwhole)⟩
  | crash => exact ⟨h.stored, nofun⟩
  | start latestKnown listed =>
    refine ⟨h.stored, fun p' hp' => some.inj hp' ▸ ?_⟩
    simp only [Safe] at hsafe
    split at hsafe
    case isTrue hnil => exact running_of_snapshots h.stored hnil hsafe.1 hsafe.2
    case isFalse hne => exact running_of_loaded h.stored hne hsafe
  | buildMonth persisted hp hb hremaining =>
    have hrunning := h.running _ hp
    obtain ⟨hnone, hbuilding⟩ := hrunning.building _ hb
    obtain ⟨hmonth, hexact, -, hpreceded⟩ := hbuilding.head h.stored.history hremaining
    have hmem {d : PersistedSnapshotCheckpoint} := mem_putCheckpoint (d := d) h.stored.exact hexact
    cases persisted with
    | true =>
      refine ⟨h.stored.put hexact (hmonth.symm ▸ hpreceded), fun p' hp' => some.inj hp' ▸ ?_⟩
      exact hrunning.of_building hnone (hbuilding.next h.stored.history hremaining
        (fun _ hc => hmem.mpr (.inl hc)) (hmem.mpr (.inr rfl)))
    | false =>
      have hstored := (hsafe.resolve_left Bool.false_ne_true) _ hp _ hb _ (congrArg List.head? hremaining)
      refine ⟨h.stored, fun p' hp' => some.inj hp' ▸ ?_⟩
      exact hrunning.of_building hnone (hbuilding.next h.stored.history hremaining (fun _ hc => hc) hstored)
  | finishBuild hp hb hremaining =>
    refine ⟨h.stored, fun p' hp' => some.inj hp' ▸ ?_⟩
    exact (h.running _ hp).finishBuild h.stored.history hb hremaining

end Invariant

end Persister

open Persister

/-- Under the condition, every run keeps every stored checkpoint complete. -/
theorem checkpoints_complete_of_safe {n : Nat} {as : List Action} {s : Persister}
    (hsafe : Guarded (Persister.step n) (Safe n) Persister.empty as)
    (hrun : run (Persister.step n) Persister.empty as = some s) : s.CheckpointsComplete := by
  have h := invariant Invariant.step Invariant.empty hsafe hrun
  exact complete_of_preceded h.stored.history h.stored.exact h.stored.preceded

private def fileNumber (i : Nat) : ParquetFile := ⟨i, "f", 1, 1, 0, 0, 0⟩

private def addingFile (i : Nat) : PersistedSnapshot :=
  ⟨"n", i + 1, i, i, 0, 1, 1, 0, 0, [((0, 1), [fileNumber i])], []⟩

private def removingFile (number i : Nat) : PersistedSnapshot :=
  ⟨"n", number, number, number, 0, 0, 0, 0, 0, [], [((0, 1), [fileNumber i])]⟩

/-- A month end, a restart over the month's checkpoint and a removal of a file of the month before. -/
theorem rollover_and_restart_complete :
    ∃ s, run (Persister.step 1000) Persister.empty [.start true true, .persistSnapshot (addingFile 1),
        .persistSnapshot (addingFile 2), .persistCheckpoint, .advance 1, .persistSnapshot (addingFile 3),
        .landPreviousMonth (foldSnapshots 0 [addingFile 1, addingFile 2]).checkpoint, .persistCheckpoint, .crash,
        .start true true, .persistSnapshot (removingFile 4 1), .persistCheckpoint] = some s ∧
      s.checkpoints.length = 3 ∧ s.CheckpointsComplete := by
  exact exists_and (by decide) fun s hs _ => checkpoints_complete_of_safe (by decide) hs

/-- A snapshot persisted after the last checkpoint and before a crash is missing from the cache
that the restart warms, and from every later checkpoint of the month. -/
theorem warmed_cache_misses_file :
    ¬ ∀ s, run (Persister.step 1000) Persister.empty [.start true true, .persistSnapshot (addingFile 1),
        .persistCheckpoint, .persistSnapshot (addingFile 2), .crash, .start true true,
        .persistSnapshot (addingFile 3), .persistCheckpoint] = some s → s.CheckpointsComplete := by
  simp only [not_forall, exists_prop]
  refine exists_of_decide (fun s => ∃ c ∈ s.checkpoints,
      (mergeCheckpoints (latestUpTo s.checkpoints c)).any (fun m => ((0, 1), fileNumber 2) ∉ m.databases) ∧
        fileNumber 2 ∈ (PersistedFiles.newFromPersistedSnapshots
          (s.snapshotsUpTo c.lastSnapshotSequenceNumber)).files (0, 1))
    (by decide) fun s _ ⟨c, hc, hmissing, hmem⟩ hall => ?_
  obtain ⟨merged, hmerged, hfiles⟩ := hall c hc
  rw [hmerged, Option.any_some] at hmissing
  exact of_decide_eq_true hmissing ((hfiles (0, 1) (fileNumber 2)).mpr hmem)

end VarveDB.Checkpoint
