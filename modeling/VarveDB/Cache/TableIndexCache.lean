import VarveDB.Library.IndexMap
import VarveDB.Library.Runs

/-! The eviction of cached table indices by the recorded time of their last access. -/
namespace VarveDB.TableIndexCache
open Library Runs List

/-- The recorded time, and that of the last creation or touch. Times are nanoseconds since the start. -/
structure CachedTableIndex where
  lastAccessTimeSinceStartNs : Nat
  accessed : Nat
  deriving DecidableEq

namespace CachedTableIndex

def new (now : Nat) : CachedTableIndex := ⟨now, now⟩

def touch (now : Nat) : CachedTableIndex := ⟨now / 1000000, now⟩

def staleDurationNs (cached : CachedTableIndex) (now : Nat) : Nat := now - cached.lastAccessTimeSinceStartNs

end CachedTableIndex

open CachedTableIndex

abbrev TableIndexId := String × Nat × Nat

structure State where
  indices : IndexMap TableIndexId CachedTableIndex
  clock : Nat

def State.new : State := ⟨.empty _, 0⟩

/-- A load may look at every entry: `entries` are the ids with the times at which their staleness was read, in the
order of the unstable sort. `load` is `update_from_object_store`. -/
inductive Action where
  | access (id : TableIndexId) (now : Nat)
  | load (id : TableIndexId) (now finish : Nat) (entries : List (TableIndexId × Nat))
  | getOrLoad (id : TableIndexId) (now finish : Nat) (entries : List (TableIndexId × Nat))
  deriving DecidableEq

namespace State
variable (maxEntries : Option Nat) (s : State) (entries : List (TableIndexId × Nat)) (now finish : Nat)

def staleness (e : TableIndexId × Nat) : Nat := (s.indices.lookup e.1).elim 0 (staleDurationNs · e.2)

/-- The cached entries in ascending order of the stale durations read between the two times. -/
def Ranked : Prop :=
  (entries.map Prod.fst).isPerm s.indices.keys ∧ (∀ e ∈ entries, now ≤ e.2 ∧ e.2 ≤ finish) ∧
    entries.Pairwise fun e e' => s.staleness e ≤ s.staleness e'

instance : Decidable (s.Ranked entries now finish) := inferInstanceAs (Decidable (_ ∧ _ ∧ _))

def evictIfFull : IndexMap TableIndexId CachedTableIndex :=
  match maxEntries with
  | none => s.indices
  | some max =>
    if s.indices.keys.length < max then s.indices
    else
      let toRemove := (entries.reverse.take (s.indices.keys.length - max)).map Prod.fst
      s.indices.retain fun p => p.1 ∉ toRemove

def insert (id : TableIndexId) : State := { s with indices := s.indices.put id (.new now) }

def step : Action → Option State
  | .access id now =>
    if s.clock ≤ now then
      some ⟨if id ∈ s.indices.keys then s.indices.put id (touch now) else s.indices, now⟩
    else none
  | .load id now finish entries =>
    if s.clock ≤ now ∧ now ≤ finish then
      if id ∈ s.indices.keys then some ⟨s.indices.put id (touch now), finish⟩
      else if s.Ranked entries now finish then
        some ⟨(s.evictIfFull maxEntries entries).put id (.new now), finish⟩
      else none
    else none
  | .getOrLoad id now finish entries =>
    if s.clock ≤ now ∧ now ≤ finish then
      if id ∈ s.indices.keys then some { s with clock := finish }
      else if (s.insert now id).Ranked entries now finish then
        some ⟨(s.insert now id).evictIfFull maxEntries entries, finish⟩
      else none
    else none

def OldestEvicted (s s' : State) : Prop :=
  ∀ x cx y cy, s.indices.lookup x = some cx → s.indices.lookup y = some cy → x ∉ s'.indices.keys →
    y ∈ s'.indices.keys → cx.accessed ≤ cy.accessed

/-- The recorded times are in the order of the accesses, further apart than the look at the entries takes. -/
def Legible : Prop :=
  ∀ cx ∈ s.indices.values, ∀ cy ∈ s.indices.values, cx.accessed < cy.accessed →
    cx.lastAccessTimeSinceStartNs + (finish - now) < cy.lastAccessTimeSinceStartNs

instance : Decidable (s.Legible now finish) := inferInstanceAs (Decidable (∀ cx ∈ _, ∀ cy ∈ _, _ → _))

def Past : Prop := ∀ c ∈ s.indices.values, c.lastAccessTimeSinceStartNs ≤ now ∧ c.accessed ≤ now

variable {maxEntries s entries now finish} {s' : State} {id : TableIndexId} {max : Nat}

private theorem mem_values_put {m : IndexMap TableIndexId CachedTableIndex} {c d : CachedTableIndex}
    (h : d ∈ (m.put id c).values) : d = c ∨ d ∈ m.values := by
  obtain ⟨k, hk⟩ := IndexMap.mem_values.mp h
  exact (IndexMap.lookup_of_put hk).imp And.right fun hk => IndexMap.mem_values.mpr ⟨k, hk.2⟩

private theorem values_evictIfFull : (s.evictIfFull maxEntries entries).values ⊆ s.indices.values := by
  unfold evictIfFull
  split
  · exact fun _ h => h
  · split_ifs
    · exact fun _ h => h
    · exact map_subset _ filter_sublist.subset

/-- The first entries stay, up to the maximum. -/
private theorem keys_evictIfFull_perm (max : Nat) (hperm : (entries.map Prod.fst).Perm s.indices.keys) :
    (s.evictIfFull (some max) entries).keys.Perm ((entries.take max).map Prod.fst) := by
  have hlength : entries.length = s.indices.keys.length := by simpa using hperm.length_eq
  simp only [evictIfFull]
  split_ifs with hroom
  · rw [take_of_length_le (by omega)]
    exact hperm.symm
  · have hkeep : s.indices.keys.filter (fun k => k ∉ (entries.drop max).map Prod.fst) =
        IndexMap.keys (s.indices.retain fun p =>
          p.1 ∉ (entries.reverse.take (s.indices.keys.length - max)).map Prod.fst) := by
      rw [take_reverse, hlength, Nat.sub_sub_self (Nat.le_of_not_lt hroom), map_reverse, IndexMap.keys, IndexMap.keys,
        filter_map, KeyedList.entries_retain]
      simp [Function.comp_def]
    have hsplit : entries.map Prod.fst = (entries.take max).map Prod.fst ++ (entries.drop max).map Prod.fst := by
      rw [← map_append, take_append_drop]
    have hnodup := hperm.nodup_iff.mpr s.indices.distinct
    rw [hsplit] at hperm hnodup
    rw [← hkeep]
    refine (hperm.symm.filter _).trans (Perm.of_eq ?_)
    rw [filter_append, filter_eq_self.mpr fun k hk => ?_, filter_eq_nil_iff.mpr fun k hk => ?_, append_nil]
    · simpa using hk
    · exact decide_eq_true fun hmem => (nodup_append.mp hnodup).2.2 _ hk _ hmem rfl

private theorem length_evictIfFull (h : s.Ranked entries now finish) :
    (s.evictIfFull (some max) entries).keys.length = min max s.indices.keys.length := by
  have hlength : entries.length = s.indices.keys.length := by simpa using (isPerm_iff.mp h.1).length_eq
  rw [(keys_evictIfFull_perm max (isPerm_iff.mp h.1)).length_eq, length_map, length_take, hlength]

/-- The order of the stale durations is that of the accesses if the recorded times tell. -/
private theorem oldestEvicted_evictIfFull (h : s.Ranked entries now finish) (hpast : s.Past now)
    (hlegible : s.Legible now finish) (clock : Nat) :
    s.OldestEvicted ⟨s.evictIfFull (some max) entries, clock⟩ := by
  intro x cx y cy hx hy hgone hstays
  obtain ⟨hperm, hread, hsorted⟩ := h
  have hkept := keys_evictIfFull_perm max (isPerm_iff.mp hperm)
  have hxmem : x ∈ s.indices.keys := IndexMap.mem_keys_iff.mpr (by rw [hx]; rfl)
  obtain ⟨ex, hex, rfl⟩ := mem_map.mp ((isPerm_iff.mp hperm).mem_iff.mpr hxmem)
  obtain ⟨ey, hey, rfl⟩ := mem_map.mp (hkept.mem_iff.mp hstays)
  rw [← take_append_drop max entries] at hex hsorted
  have hex : ex ∈ entries.drop max := (mem_append.mp hex).resolve_left fun hex =>
    hgone (hkept.mem_iff.mpr (mem_map_of_mem hex))
  have hle := (pairwise_append.mp hsorted).2.2 ey hey ex hex
  simp only [staleness, hx, hy, elim_some, staleDurationNs] at hle
  by_contra hlt
  have hapart := hlegible cy (IndexMap.mem_values_of_lookup hy) cx (IndexMap.mem_values_of_lookup hx)
    (Nat.lt_of_not_le hlt)
  have hpastx := (hpast cx (IndexMap.mem_values_of_lookup hx)).1
  have hreadx := hread ex (mem_of_mem_drop hex)
  have hready := hread ey (mem_of_mem_take hey)
  omega

namespace Past

theorem mono {later : Nat} (h : s.Past now) (hle : now ≤ later) : s.Past later :=
  fun c hc => (h c hc).imp hle.trans' hle.trans'

theorem evict (h : s.Past now) (clock : Nat) : Past ⟨s.evictIfFull maxEntries entries, clock⟩ now :=
  fun c hc => h c (values_evictIfFull hc)

theorem put {clock : Nat} {c : CachedTableIndex} (h : s.Past now)
    (hc : c.lastAccessTimeSinceStartNs ≤ now ∧ c.accessed ≤ now) : Past ⟨s.indices.put id c, clock⟩ now := by
  intro d hd
  rcases mem_values_put hd with rfl | hd
  · exact hc
  · exact h d hd

theorem insert (h : s.Past now) : (s.insert now id).Past now := h.put ⟨le_rfl, le_rfl⟩

theorem touch (h : s.Past now) {clock : Nat} : Past ⟨s.indices.put id (.touch now), clock⟩ now :=
  h.put ⟨Nat.div_le_self .., le_rfl⟩

theorem step {a : Action} (h : s.Past s.clock) (hstep : s.step maxEntries a = some s') : s'.Past s'.clock := by
  cases a with
  | access id now =>
    obtain ⟨hclock, ⟨⟩⟩ := ite_none_right_eq_some.mp hstep
    dsimp only
    split_ifs
    · exact (h.mono hclock).touch
    · exact h.mono hclock
  | load id now finish entries =>
    obtain ⟨⟨hclock, hfinish⟩, hstep⟩ := ite_none_right_eq_some.mp hstep
    have hnow := h.mono hclock
    split_ifs at hstep <;> cases hstep
    · exact hnow.touch.mono hfinish
    · exact (hnow.evict s.clock).insert.mono hfinish
  | getOrLoad id now finish entries =>
    obtain ⟨⟨hclock, hfinish⟩, hstep⟩ := ite_none_right_eq_some.mp hstep
    have hnow := h.mono hclock
    split_ifs at hstep <;> cases hstep
    · exact hnow.mono hfinish
    · exact (hnow.insert.evict finish).mono hfinish

end Past

private theorem keys_insert_of_mem (h : id ∈ s.indices.keys) : (s.insert now id).indices.keys = s.indices.keys := by
  rw [insert, IndexMap.keys_put, if_pos h]

private theorem oldestEvicted_of_keys_eq (h : s'.indices.keys = s.indices.keys) : s.OldestEvicted s' := by
  intro x cx y cy hx _ hgone
  rw [h, IndexMap.mem_keys_iff, hx] at hgone
  exact absurd rfl hgone

private theorem load_evicts (hpast : s.Past s.clock)
    (hload : s.step (some max) (.load id now finish entries) = some s') :
    (s'.indices.keys.length ≤ max ↔ (s.insert now id).indices.keys.length ≤ max) ∧
      (s.Legible now finish → (s.insert now id).OldestEvicted s') := by
  obtain ⟨⟨hclock, -⟩, hstep⟩ := ite_none_right_eq_some.mp hload
  split_ifs at hstep with hcached hranked
  · cases hstep
    have hkeys : (s.indices.put id (touch now)).keys = (s.insert now id).indices.keys := by
      rw [keys_insert_of_mem hcached, IndexMap.keys_put, if_pos hcached]
    exact ⟨by rw [hkeys], fun _ => oldestEvicted_of_keys_eq hkeys⟩
  · cases hstep
    have hnew : id ∉ (s.evictIfFull (some max) entries).keys := fun hid => by
      obtain ⟨e, he, rfl⟩ := mem_map.mp ((keys_evictIfFull_perm max (isPerm_iff.mp hranked.1)).mem_iff.mp hid)
      exact hcached ((isPerm_iff.mp hranked.1).mem_iff.mp (mem_map_of_mem (mem_of_mem_take he)))
    have hkeys : ((s.evictIfFull (some max) entries).put id (.new now)).keys =
        (s.evictIfFull (some max) entries).keys ++ [id] := by rw [IndexMap.keys_put, if_neg hnew]
    refine ⟨?_, fun hlegible x cx y cy hx hy hgone hstays => ?_⟩
    · rw [hkeys, insert, IndexMap.keys_put, if_neg hcached, length_append, length_append, length_evictIfFull hranked,
        length_singleton]
      omega
    · rw [hkeys, mem_append, not_or, mem_singleton] at hgone
      simp only [insert, IndexMap.lookup_put, if_neg hgone.2] at hx hy
      have hxpast := (hpast cx (IndexMap.mem_values_of_lookup hx)).2
      rcases mem_append.mp (hkeys ▸ hstays) with hstays | hstays
      · have hne : y ≠ id := fun hid => hnew (hid ▸ hstays)
        rw [if_neg hne] at hy
        exact oldestEvicted_evictIfFull hranked (hpast.mono hclock) hlegible 0 x cx y cy hx hy hgone.1 hstays
      · rw [if_pos (mem_singleton.mp hstays)] at hy
        exact some.inj hy ▸ hxpast.trans hclock

private theorem getOrLoad_evicts (hpast : s.Past s.clock)
    (hload : s.step (some max) (.getOrLoad id now finish entries) = some s') :
    (s'.indices.keys.length ≤ max ↔ id ∉ s.indices.keys ∨ s.indices.keys.length ≤ max) ∧
      ((s.insert now id).Legible now finish → (s.insert now id).OldestEvicted s') := by
  obtain ⟨⟨hclock, -⟩, hstep⟩ := ite_none_right_eq_some.mp hload
  split_ifs at hstep with hcached hranked
  · cases hstep
    exact ⟨by simp [hcached], fun _ => oldestEvicted_of_keys_eq (keys_insert_of_mem hcached).symm⟩
  · cases hstep
    refine ⟨?_, fun hlegible => oldestEvicted_evictIfFull hranked (hpast.mono hclock).insert hlegible _⟩
    rw [length_evictIfFull hranked]
    simp [hcached]

/-- An update leaves room only if there was room for the loaded table, and `get_or_load` always after a miss; they
evict the oldest if the recorded times tell. -/
theorem load_evicts_iff {as : List Action} (hrun : run (step (some max)) .new as = some s) :
    (s.step (some max) (.load id now finish entries) = some s' →
      (s'.indices.keys.length ≤ max ↔ (s.insert now id).indices.keys.length ≤ max) ∧
        (s.Legible now finish → (s.insert now id).OldestEvicted s')) ∧
    (s.step (some max) (.getOrLoad id now finish entries) = some s' →
      (s'.indices.keys.length ≤ max ↔ id ∉ s.indices.keys ∨ s.indices.keys.length ≤ max) ∧
        ((s.insert now id).Legible now finish → (s.insert now id).OldestEvicted s')) := by
  have hpast : s.Past s.clock :=
    invariant_of_step (P := fun s : State => s.Past s.clock) Past.step (fun _ hc => absurd hc not_mem_nil) hrun
  exact ⟨load_evicts hpast, getOrLoad_evicts hpast⟩

private def table (id : Nat) : TableIndexId := ("n", 0, id)

private def oneSecondApart : List Action :=
  [.load (table 1) 1000000000 1000000000 [], .load (table 2) 2000000000 2000000000 [(table 1, 2000000000)]]

private def thirdLoad : Action :=
  .load (table 3) 3000000000 3000000007 [(table 2, 3000000000), (table 1, 3000000007)]

private def thirdGet : Action := .getOrLoad (table 3) 3000000000 3000000007
  [(table 3, 3000000000), (table 2, 3000000000), (table 1, 3000000007)]

/-- Two tables are loaded a second apart into a cache for one, and the older ones leave for a third. -/
theorem untouched_oldest_evicted : ∃ s, run (step (some 1)) .new oneSecondApart = some s ∧
    (∃ s', s.step (some 1) thirdLoad = some s' ∧ s'.indices.keys = [table 2, table 3] ∧
      (s.insert 3000000000 (table 3)).OldestEvicted s') ∧
    ∃ s', s.step (some 1) thirdGet = some s' ∧ s'.indices.keys = [table 3] ∧
      (s.insert 3000000000 (table 3)).OldestEvicted s' := by
  refine exists_of_decide (fun s : State => (s.Legible 3000000000 3000000007 ∧
      ∃ s', s.step (some 1) thirdLoad = some s' ∧ s'.indices.keys = [table 2, table 3]) ∧
    (s.insert 3000000000 (table 3)).Legible 3000000000 3000000007 ∧
      ∃ s', s.step (some 1) thirdGet = some s' ∧ s'.indices.keys = [table 3])
    (by decide) fun s hrun ⟨⟨hlegible, s', hstep, hkeys⟩, hlegible', s'', hstep', hkeys'⟩ => ⟨?_, ?_⟩
  · exact ⟨s', hstep, hkeys, ((load_evicts_iff hrun).1 hstep).2 hlegible⟩
  · exact ⟨s'', hstep', hkeys', ((load_evicts_iff hrun).2 hstep').2 hlegible'⟩

/-- The first table is touched last, and leaves for the third; the cache for one holds two after it, as before. -/
theorem touched_evicted_and_over_maximum :
    ∃ s, run (step (some 1)) .new (oneSecondApart ++ [.access (table 1) 2500000000]) = some s ∧
      ∃ s', s.step (some 1) thirdLoad = some s' ∧ s'.indices.keys = [table 2, table 3] ∧
        (s.insert 3000000000 (table 3)).indices.lookup (table 1) = some ⟨2500, 2500000000⟩ ∧
        (s.insert 3000000000 (table 3)).indices.lookup (table 2) = some ⟨2000000000, 2000000000⟩ ∧
        ¬ (s.insert 3000000000 (table 3)).OldestEvicted s' := by
  refine exists_of_decide (fun s : State => ∃ s', s.step (some 1) thirdLoad = some s' ∧
    s'.indices.keys = [table 2, table 3] ∧
    (s.insert 3000000000 (table 3)).indices.lookup (table 1) = some ⟨2500, 2500000000⟩ ∧
    (s.insert 3000000000 (table 3)).indices.lookup (table 2) = some ⟨2000000000, 2000000000⟩)
    (by decide) fun s _ ⟨s', hstep, hkeys, h1, h2⟩ => ⟨s', hstep, hkeys, h1, h2, fun holdest => ?_⟩
  exact absurd (holdest _ _ _ _ h1 h2 (by rw [hkeys]; decide) (by rw [hkeys]; decide)) (by decide)

end State
end VarveDB.TableIndexCache
