import VarveDB.Library.BoundedHeap
import VarveDB.Library.IndexMap
import VarveDB.Library.Runs

/-! The memory that the Parquet cache counts as used. -/
namespace VarveDB.ParquetCache.MemoryUse
open Library Runs List IndexMap

structure CacheEntry where
  value : Option Nat
  hitTime : Int
  deriving DecidableEq

def CacheEntry.size (entry : CacheEntry) : Nat := entry.value.getD 0 + 8

structure PruneHeapItem where
  path : String
  hitTime : Int
  size : Nat
  deriving DecidableEq

/-- A pruning in progress. It has yet to visit the entries of `ahead`; those of its heap are removed once it has. -/
structure Prune where
  nToPrune : Nat
  ahead : List String
  visited : List PruneHeapItem
  pruneHeap : List PruneHeapItem
  left : Option (List PruneHeapItem)
  freed : Nat

def Prune.items (p : Prune) : List PruneHeapItem := p.left.getD p.pruneHeap

/-- The cache, the sizes yet to be added to the count or subtracted from it, and the requests, fetches and pruning
under way. -/
structure State where
  map : IndexMap String CacheEntry
  used : Int
  adding : List Nat
  subtracting : List Nat
  checked : List (String × Nat)
  requests : List String
  fetches : List String
  prune : Option Prune

def State.new : State := ⟨KeyedList.empty _, 0, [], [], [], [], [], none⟩

inductive Action where
  | registerImmediate (path : String) (size : Nat)
  | setCacheValueDirectly (path : String) (size : Nat) (now : Int)
  | registerEventual (path : String)
  /-- The request is cached unless it is for old data or there is no room. -/
  | handleRequest (path : String) (shouldBeCached : Bool) (now : Int)
  | fetchAdd (size : Nat)
  | setSuccess (path : String) (size : Nat) (now : Int)
  | fetchFailed (path : String)
  | remove (path : String)
  | fetchSub (size : Nat)
  | get (path : String) (now : Int)
  | pruneBegin (nToPrune : Nat)
  | pruneVisit (path : String)
  | pruneVisited
  | pruneRemove (item : PruneHeapItem)
  | pruneEnd

namespace State

variable (s : State) (path : String)

def insert (entry : CacheEntry) : State :=
  { s with map := s.map.put path entry, adding := entry.size :: s.adding }

def remove : State :=
  match s.map.lookup path with
  | none => s
  | some entry => { s with
      map := s.map.remove path
      subtracting := entry.size :: s.subtracting
      prune := s.prune.map fun p => { p with ahead := p.ahead.erase path } }

def setSuccess (size : Nat) (now : Int) : State :=
  match s.map.lookup path with
  | some ⟨none, _⟩ => { s with map := s.map.put path ⟨some size, now⟩, used := s.used + size }
  | _ => s

def get (now : Int) : State :=
  match s.map.lookup path with
  | some ⟨some size, _⟩ => { s with map := s.map.put path ⟨some size, now⟩ }
  | _ => s

end State

def Prune.visit (p : Prune) (path : String) (entry : CacheEntry) : Prune :=
  { p with
    ahead := p.ahead.erase path
    visited := p.visited ++ [⟨path, entry.hitTime, entry.size⟩]
    pruneHeap := BoundedHeap.offer PruneHeapItem.hitTime p.nToPrune p.pruneHeap ⟨path, entry.hitTime, entry.size⟩ }

def step (s : State) : Action → Option State
  | .registerImmediate path size =>
    some (if (s.map.lookup path).isSome then s else { s with checked := (path, size) :: s.checked })
  | .setCacheValueDirectly path size now =>
    if (path, size) ∈ s.checked then
      some ({ s with checked := s.checked.erase (path, size) }.insert path ⟨some size, now⟩)
    else none
  | .registerEventual path => some (if (s.map.lookup path).isSome then s else { s with requests := path :: s.requests })
  | .handleRequest path shouldBeCached now =>
    if path ∈ s.requests then
      some (if shouldBeCached then
          { s with requests := s.requests.erase path, fetches := path :: s.fetches }.insert path ⟨none, now⟩
        else { s with requests := s.requests.erase path })
    else none
  | .fetchAdd size =>
    if size ∈ s.adding then some { s with used := s.used + size, adding := s.adding.erase size } else none
  | .setSuccess path size now =>
    if path ∈ s.fetches then some ({ s with fetches := s.fetches.erase path }.setSuccess path size now) else none
  | .fetchFailed path =>
    if path ∈ s.fetches then some ({ s with fetches := s.fetches.erase path }.remove path) else none
  | .remove path => some (s.remove path)
  | .fetchSub size =>
    if size ∈ s.subtracting then some { s with used := s.used - size, subtracting := s.subtracting.erase size }
      else none
  | .get path now => some (s.get path now)
  | .pruneBegin nToPrune =>
    if s.prune = none ∧ nToPrune ≠ 0 then some { s with prune := some ⟨nToPrune, s.map.keys, [], [], none, 0⟩ }
      else none
  | .pruneVisit path =>
    match s.prune, s.map.lookup path with
    | some p, some entry =>
      if p.left = none ∧ path ∉ p.visited.map PruneHeapItem.path then some { s with prune := some (p.visit path entry) }
        else none
    | _, _ => none
  | .pruneVisited =>
    match s.prune with
    | some p =>
      if p.left = none ∧ p.ahead = [] then some { s with prune := some { p with left := some p.pruneHeap } } else none
    | none => none
  | .pruneRemove item =>
    match s.prune with
    | some p =>
      match p.left with
      | some left =>
        if item ∈ left then
          some { s with
            map := s.map.remove item.path
            prune := some { p with left := some (left.erase item), freed := p.freed + item.size } }
        else none
      | none => none
    | none => none
  | .pruneEnd =>
    match s.prune with
    | some p => if p.left = some [] then some { s with used := s.used - p.freed, prune := none } else none
    | none => none

def State.doomed (s : State) : List String := (s.prune.elim [] Prune.items).map PruneHeapItem.path

/-- Entries are inserted for absent paths only, and what a pruning has read and is going to remove is not changed or
removed before. -/
def Undisturbed (s : State) : Action → Prop
  | .setCacheValueDirectly path _ _ => s.map.lookup path = none
  | .handleRequest path shouldBeCached _ => shouldBeCached → s.map.lookup path = none
  | .setSuccess path _ _ => path ∉ s.doomed
  | .fetchFailed path => path ∉ s.doomed
  | .remove path => path ∉ s.doomed
  | _ => True

instance (s : State) (a : Action) : Decidable (Undisturbed s a) := by
  cases a <;> dsimp only [Undisturbed] <;> infer_instance

/-- What is expected: between operations the count is the size of the entries, and a pruning that has visited the
entries removes those that it saw hit least recently. -/
structure Accounted (s : State) : Prop where
  used (hadd : s.adding = []) (hsub : s.subtracting = []) (hprune : s.prune = none) :
    s.used = s.map.sumBy CacheEntry.size
  leastRecent (p : Prune) (hp : s.prune = some p) (hleft : p.left.isSome) :
    p.ahead = [] ∧ BoundedHeap.Least PruneHeapItem.hitTime p.nToPrune p.visited p.pruneHeap

structure Prune.Sound (map : IndexMap String CacheEntry) (p : Prune) : Prop where
  distinct : (p.visited.map PruneHeapItem.path).Nodup
  items : (p.items.map PruneHeapItem.path).Nodup
  sizes : ∀ item ∈ p.items, ∃ entry, map.lookup item.path = some entry ∧ entry.size = item.size
  least : BoundedHeap.Least PruneHeapItem.hitTime p.nToPrune p.visited p.pruneHeap
  ahead : p.left.isSome → p.ahead = []

structure Balanced (s : State) : Prop where
  balance : (s.map.sumBy CacheEntry.size : Int) =
    s.used + s.adding.sum - s.subtracting.sum - s.prune.elim 0 Prune.freed
  prune : ∀ p, s.prune = some p → p.Sound s.map

theorem Balanced.accounted {s : State} (h : Balanced s) : Accounted s where
  used hadd hsub hprune := by
    have := h.balance
    simp only [hadd, hsub, hprune, sum_nil, elim_none] at this
    omega
  leastRecent p hp hleft := ⟨(h.prune p hp).ahead hleft, (h.prune p hp).least⟩

variable {item : PruneHeapItem} {now : Int}

section
variable {s s' : State} {path : String}

variable {p : Prune} {entry : CacheEntry}

theorem Prune.Sound.of_lookup {map : IndexMap String CacheEntry} (map' : IndexMap String CacheEntry) (h : p.Sound map)
    (hmap : ∀ item ∈ p.items, ∀ entry, map.lookup item.path = some entry →
      ∃ entry', map'.lookup item.path = some entry' ∧ entry'.size = entry.size) : p.Sound map' := by
  refine { h with sizes := fun item hitem => ?_ }
  obtain ⟨entry, hentry, hsize⟩ := h.sizes item hitem
  obtain ⟨entry', hentry', hsame⟩ := hmap item hitem entry hentry
  exact ⟨entry', hentry', hsame.trans hsize⟩

private theorem sumBy_remove_of_none (h : s.map.lookup path = none) :
    (s.map.remove path).sumBy CacheEntry.size = s.map.sumBy CacheEntry.size :=
  ((values_remove_perm_of_none h).map _).sum_nat

private theorem not_doomed (h : path ∉ s.doomed) (hp : s.prune = some p) (hitem : item ∈ p.items) :
    item.path ≠ path := by
  rintro rfl
  exact h (by simpa [State.doomed, hp] using ⟨item, hitem, rfl⟩)

section
variable (h : Balanced s)
include h

private theorem Balanced.insert (hnone : s.map.lookup path = none) : Balanced (s.insert path entry) where
  balance := by
    have := h.balance
    simp only [State.insert, sumBy_put, sumBy_remove_of_none hnone, sum_cons]
    omega
  prune p hp := (h.prune p hp).of_lookup _ fun item _ entry' hentry => by
    refine ⟨entry', ?_, rfl⟩
    rw [State.insert, lookup_put, if_neg, hentry]
    rintro heq
    rw [heq, hnone] at hentry
    cases hentry

private theorem Balanced.remove (hdoomed : path ∉ s.doomed) : Balanced (s.remove path) := by
  unfold State.remove
  cases hlook : s.map.lookup path with
  | none => exact h
  | some entry =>
    refine ⟨?_, fun p hp => ?_⟩
    · have := h.balance
      rw [sumBy_of_lookup _ hlook] at this
      have hfreed : (s.prune.map fun p => { p with ahead := p.ahead.erase path }).elim 0 Prune.freed =
          s.prune.elim 0 Prune.freed := by cases s.prune <;> rfl
      simp only [sum_cons, hfreed]
      omega
    · obtain ⟨q, hq, rfl⟩ := map_eq_some_iff.mp hp
      have hsound := (h.prune q hq).of_lookup (s.map.remove path) fun item hitem entry' hentry =>
        ⟨entry', by rw [lookup_remove, if_neg (not_doomed hdoomed hq hitem), hentry], rfl⟩
      exact { hsound with ahead := fun hleft => by rw [hsound.ahead hleft]; rfl }

private theorem Balanced.put {entry' : CacheEntry} (more : Nat)
    (hlook : s.map.lookup path = some entry) (hsize : entry'.size = entry.size + more)
    (hdoomed : more = 0 ∨ path ∉ s.doomed) :
    Balanced { s with map := s.map.put path entry', used := s.used + more } where
  balance := by
    have := h.balance
    rw [sumBy_of_lookup _ hlook] at this
    simp only [sumBy_put, hsize]
    omega
  prune p hp := (h.prune p hp).of_lookup _ fun item hitem old hold => by
    simp only [lookup_put]
    split_ifs with heq
    · rcases hdoomed with rfl | hdoomed
      · rw [heq, hlook] at hold
        exact ⟨entry', rfl, by rw [hsize, ← some.inj hold]; rfl⟩
      · exact absurd heq (not_doomed hdoomed hp hitem)
    · exact ⟨old, hold, rfl⟩

private theorem Balanced.setSuccess {size : Nat} (hdoomed : path ∉ s.doomed) :
    Balanced (s.setSuccess path size now) := by
  unfold State.setSuccess
  split
  · rename_i hlook
    exact h.put _ hlook (by simp [CacheEntry.size]; omega) (.inr hdoomed)
  · exact h

private theorem Balanced.get : Balanced (s.get path now) := by
  unfold State.get
  split
  · rename_i hlook
    have := h.put 0 hlook (rfl : CacheEntry.size ⟨some _, now⟩ = _) (.inl rfl)
    simpa using this
  · exact h

end

private theorem Prune.Sound.visit (h : p.Sound s.map)
    (hlook : s.map.lookup path = some entry) (hleft : p.left = none) (hnew : path ∉ p.visited.map PruneHeapItem.path) :
    (p.visit path entry).Sound s.map := by
  obtain ⟨rest, hperm, hlength, hle⟩ := h.least.offer ⟨path, entry.hitTime, entry.size⟩
  have hdistinct :
      ((p.visited ++ [(⟨path, entry.hitTime, entry.size⟩ : PruneHeapItem)]).map PruneHeapItem.path).Nodup := by
    rw [map_append]
    refine nodup_append.mpr ⟨h.distinct, nodup_singleton _, fun a ha b hb hab => hnew ?_⟩
    have hb : b = path := mem_singleton.mp hb
    rwa [← hb, ← hab]
  have hitems : (p.visit path entry).items =
      BoundedHeap.offer PruneHeapItem.hitTime p.nToPrune p.pruneHeap ⟨path, entry.hitTime, entry.size⟩ := by
    simp [Prune.items, Prune.visit, hleft]
  refine ⟨hdistinct, ?_, fun item hitem => ?_, ⟨rest, hperm, hlength, hle⟩,
    fun hsome => by simp [Prune.visit, hleft] at hsome⟩
  · rw [hitems]
    exact (((hperm.map _).nodup_iff.mpr hdistinct).sublist ((sublist_append_left _ rest).map _))
  · rw [hitems] at hitem
    rcases BoundedHeap.mem_offer hitem with rfl | hitem
    · exact ⟨entry, hlook, rfl⟩
    · exact h.sizes item (by simpa [Prune.items, hleft] using hitem)

theorem Prune.Sound.erase {left : List PruneHeapItem} (h : p.Sound s.map)
    (hleft : p.left = some left) (hitem : item ∈ left) :
    Prune.Sound (s.map.remove item.path) { p with left := some (left.erase item), freed := p.freed + item.size } := by
  have hitems : p.items = left := by simp [Prune.items, hleft]
  have hperm := (perm_cons_erase hitem).map PruneHeapItem.path
  have hdistinct := hperm.nodup_iff.mp (hitems ▸ h.items)
  rw [map_cons, nodup_cons] at hdistinct
  refine ⟨h.distinct, hdistinct.2, fun other hother => ?_, h.least, fun _ => h.ahead (by simp [hleft])⟩
  obtain ⟨entry, hentry, hsize⟩ := h.sizes other (hitems ▸ mem_of_mem_erase hother)
  refine ⟨entry, ?_, hsize⟩
  rw [lookup_remove, if_neg, hentry]
  exact fun heq => hdistinct.1 (heq ▸ mem_map_of_mem hother)

section
variable (h : Balanced s)
include h

private theorem Balanced.pruneBegin {nToPrune : Nat} (hstep : step s (.pruneBegin nToPrune) = some s') :
    Balanced s' := by
  obtain ⟨⟨hnone, -⟩, ⟨⟩⟩ := ite_none_right_eq_some.mp hstep
  refine ⟨?_, ?_⟩
  · simpa [hnone] using h.balance
  · rintro p ⟨⟩
    exact ⟨nodup_nil, nodup_nil, by simp [Prune.items], BoundedHeap.least_nil, by simp⟩

private theorem Balanced.pruneVisit (hstep : step s (.pruneVisit path) = some s') : Balanced s' := by
  simp only [step] at hstep
  split at hstep
  · rename_i p entry hp hlook
    obtain ⟨⟨hleft, hnew⟩, ⟨⟩⟩ := ite_none_right_eq_some.mp hstep
    refine ⟨?_, ?_⟩
    · simpa [hp, Prune.visit] using h.balance
    · rintro q ⟨⟩
      exact (h.prune p hp).visit hlook hleft hnew
  · cases hstep

private theorem Balanced.pruneVisited (hstep : step s .pruneVisited = some s') : Balanced s' := by
  simp only [step] at hstep
  split at hstep
  · rename_i p hp
    obtain ⟨⟨hleft, hahead⟩, ⟨⟩⟩ := ite_none_right_eq_some.mp hstep
    have hsound := h.prune p hp
    have hitems : p.items = p.pruneHeap := by simp [Prune.items, hleft]
    refine ⟨?_, ?_⟩
    · simpa [hp] using h.balance
    · rintro q ⟨⟩
      exact ⟨hsound.distinct, hitems ▸ hsound.items, hitems ▸ hsound.sizes, hsound.least, fun _ => hahead⟩
  · cases hstep

/-- What a removal frees is the size that was read, which the entry still has. -/
private theorem Balanced.pruneRemove (hstep : step s (.pruneRemove item) = some s') : Balanced s' := by
  simp only [step] at hstep
  split at hstep
  · rename_i p hp
    split at hstep
    · rename_i left hleft
      obtain ⟨hitem, ⟨⟩⟩ := ite_none_right_eq_some.mp hstep
      refine ⟨?_, ?_⟩
      · obtain ⟨entry, hentry, hsize⟩ := (h.prune p hp).sizes item (by simpa [Prune.items, hleft] using hitem)
        have hbalance := h.balance
        rw [sumBy_of_lookup _ hentry, hp, elim_some] at hbalance
        simp only [elim_some]
        omega
      · rintro q ⟨⟩
        exact (h.prune p hp).erase hleft hitem
    · cases hstep
  · cases hstep

private theorem Balanced.pruneEnd (hstep : step s .pruneEnd = some s') : Balanced s' := by
  simp only [step] at hstep
  split at hstep
  · rename_i p hp
    obtain ⟨-, ⟨⟩⟩ := ite_none_right_eq_some.mp hstep
    refine ⟨?_, by rintro q ⟨⟩⟩
    have hbalance := h.balance
    rw [hp, elim_some] at hbalance
    simp only [elim_none]
    omega
  · cases hstep

end

private theorem balanced_step {a : Action} (h : Balanced s) (hguard : Undisturbed s a) (hstep : step s a = some s') :
    Balanced s' := by
  have hsum {l : List Nat} {n : Nat} (hn : n ∈ l) : l.sum = n + (l.erase n).sum := by
    simpa using (perm_cons_erase hn).sum_nat
  cases a
  case registerImmediate | registerEventual =>
    cases hstep
    split_ifs
    · exact h
    · exact ⟨h.balance, h.prune⟩
  case fetchAdd | fetchSub =>
    obtain ⟨hin, ⟨⟩⟩ := ite_none_right_eq_some.mp hstep
    refine ⟨?_, h.prune⟩
    have := h.balance
    have := hsum hin
    dsimp only
    omega
  case remove path =>
    cases hstep
    exact h.remove hguard
  case get path now =>
    cases hstep
    exact h.get
  case pruneBegin nToPrune => exact h.pruneBegin hstep
  case pruneVisit path => exact h.pruneVisit hstep
  case pruneVisited => exact h.pruneVisited hstep
  case pruneRemove item => exact h.pruneRemove hstep
  case pruneEnd => exact h.pruneEnd hstep
  all_goals obtain ⟨-, ⟨⟩⟩ := ite_none_right_eq_some.mp hstep
  case setCacheValueDirectly path size now =>
    exact Balanced.insert (s := { s with checked := s.checked.erase (path, size) }) ⟨h.balance, h.prune⟩ hguard
  case handleRequest path shouldBeCached now =>
    split_ifs with hcached
    · exact Balanced.insert (s := { s with requests := s.requests.erase path, fetches := path :: s.fetches })
        ⟨h.balance, h.prune⟩ (hguard hcached)
    · exact ⟨h.balance, h.prune⟩
  case setSuccess path size now =>
    exact Balanced.setSuccess (s := { s with fetches := s.fetches.erase path }) ⟨h.balance, h.prune⟩ hguard
  case fetchFailed path =>
    exact Balanced.remove (s := { s with fetches := s.fetches.erase path }) ⟨h.balance, h.prune⟩ hguard

end

/-- Every run in which entries are inserted for absent paths only, and what a pruning is going to remove
is left alone. -/
theorem parquetCache_accounted (actions : List Action) (s : State)
    (hguarded : Guarded step Undisturbed State.new actions)
    (hrun : run step State.new actions = some s) : Accounted s :=
  have hnew : Balanced State.new := ⟨rfl, by rintro p ⟨⟩⟩
  (invariant balanced_step hnew hguarded hrun).accounted

private def history : List Action :=
  [.registerImmediate "a" 100, .registerEventual "b", .setCacheValueDirectly "a" 100 0, .handleRequest "b" true 1,
    .fetchAdd 8,
    .fetchAdd 108, .setSuccess "b" 50 2, .get "b" 3, .pruneBegin 1, .pruneVisit "b", .pruneVisit "a", .pruneVisited,
    .pruneRemove ⟨"a", 0, 108⟩, .pruneEnd]

theorem parquetCache_accounted_history : ∃ s, run step State.new history = some s ∧ s.used = 58 ∧ Accounted s :=
  ⟨_, rfl, rfl, parquetCache_accounted history _ (by decide +kernel) rfl⟩

/-- Two requests for a path that are both handled leave its entry counted twice, and an entry whose value arrives
between the visit of a pruning and its removal stays counted. -/
theorem parquetCache_not_accounted :
    (∃ s, run step State.new [.registerEventual "a", .registerEventual "a", .handleRequest "a" true 0, .fetchAdd 8,
      .handleRequest "a" true 0, .fetchAdd 8] = some s ∧ ¬ Accounted s) ∧
    ∃ s, run step State.new
      [.registerEventual "a", .handleRequest "a" true 0, .fetchAdd 8, .pruneBegin 1, .pruneVisit "a",
      .setSuccess "a" 100 1, .pruneVisited, .pruneRemove ⟨"a", 0, 8⟩, .pruneEnd] = some s ∧ ¬ Accounted s :=
  ⟨⟨_, rfl, fun h => absurd (h.used rfl rfl rfl) (by decide +kernel)⟩,
    ⟨_, rfl, fun h => absurd (h.used rfl rfl rfl) (by decide +kernel)⟩⟩

end VarveDB.ParquetCache.MemoryUse
