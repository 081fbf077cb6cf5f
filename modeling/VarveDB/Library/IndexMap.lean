import VarveDB.Library.KeyedList

/-! Insertion-ordered maps. -/
namespace Library
open List

/-- A map that lists its entries in the order in which their keys were first inserted. -/
abbrev IndexMap (κ ν : Type*) := KeyedList (Prod.fst : κ × ν → κ)

namespace IndexMap
open KeyedList
variable {κ ν : Type*}

def keys (m : IndexMap κ ν) : List κ := m.entries.map Prod.fst

def values (m : IndexMap κ ν) : List ν := m.entries.map Prod.snd

def sortBy (r : ν → ν → Prop) [DecidableRel r] (m : IndexMap κ ν) : IndexMap κ ν :=
  ⟨m.entries.insertionSort fun p q => r p.2 q.2, ((perm_insertionSort _ _).map Prod.fst).nodup_iff.mpr m.distinct⟩

variable [DecidableEq κ]

variable {m : IndexMap κ ν} {k : κ} {v : ν} (w : ν → Nat) {p : κ × ν}

theorem mem_keys_iff : k ∈ m.keys ↔ (m.lookup k).isSome := by
  rw [Option.isSome_iff_ne_none, ne_eq, lookup_eq_none, not_not, keys]

theorem lookup_isSome_of_mem (h : p ∈ m.entries) : m.lookup p.1 = some p.2 :=
  lookup_eq_some.mpr h

theorem mem_values_of_lookup (h : m.lookup k = some v) : v ∈ m.values :=
  mem_map_of_mem (f := Prod.snd) (lookup_eq_some.mp h)

theorem mem_values : v ∈ m.values ↔ ∃ k, m.lookup k = some v := by
  constructor
  · intro h
    obtain ⟨⟨k, _⟩, hmem, rfl⟩ := mem_map.mp h
    exact ⟨k, lookup_eq_some.mpr hmem⟩
  · rintro ⟨k, hk⟩
    exact mem_values_of_lookup hk

/-- Maps with the same keys in the same order and the same values are equal. -/
theorem ext_lookup {n : IndexMap κ ν} (hkeys : m.keys = n.keys) (h : ∀ k, m.lookup k = n.lookup k) : m = n := by
  refine KeyedList.ext ?_
  have hval (s : IndexMap κ ν) : s.entries.map some = s.keys.map fun k => (s.lookup k).map (Prod.mk k) := by
    rw [keys, map_map]
    refine map_congr_left fun p hp => ?_
    simp [lookup_isSome_of_mem hp]
  refine map_injective_iff.mpr (fun _ _ h => Option.some.inj h) ?_
  rw [hval m, hval n, hkeys]
  exact map_congr_left fun k _ => by rw [h]

def put (m : IndexMap κ ν) (k : κ) (v : ν) : IndexMap κ ν :=
  if k ∈ m.keys then
    ⟨m.entries.map fun p => if p.1 = k then (k, v) else p, by
      have : Prod.fst ∘ (fun p : κ × ν => if p.1 = k then (k, v) else p) = Prod.fst := by
        funext p; by_cases h : p.1 = k <;> simp [h]
      rw [map_map, this]
      exact m.distinct⟩
  else m.insertNew (k, v)

theorem keys_put (m : IndexMap κ ν) (k : κ) (v : ν) :
    (m.put k v).keys = if k ∈ m.keys then m.keys else m.keys ++ [k] := by
  by_cases hk : k ∈ m.keys
  · rw [if_pos hk, put, if_pos hk, keys, keys, map_map]
    refine map_congr_left fun p _ => ?_
    by_cases h : p.1 = k <;> simp [h]
  · rw [if_neg hk, put, if_neg hk, keys, entries_insertNew_of_not_mem hk, map_append]
    rfl

private theorem mem_put : p ∈ m.put k v ↔ if p.1 = k then p.2 = v else p ∈ m := by
  by_cases hk : k ∈ m.keys
  · rw [put, if_pos hk]
    obtain ⟨q, hq, hqk⟩ := mem_map.mp hk
    simp only [mem_def, mem_map]
    constructor
    · rintro ⟨a, ha, rfl⟩
      by_cases hak : a.1 = k
      · simp [hak]
      · simpa [hak] using ha
    · intro h
      by_cases hpk : p.1 = k
      · rw [if_pos hpk] at h
        exact ⟨q, hq, by rw [if_pos hqk]; exact Prod.ext hpk.symm h.symm⟩
      · rw [if_neg hpk] at h
        exact ⟨p, h, if_neg hpk⟩
  · rw [put, if_neg hk, mem_insertNew]
    by_cases hpk : p.1 = k
    · rw [if_pos hpk]
      constructor
      · rintro (h | ⟨rfl, -⟩)
        · exact absurd (mem_map_of_mem (f := Prod.fst) h) (hpk ▸ hk)
        · rfl
      · intro h
        exact .inr ⟨Prod.ext hpk h, hk⟩
    · rw [if_neg hpk]
      exact or_iff_left fun h => hpk (h.1 ▸ rfl)

@[simp]
theorem lookup_put (m : IndexMap κ ν) (k k' : κ) (v : ν) :
    (m.put k v).lookup k' = if k' = k then some v else m.lookup k' := by
  refine Option.ext fun w => ?_
  rw [lookup_eq_some, mem_put]
  by_cases h : k' = k
  · simp [h, eq_comm]
  · simp [h, lookup_eq_some]

theorem lookup_of_put {k k' : κ} {v w : ν} (h : (m.put k v).lookup k' = some w) :
    k' = k ∧ w = v ∨ k' ≠ k ∧ m.lookup k' = some w := by
  rw [lookup_put] at h
  split_ifs at h with heq
  · exact .inl ⟨heq, (Option.some.inj h).symm⟩
  · exact .inr ⟨heq, h⟩

/-- What holds of the new entry and of the others holds of all. -/
theorem forall_put {P : κ → ν → Prop} (hnew : P k v) (hold : ∀ k' w, k' ≠ k → m.lookup k' = some w → P k' w) :
    ∀ k' w, (m.put k v).lookup k' = some w → P k' w := by
  intro k' w h
  rcases lookup_of_put h with ⟨rfl, rfl⟩ | ⟨hne, h⟩
  · exact hnew
  · exact hold k' w hne h

theorem lookup_retain (m : IndexMap κ ν) (p : κ × ν → Bool) (k : κ) :
    KeyedList.lookup (m.retain p) k = (m.lookup k).filter fun v => p (k, v) := by
  refine Option.ext fun w => ?_
  rw [lookup_eq_some, mem_retain, Option.filter_eq_some_iff, lookup_eq_some]

def remove (m : IndexMap κ ν) (k : κ) : IndexMap κ ν := m.retain fun p => p.1 ≠ k

@[simp]
theorem lookup_remove (m : IndexMap κ ν) (k k' : κ) :
    (m.remove k).lookup k' = if k' = k then none else m.lookup k' := by
  rw [remove, lookup_retain]
  cases m.lookup k' <;> by_cases h : k' = k <;> simp [h]

theorem lookup_of_remove {k k' : κ} (h : (m.remove k).lookup k' = some v) : m.lookup k' = some v := by
  rw [lookup_remove] at h
  split_ifs at h
  exact h

theorem lookup_remove_of_none {k k' : κ} (h : m.lookup k' = none) : (m.remove k).lookup k' = none := by
  rw [lookup_remove, h, ite_self]

theorem values_remove_subset (m : IndexMap κ ν) (k : κ) : (m.remove k).values ⊆ m.values := by
  intro v hv
  obtain ⟨k', hk'⟩ := mem_values.mp hv
  exact mem_values.mpr ⟨k', lookup_of_remove hk'⟩

theorem remove_put (m : IndexMap κ ν) (k : κ) (v : ν) : (m.put k v).remove k = m.remove k := by
  refine KeyedList.ext ?_
  simp only [remove, entries_retain, put]
  split
  · rw [filter_map]
    have heq : m.entries.filter ((fun p : κ × ν => decide (p.1 ≠ k)) ∘ fun p => if p.1 = k then (k, v) else p) =
        m.entries.filter fun p => p.1 ≠ k := by
      refine filter_congr fun p _ => ?_
      by_cases h : p.1 = k <;> simp [h]
    rw [heq]
    refine (map_congr_left fun p hp => ?_).trans (map_id _)
    simpa using fun h => absurd h (of_decide_eq_true (mem_filter.mp hp).2)
  · rename_i hk
    rw [entries_insertNew_of_not_mem hk]
    simp

/-- The entries are that of one key, if it has one, and those of the others. -/
theorem entries_perm (m : IndexMap κ ν) (k : κ) :
    m.entries.Perm ((m.lookup k).toList.map (k, ·) ++ (m.remove k).entries) := by
  have hnodup (s : IndexMap κ ν) : s.entries.Nodup := List.Nodup.of_map _ s.distinct
  refine (perm_ext_iff_of_nodup (hnodup m) ?_).mpr fun p => ?_
  · refine nodup_append.mpr ⟨?_, hnodup _, ?_⟩
    · cases m.lookup k <;> simp
    · intro p hp q hq heq
      obtain ⟨v, -, rfl⟩ := mem_map.mp hp
      subst heq
      exact (of_decide_eq_true (mem_retain.mp (show (k, v) ∈ m.remove k from hq)).2) rfl
  · rw [mem_append, mem_map]
    constructor
    · intro hp
      by_cases hpk : p.1 = k
      · exact .inl ⟨p.2, by simp [← hpk, lookup_isSome_of_mem hp], by simp [← hpk]⟩
      · exact .inr (mem_retain.mpr ⟨hp, by simpa using hpk⟩)
    · rintro (⟨v, hv, rfl⟩ | hp)
      · exact lookup_eq_some.mp (Option.mem_toList.mp hv)
      · exact (mem_retain.mp (show p ∈ m.remove k from hp)).1

theorem values_perm (h : m.lookup k = some v) : m.values.Perm (v :: (m.remove k).values) := by
  simpa [values, h] using (m.entries_perm k).map Prod.snd

theorem values_put_perm (m : IndexMap κ ν) (k : κ) (v : ν) : (m.put k v).values.Perm (v :: (m.remove k).values) := by
  have hperm := values_perm (show (m.put k v).lookup k = some v by simp)
  rwa [remove_put] at hperm

theorem values_remove_perm_of_none (h : m.lookup k = none) : (m.remove k).values.Perm m.values := by
  simpa [values, h] using ((m.entries_perm k).map Prod.snd).symm

theorem values_put_perm_of_none (h : m.lookup k = none) (v : ν) : (m.put k v).values.Perm (v :: m.values) :=
  (values_put_perm m k v).trans ((values_remove_perm_of_none h).cons _)

theorem put_put (m : IndexMap κ ν) (k : κ) (v v' : ν) : (m.put k v).put k v' = m.put k v' := by
  refine ext_lookup ?_ fun a => ?_
  · have hmem : k ∈ (m.put k v).keys := by simp [mem_keys_iff]
    rw [keys_put, if_pos hmem, keys_put, keys_put]
  · simp only [lookup_put]
    split <;> rfl

def sumBy (m : IndexMap κ ν) : Nat := (m.values.map w).sum

theorem sumBy_put (m : IndexMap κ ν) (k : κ) (v : ν) : (m.put k v).sumBy w = w v + (m.remove k).sumBy w :=
  ((values_put_perm m k v).map w).sum_nat

theorem sumBy_of_lookup (h : m.lookup k = some v) : m.sumBy w = w v + (m.remove k).sumBy w :=
  ((values_perm h).map w).sum_nat

def mapValues {ν' : Type*} (f : κ → ν → ν') (m : IndexMap κ ν) : IndexMap κ ν' :=
  ⟨m.entries.map fun p => (p.1, f p.1 p.2), by rw [map_map]; exact m.distinct⟩

@[simp]
theorem lookup_mapValues {ν' : Type*} (f : κ → ν → ν') (m : IndexMap κ ν) (k : κ) :
    (m.mapValues f).lookup k = (m.lookup k).map (f k) := by
  refine Option.ext fun w => ?_
  rw [lookup_eq_some, Option.map_eq_some_iff]
  simp only [lookup_eq_some]
  constructor
  · intro h
    obtain ⟨p, hp, heq⟩ := mem_map.mp h
    obtain ⟨rfl, rfl⟩ := Prod.mk.inj heq
    exact ⟨p.2, hp, rfl⟩
  · rintro ⟨v, hv, rfl⟩
    exact mem_map.mpr ⟨_, hv, rfl⟩

/-- Updating the values at some keys, each once. -/
theorem lookup_foldl_update {μ : Type*} (f : Option ν → μ → ν) (es : IndexMap κ μ) (m : IndexMap κ ν) (k : κ) :
    (es.entries.foldl (fun m e => m.put e.1 (f (m.lookup e.1) e.2)) m).lookup k =
      ((es.lookup k).map (f (m.lookup k))).or (m.lookup k) := by
  obtain ⟨es, hdistinct⟩ := es
  induction es generalizing m with
  | nil => rfl
  | cons e es ih =>
    obtain ⟨hfresh, hdistinct⟩ := nodup_cons.mp hdistinct
    rw [foldl_cons]
    refine (ih _ hdistinct).trans ?_
    simp only [KeyedList.lookup, List.find?_cons]
    by_cases hk : k = e.1
    · subst hk
      have hnone : (es.find? fun p => p.1 = e.1) = none :=
        List.find?_eq_none.mpr fun p hp => by
          simpa using fun heq : p.1 = e.1 => hfresh (heq ▸ mem_map_of_mem hp)
      rw [hnone]
      simpa [KeyedList.lookup] using lookup_put m e.1 e.1 (f (m.lookup e.1) e.2)
    · have hput : (m.put e.1 (f (m.lookup e.1) e.2)).lookup k = m.lookup k := by rw [lookup_put, if_neg hk]
      simp only [KeyedList.lookup] at hput
      rw [hput, decide_eq_false (Ne.symm hk)]

def putAll (m p : IndexMap κ ν) : IndexMap κ ν := p.entries.foldl (fun m e => m.put e.1 e.2) m

theorem lookup_putAll (m p : IndexMap κ ν) (k : κ) : (m.putAll p).lookup k = (p.lookup k).or (m.lookup k) := by
  simpa [putAll] using lookup_foldl_update (fun _ v => v) p m k

@[simp]
theorem lookup_empty (k : κ) : (KeyedList.empty Prod.fst : IndexMap κ ν).lookup k = none := rfl

end IndexMap

namespace KeyedList
variable {κ ν : Type*} [DecidableEq κ] [LinearOrder ν] (s : IndexMap κ ν) (ps : List (κ × ν)) (k : κ) (v : ν)

def raise : IndexMap κ ν :=
  if k ∈ s.entries.map Prod.fst then
    ⟨s.entries.map fun p => if p.1 = k then (p.1, max p.2 v) else p, by
      have : Prod.fst ∘ (fun p : κ × ν => if p.1 = k then (p.1, max p.2 v) else p) = Prod.fst := by
        funext p; by_cases h : p.1 = k <;> simp [h]
      rw [map_map, this]
      exact s.distinct⟩
  else s.insertNew (k, v)

theorem raise_eq_put : s.raise k v = s.put k ((s.lookup k).elim v (max · v)) := by
  by_cases hk : k ∈ s.entries.map Prod.fst
  · refine ext ?_
    rw [raise, IndexMap.put, IndexMap.keys, if_pos hk, if_pos hk]
    refine map_congr_left fun p hp => ?_
    split
    · next heq =>
      subst heq
      rw [IndexMap.lookup_isSome_of_mem hp]
      rfl
    · rfl
  · rw [raise, IndexMap.put, IndexMap.keys, if_neg hk, if_neg hk, lookup_eq_none.mpr hk]
    rfl

theorem lookup_raise (k k' : κ) (v : ν) :
    (s.raise k v).lookup k' = if k' = k then some ((s.lookup k).elim v (max · v)) else s.lookup k' := by
  rw [raise_eq_put, IndexMap.lookup_put]

theorem foldl_raise_eq_insertNew (s : IndexMap κ ν) (h : (s.entries.map Prod.fst ++ ps.map Prod.fst).Nodup) :
    ps.foldl (fun m p => m.raise p.1 p.2) s = ps.foldl insertNew s := by
  induction ps generalizing s with
  | nil => rfl
  | cons p ps ih =>
    have hfresh : p.1 ∉ s.entries.map Prod.fst := fun hmem =>
      (nodup_append.mp h).2.2 _ hmem _ (by simp) rfl
    have hraise : s.raise p.1 p.2 = s.insertNew p := by simp only [raise, hfresh, if_false]
    rw [foldl_cons, foldl_cons, hraise]
    refine ih _ ?_
    simpa [entries_insertNew_of_not_mem hfresh] using h

/-- Raising the values of a map one by one, from the empty map, rebuilds it. -/
theorem rebuild_raise : s.entries.foldl (fun m p => m.raise p.1 p.2) (empty _) = s := by
  rw [foldl_raise_eq_insertNew _ _ (by simpa using s.distinct), rebuild]

/-- A map filled by raising holds for each key the largest value it was raised to. -/
theorem lookup_foldl_raise : (∀ v, (ps.foldl (fun m p => m.raise p.1 p.2) (empty _)).lookup k = some v →
      (k, v) ∈ ps ∧ ∀ p ∈ ps, p.1 = k → p.2 ≤ v) ∧
    ((ps.foldl (fun m p => m.raise p.1 p.2) (empty _)).lookup k = none → ∀ p ∈ ps, p.1 ≠ k) := by
  induction ps using List.reverseRecOn with
  | nil => simp [lookup]
  | append_singleton ps q ih =>
    simp only [foldl_append, foldl_cons, foldl_nil, lookup_raise, mem_append, mem_singleton]
    by_cases hk : k = q.1
    · subst hk
      cases hl : (ps.foldl (fun m p => m.raise p.1 p.2) (empty _)).lookup q.1 with
      | none =>
        have hnone := ih.2 hl
        refine ⟨fun v hv => ?_, by simp⟩
        obtain rfl : q.2 = v := by simpa using hv
        refine ⟨.inr rfl, ?_⟩
        rintro p (hp | rfl) hkey
        · exact absurd hkey (hnone p hp)
        · exact le_rfl
      | some w =>
        obtain ⟨hmem, hle⟩ := ih.1 w hl
        refine ⟨fun v hv => ?_, by simp⟩
        obtain rfl : max w q.2 = v := by simpa using hv
        constructor
        · rcases le_total w q.2 with h | h
          · exact .inr (by rw [max_eq_right h])
          · exact .inl (by rwa [max_eq_left h])
        · rintro p (hp | rfl) hkey
          · exact (hle p hp hkey).trans (le_max_left _ _)
          · exact le_max_right _ _
    · simp only [hk, if_false]
      refine ⟨fun v hv => ⟨.inl (ih.1 v hv).1, ?_⟩, fun hv => ?_⟩
      · rintro p (hp | rfl) hkey
        · exact (ih.1 v hv).2 p hp hkey
        · exact absurd hkey.symm hk
      · rintro p (hp | rfl) hkey
        · exact ih.2 hv p hp hkey
        · exact hk hkey.symm

/-- Raising a map by the values of another holds the larger value for every key. -/
theorem lookup_foldl_raise_entries (s t : IndexMap κ ν) (k : κ) :
    (t.entries.foldl (fun m p => m.raise p.1 p.2) s).lookup k = Option.merge max (s.lookup k) (t.lookup k) := by
  simp only [raise_eq_put]
  rw [IndexMap.lookup_foldl_update (fun o v => o.elim v (max · v))]
  cases s.lookup k <;> cases t.lookup k <;> simp

def Below (s t : IndexMap κ ν) : Prop :=
  ∀ k v, s.lookup k = some v → ∃ w, t.lookup k = some w ∧ v ≤ w

theorem Below.refl : s.Below s := fun _ v h => ⟨v, h, le_refl v⟩

theorem Below.trans {s t u : IndexMap κ ν} (h : s.Below t) (h' : t.Below u) : s.Below u :=
  fun k v hv => by
    obtain ⟨w, hw, hle⟩ := h k v hv
    obtain ⟨x, hx, hle'⟩ := h' k w hw
    exact ⟨x, hx, hle.trans hle'⟩

theorem below_raise : s.Below (s.raise k v) := by
  intro k' w hw
  rw [lookup_raise]
  split
  · rename_i hk
    subst hk
    exact ⟨max w v, by rw [hw]; rfl, le_max_left _ _⟩
  · exact ⟨w, hw, le_refl w⟩

theorem Below.merge_eq {s t : IndexMap κ ν} (h : s.Below t) (k : κ) :
    Option.merge max (s.lookup k) (t.lookup k) = t.lookup k ∧
      Option.merge max (t.lookup k) (s.lookup k) = t.lookup k := by
  cases hs : s.lookup k with
  | none => simp
  | some v =>
    obtain ⟨w, hw, hle⟩ := h k v hs
    rw [hw]
    simp [hle]

end KeyedList
end Library
