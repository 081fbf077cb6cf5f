import Mathlib

/-! Insertion-ordered collections whose elements have distinct keys. -/
namespace Library
open List

/-- In a list whose elements have distinct keys, a search by key finds the element that has it. -/
theorem find?_key_eq_some_iff {α κ : Type*} [DecidableEq κ] {key : α → κ} {l : List α} {k : κ} {a : α}
    (h : (l.map key).Nodup) : l.find? (fun x => key x = k) = some a ↔ a ∈ l ∧ key a = k := by
  constructor
  · intro hf
    exact ⟨mem_of_find?_eq_some hf, by simpa using List.find?_some hf⟩
  · rintro ⟨ha, rfl⟩
    cases hf : l.find? fun x => key x = key a with
    | none => simpa using List.find?_eq_none.mp hf a ha
    | some b =>
      have hb : key b = key a := by simpa using List.find?_some hf
      rw [inj_on_of_nodup_map h (mem_of_find?_eq_some hf) ha hb]

/-- A list in which no two elements have the same key. -/
structure KeyedList {α κ : Type*} (key : α → κ) where
  entries : List α
  distinct : (entries.map key).Nodup

namespace KeyedList
variable {α κ ν : Type*} {key : α → κ}

variable {s t : KeyedList key} {a b : α} (p : α → Bool)

@[ext]
theorem ext (h : s.entries = t.entries) : s = t := by
  cases s; cases t; simp_all

instance [DecidableEq α] : DecidableEq (KeyedList key) := fun s t =>
  decidable_of_iff (s.entries = t.entries) ⟨ext, fun h => h ▸ rfl⟩

instance : Membership α (KeyedList key) := ⟨fun s a => a ∈ s.entries⟩

theorem mem_def : a ∈ s ↔ a ∈ s.entries := Iff.rfl

def empty (key : α → κ) : KeyedList key := ⟨[], nodup_nil⟩

@[simp]
theorem entries_empty : (empty key).entries = [] := rfl

@[simp]
theorem not_mem_empty (a : α) : a ∉ empty key := by simp [mem_def]

theorem eq_of_key_eq (ha : a ∈ s) (hb : b ∈ s) (h : key a = key b) : a = b :=
  inj_on_of_nodup_map s.distinct ha hb h

def retain (s : KeyedList key) : KeyedList key :=
  ⟨s.entries.filter p, s.distinct.sublist (filter_sublist.map key)⟩

@[simp]
theorem entries_retain (s : KeyedList key) : (s.retain p).entries = s.entries.filter p := rfl

@[simp]
theorem mem_retain {p : α → Bool} : a ∈ s.retain p ↔ a ∈ s ∧ p a = true := by simp [mem_def]

variable [DecidableEq κ] {as : List α} {k : κ}

def insertNew (s : KeyedList key) (a : α) : KeyedList key :=
  if h : key a ∈ s.entries.map key then s
  else ⟨s.entries ++ [a], by
    rw [map_append, nodup_append]
    refine ⟨s.distinct, nodup_singleton _, ?_⟩
    rintro x hx y hy rfl
    rw [map_singleton, mem_singleton] at hy
    exact h (hy ▸ hx)⟩

theorem insertNew_of_mem (h : key a ∈ s.entries.map key) : s.insertNew a = s := dif_pos h

theorem entries_insertNew_of_not_mem (h : key a ∉ s.entries.map key) :
    (s.insertNew a).entries = s.entries ++ [a] := by simp [insertNew, h]

theorem mem_insertNew : b ∈ s.insertNew a ↔ b ∈ s ∨ (b = a ∧ key a ∉ s.entries.map key) := by
  by_cases h : key a ∈ s.entries.map key
  · simp [insertNew_of_mem h, h]
  · simp [mem_def, entries_insertNew_of_not_mem h, h]

theorem mem_of_mem_foldl_insertNew : b ∈ as.foldl insertNew s → b ∈ s ∨ b ∈ as :=
  List.foldlRecOn (motive := fun t => b ∈ t → b ∈ s ∨ b ∈ as) as _ .inl fun _ ih _ ha hb =>
    (mem_insertNew.mp hb).elim ih fun h => .inr (h.1 ▸ ha)

theorem mem_foldl_insertNew_of_mem (h : a ∈ s) (as : List α) : a ∈ as.foldl insertNew s :=
  List.foldlRecOn (motive := (a ∈ ·)) as _ h fun _ h _ _ => mem_insertNew.mpr (.inl h)

/-- After inserting a list, every element's key is present. -/
theorem exists_key_foldl_insertNew (ha : a ∈ as) (s : KeyedList key) : ∃ b ∈ as.foldl insertNew s, key b = key a := by
  induction as generalizing s with
  | nil => cases ha
  | cons c as ih =>
    rcases mem_cons.mp ha with rfl | ha
    · by_cases h : key a ∈ s.entries.map key
      · obtain ⟨b, hb, hkey⟩ := mem_map.mp h
        exact ⟨b, mem_foldl_insertNew_of_mem (mem_insertNew.mpr (.inl hb)) as, hkey⟩
      · exact ⟨a, mem_foldl_insertNew_of_mem (mem_insertNew.mpr (.inr ⟨rfl, h⟩)) as, rfl⟩
    · exact ih ha (s.insertNew c)

/-- Inserting a collection adds those of its elements whose keys are new. -/
theorem mem_foldl_insertNew_entries : b ∈ t.entries.foldl insertNew s ↔ b ∈ s ∨ b ∈ t ∧ key b ∉ s.entries.map key := by
  obtain ⟨as, has⟩ := t
  induction as generalizing s with
  | nil => simp [mem_def]
  | cons a as ih =>
    obtain ⟨ha, has'⟩ := nodup_cons.mp has
    have hkeys {b : α} : key b ∈ (s.insertNew a).entries.map key ↔ key b ∈ s.entries.map key ∨ key b = key a := by
      by_cases hmem : key a ∈ s.entries.map key
      · rw [insertNew_of_mem hmem]
        exact ⟨.inl, fun h => h.elim id fun heq => heq ▸ hmem⟩
      · rw [entries_insertNew_of_not_mem hmem, map_append, mem_append, map_singleton, mem_singleton]
    have hne (hb : b ∈ as) : key b ≠ key a := fun heq => ha (heq ▸ mem_map_of_mem hb)
    simp only [mem_def] at ih ⊢
    rw [foldl_cons, ih has', hkeys, mem_cons]
    have hinsert := mem_insertNew (s := s) (a := a) (b := b)
    simp only [mem_def] at hinsert
    rw [hinsert]
    constructor
    · rintro ((h | ⟨rfl, h⟩) | ⟨h, h'⟩)
      · exact .inl h
      · exact .inr ⟨.inl rfl, h⟩
      · exact .inr ⟨.inr h, fun hk => h' (.inl hk)⟩
    · rintro (h | ⟨rfl | h, h'⟩)
      · exact .inl (.inl h)
      · exact .inl (.inr ⟨rfl, h'⟩)
      · exact .inr ⟨h, fun hk => hk.elim h' (hne h)⟩

/-- Inserting the elements of a list with fresh distinct keys appends that list. -/
theorem entries_foldl_insertNew (as : List α) (s : KeyedList key) (h : (s.entries.map key ++ as.map key).Nodup) :
    (as.foldl insertNew s).entries = s.entries ++ as := by
  induction as generalizing s with
  | nil => simp
  | cons a as ih =>
    have hfresh : key a ∉ s.entries.map key := fun hmem =>
      (nodup_append.mp h).2.2 _ hmem _ (by simp) rfl
    have happ := entries_insertNew_of_not_mem hfresh
    rw [foldl_cons, ih, happ, append_assoc, singleton_append]
    simpa [happ] using h

/-- Inserting the elements of a collection one by one rebuilds it. -/
theorem rebuild (s : KeyedList key) : s.entries.foldl insertNew (empty key) = s :=
  ext (by simpa using entries_foldl_insertNew s.entries (empty key) (by simpa using s.distinct))

def lookup (s : KeyedList (Prod.fst : κ × ν → κ)) (k : κ) : Option ν :=
  (s.entries.find? fun p => p.1 = k).map Prod.snd

theorem lookup_eq_some {s : KeyedList (Prod.fst : κ × ν → κ)} {v : ν} : s.lookup k = some v ↔ (k, v) ∈ s := by
  simp [lookup, Option.map_eq_some_iff, find?_key_eq_some_iff s.distinct, mem_def]

theorem lookup_eq_none {s : KeyedList (Prod.fst : κ × ν → κ)} : s.lookup k = none ↔ k ∉ s.entries.map Prod.fst := by
  simp only [lookup, Option.map_eq_none_iff, List.find?_eq_none, decide_eq_true_eq, mem_map, not_exists, not_and]

/-- Maps with the same entries hold the same values. -/
theorem lookup_congr {s t : KeyedList (Prod.fst : κ × ν → κ)} (h : ∀ p, p ∈ s ↔ p ∈ t) (k : κ) :
    s.lookup k = t.lookup k := by
  refine Option.ext fun v => ?_
  rw [lookup_eq_some, lookup_eq_some, h]

end KeyedList
end Library
