import Mathlib

/-! Extremal keys of lists, and lists in strictly increasing order of a numeric key. -/
namespace Library
open List

section
variable {α β : Type*} [LinearOrder β] {f : α → β} {x t : β}

theorem le_foldl_min (l : List α) : x ≤ l.foldl (fun t a => min t (f a)) t ↔ x ≤ t ∧ ∀ a ∈ l, x ≤ f a := by
  induction l generalizing t with
  | nil => simp
  | cons a l ih => rw [foldl_cons, ih, le_min_iff, forall_mem_cons, and_assoc]

theorem foldl_max_le (l : List α) : l.foldl (fun t a => max t (f a)) t ≤ x ↔ t ≤ x ∧ ∀ a ∈ l, f a ≤ x := by
  induction l generalizing t with
  | nil => simp
  | cons a l ih => rw [foldl_cons, ih, max_le_iff, forall_mem_cons, and_assoc]

end

variable {α β : Type*} {f : α → Nat} {l l' : List α} {x y : α}

def Increasing (f : α → Nat) (l : List α) : Prop := l.Pairwise fun a b => f a < f b

/-- A condition that no element regains cuts the list in two. -/
theorem filter_append_filter_not {p : α → Bool} (h : l.Pairwise fun a b => p b → p a) :
    l.filter p ++ l.filter (!p ·) = l := by
  induction l with
  | nil => rfl
  | cons a l ih =>
    obtain ⟨hhead, htail⟩ := pairwise_cons.mp h
    cases ha : p a with
    | true => simp [ha, ih htail]
    | false =>
      have hall : ∀ b ∈ a :: l, p b = false :=
        forall_mem_cons.mpr ⟨ha, fun b hb => Bool.eq_false_iff.mpr fun hb' => by simp [hhead b hb hb'] at ha⟩
      rw [filter_eq_nil_iff.mpr fun b hb => by simp [hall b hb],
        filter_eq_self.mpr fun b hb => by simp [hall b hb], nil_append]

namespace Increasing

theorem nil : Increasing f [] := List.Pairwise.nil

theorem append_left (h : Increasing f (l ++ l')) : Increasing f l := (pairwise_append.mp h).1

theorem lt_of_append (h : Increasing f (l ++ l')) (hx : x ∈ l) (hy : y ∈ l') : f x < f y :=
  (pairwise_append.mp h).2.2 x hx y hy

section
variable (h : Increasing f l)
include h

theorem append_singleton (hx : ∀ y ∈ l, f y < f x) : Increasing f (l ++ [x]) :=
  pairwise_append.mpr ⟨h, pairwise_singleton _ _, fun y hy _ hz => (mem_singleton.mp hz) ▸ hx y hy⟩

theorem filter (c : α → Bool) : Increasing f (l.filter c) := List.Pairwise.filter c h

theorem sublist (hs : List.Sublist l' l) : Increasing f l' := List.Pairwise.sublist hs h

end

theorem map {g : α → β} {f' : β → Nat} (hg : ∀ a, f' (g a) = f a) (h : Increasing f l) : Increasing f' (l.map g) :=
  pairwise_map.mpr (h.imp fun hab => by simpa only [hg] using hab)

section
variable (h : Increasing f l) (c : α → Bool)
include h

/-- The last element carries the largest key. -/
theorem le_getLast (hx : l.getLast? = some x) : ∀ y ∈ l, f y ≤ f x := by
  obtain ⟨l', rfl⟩ := List.getLast?_eq_some_iff.mp hx
  intro y hy
  rcases mem_append.mp hy with hy | hy
  · exact Nat.le_of_lt (h.lt_of_append hy (mem_singleton_self x))
  · exact Nat.le_of_eq (congrArg f (mem_singleton.mp hy))

theorem eq_of_key_eq (hx : x ∈ l) (hy : y ∈ l) (hxy : f x = f y) : x = y :=
  inj_on_of_nodup_map (pairwise_map.mpr (h.imp Nat.ne_of_lt)) hx hy hxy

/-- What holds of every earlier and later pair holds of elements compared by key. -/
theorem rel_of_lt {R : α → α → Prop} (hR : l.Pairwise R) (hx : x ∈ l) (hy : y ∈ l) (hlt : f x < f y) : R x y := by
  have hpairs : l.Pairwise fun a b => (f a < f b → R a b) ∧ (f b < f a → R b a) :=
    (hR.and h).imp fun ⟨hab, hlt⟩ => ⟨fun _ => hab, fun hgt => absurd hgt (Nat.lt_asymm hlt)⟩
  have : Std.Symm fun a b => (f a < f b → R a b) ∧ (f b < f a → R b a) := ⟨fun _ _ => And.symm⟩
  exact (hpairs.forall hx hy fun heq => Nat.ne_of_lt hlt (congrArg f heq)).1 hlt

/-- A bound on the key cuts the list in two. -/
theorem filter_le_append_filter_gt (n : Nat) : (l.filter fun y => f y ≤ n) ++ (l.filter fun y => n < f y) = l := by
  have hsplit := filter_append_filter_not (p := fun y => f y ≤ n) (l := l) (h.imp fun hab => by
    simpa using Nat.le_trans (Nat.le_of_lt hab))
  simpa only [← decide_not, Nat.not_le] using hsplit

/-- Dropping the elements up to a bound keeps the last one. -/
theorem getLast_of_filter_gt {n : Nat} (hx : (l.filter fun y => n < f y).getLast? = some x) : l.getLast? = some x := by
  obtain ⟨hxl, hnx⟩ := mem_filter.mp (mem_of_getLast? hx)
  obtain ⟨y, hy⟩ : ∃ y, l.getLast? = some y := by
    rcases hl : l.getLast? with _ | y
    · exact absurd hxl (List.getLast?_eq_none_iff.mp hl ▸ not_mem_nil)
    · exact ⟨y, rfl⟩
  have hxy := h.le_getLast hy x hxl
  have hny : n < f y := Nat.lt_of_lt_of_le (by simpa using hnx) hxy
  have hyx := (h.filter _).le_getLast hx y (mem_filter.mpr ⟨mem_of_getLast? hy, by simpa using hny⟩)
  rw [hy, h.eq_of_key_eq hxl (mem_of_getLast? hy) (Nat.le_antisymm hxy hyx)]

variable (hx : (l.takeWhile c).getLast? = some x)
include hx

/-- Cutting after the last element of a leading stretch leaves what follows the stretch. -/
theorem filter_gt_last_takeWhile : l.filter (fun y => f x < f y) = l.dropWhile c := by
  have hsplit := takeWhile_append_dropWhile (p := c) (l := l)
  have happend : Increasing f (l.takeWhile c ++ l.dropWhile c) := hsplit.symm ▸ h
  have hlast := happend.append_left.le_getLast hx
  have htake : (l.takeWhile c).filter (fun y => f x < f y) = [] :=
    filter_eq_nil_iff.mpr fun y hy => by simpa using hlast y hy
  have hdrop : (l.dropWhile c).filter (fun y => f x < f y) = l.dropWhile c :=
    filter_eq_self.mpr fun y hy => by
      simpa using happend.lt_of_append (mem_of_getLast? hx) hy
  calc l.filter (fun y => f x < f y)
      = (l.takeWhile c ++ l.dropWhile c).filter (fun y => f x < f y) := by rw [hsplit]
    _ = l.dropWhile c := by rw [filter_append, htake, hdrop, nil_append]

/-- What lies at or before the last element of a leading stretch belongs to the stretch. -/
theorem mem_takeWhile_of_le (hy : y ∈ l) (hle : f y ≤ f x) : y ∈ l.takeWhile c := by
  have hsplit := takeWhile_append_dropWhile (p := c) (l := l)
  rw [← hsplit] at hy
  rcases mem_append.mp hy with hy | hy
  · exact hy
  · rw [← h.filter_gt_last_takeWhile c hx] at hy
    have hlt : f x < f y := by simpa using (mem_filter.mp hy).2
    omega

end

end Increasing

variable (h : l.Pairwise fun a b => f a ≤ f b)
include h

private theorem filter_eq_append_filter_ne {m : Nat} (hm : ∀ a ∈ l, m ≤ f a) :
    (l.filter fun a => f a = m) ++ (l.filter fun a => f a ≠ m) = l := by
  have hsplit := filter_append_filter_not (p := fun a => f a = m) (h.imp_of_mem fun ha _ hab => by
    simpa using fun hb : _ = m => Nat.le_antisymm (hb ▸ hab) (hm _ ha))
  simpa only [← decide_not] using hsplit

/-- Grouping an ordered list by its keys, in their order, gives the list back. -/
theorem flatMap_filter_key {ks : List Nat} (hks : Increasing id ks)
    (hmem : ∀ a ∈ l, f a ∈ ks) : (ks.flatMap fun k => l.filter fun a => f a = k) = l := by
  induction ks generalizing l with
  | nil =>
    cases l with
    | nil => rfl
    | cons a l => exact absurd (hmem a mem_cons_self) (not_mem_nil)
  | cons k ks ih =>
    obtain ⟨hhead, htail⟩ := pairwise_cons.mp hks
    have hleast : ∀ a ∈ l, k ≤ f a := fun a ha => (mem_cons.mp (hmem a ha)).elim (fun h => Nat.le_of_eq h.symm)
      fun hk => Nat.le_of_lt (hhead _ hk)
    have hrest := ih (h.filter fun a => f a ≠ k) htail fun a ha => by
      obtain ⟨hal, hne⟩ := mem_filter.mp ha
      exact (mem_cons.mp (hmem a hal)).resolve_left (of_decide_eq_true hne)
    rw [flatMap_cons]
    refine Eq.trans (congrArg _ (Eq.trans ?_ hrest)) (filter_eq_append_filter_ne h hleast)
    refine flatMap_congr fun k' hk' => ?_
    rw [filter_filter]
    refine filter_congr fun a _ => Bool.eq_iff_iff.mpr ?_
    have hne : k' ≠ k := Nat.ne_of_gt (hhead k' hk')
    simp only [Bool.and_eq_true, decide_eq_true_eq]
    exact ⟨fun h => ⟨h, fun h' => hne (h.symm.trans h')⟩, And.left⟩

end Library
