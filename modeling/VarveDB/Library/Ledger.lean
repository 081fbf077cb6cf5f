import Mathlib

/-! Histories of batches that add elements and remove earlier ones by key, and what folding them leaves. -/
namespace Library
open List

variable {α κ : Type*} {l : List α} {a : α}

/-- Removes the element at `i` and puts the last one in its place. -/
def swapRemove (l : List α) (i : Nat) : List α :=
  match l.getLast? with
  | none => []
  | some last => (l.set i last).dropLast

theorem swapRemove_perm {i : Nat} (hi : i < l.length) : (swapRemove l i).Perm (l.eraseIdx i) := by
  rcases l.eq_nil_or_concat with rfl | ⟨init, last, rfl⟩
  · simp at hi
  · rw [concat_eq_append] at hi ⊢
    simp only [swapRemove, List.getLast?_append, List.getLast?_singleton, Option.some_or]
    rcases Nat.lt_or_ge i init.length with hlt | hge
    · rw [set_append_left _ _ hlt, dropLast_concat, eraseIdx_append_of_lt_length hlt,
        set_eq_take_append_cons_drop, if_pos hlt, eraseIdx_eq_take_drop_succ, append_assoc]
      exact (perm_append_singleton _ _).symm.append_left _
    · obtain rfl : i = init.length := by simp at hi; omega
      rw [set_append_right _ _ (Nat.le_refl _), Nat.sub_self, set_cons_zero, dropLast_concat,
        eraseIdx_append_of_length_le (Nat.le_refl _)]
      simp

namespace Ledger

/-- One batch of a history: what it adds, then the keys it removes. -/
structure Batch (α κ : Type*) where
  added : List α
  removed : List κ

def addedBy (bs : List (Batch α κ)) : List α := bs.flatMap Batch.added

def removedBy (bs : List (Batch α κ)) : List κ := bs.flatMap Batch.removed

theorem addedBy_append_singleton (bs : List (Batch α κ)) (b : Batch α κ) :
    addedBy (bs ++ [b]) = addedBy bs ++ b.added := by simp [addedBy]

theorem removedBy_append_singleton (bs : List (Batch α κ)) (b : Batch α κ) :
    removedBy (bs ++ [b]) = removedBy bs ++ b.removed := by simp [removedBy]

/-- Every key is added once, and no batch adds a key that an earlier batch removes. -/
structure WellFormed (key : α → κ) (bs : List (Batch α κ)) : Prop where
  distinct : ((addedBy bs).map key).Nodup
  ordered : bs.Pairwise fun b b' => ∀ a ∈ b'.added, key a ∉ b.removed

variable {key : α → κ} {bs : List (Batch α κ)}

theorem WellFormed.sublist {bs' : List (Batch α κ)} (h : WellFormed key bs) (hs : List.Sublist bs' bs) :
    WellFormed key bs' :=
  ⟨h.distinct.sublist ((hs.flatMap Batch.added).map key), h.ordered.sublist hs⟩

/-- Erasing the first match is a filter when matches share a key. -/
theorem eraseP_eq_filter {p : α → Bool} (hp : ∀ a b, p a → p b → key a = key b) (h : (l.map key).Nodup) :
    l.eraseP p = l.filter fun a => !p a := by
  induction l with
  | nil => rfl
  | cons a l ih =>
    rw [map_cons, nodup_cons] at h
    cases hpa : p a with
    | false => rw [eraseP_cons_of_neg (by simp [hpa]), filter_cons_of_pos (by simp [hpa]), ih h.2]
    | true =>
      rw [eraseP_cons_of_pos hpa, filter_cons_of_neg (by simp [hpa])]
      refine (filter_eq_self.mpr fun b hb => ?_).symm
      refine Bool.not_eq_true' _ ▸ Bool.eq_false_iff.mpr fun hpb => h.1 ?_
      exact hp a b hpa hpb ▸ mem_map_of_mem hb

theorem foldl_eraseP_eq_filter {ι : Type*} {p : ι → α → Bool} (hp : ∀ i a b, p i a → p i b → key a = key b)
    (ps : List ι)
    (h : (l.map key).Nodup) : ps.foldl (fun l i => l.eraseP (p i)) l = l.filter fun a => ps.all fun i => !p i a := by
  induction ps generalizing l with
  | nil => simp
  | cons i ps ih =>
    rw [foldl_cons, eraseP_eq_filter (hp i) h, ih (h.sublist (filter_sublist.map key)), filter_filter]
    refine filter_congr fun a _ => ?_
    rw [all_cons, Bool.and_comm]

variable [DecidableEq κ]

theorem perm_cons_filter (h : (l.map key).Nodup) (ha : a ∈ l) : l.Perm (a :: l.filter fun b => key b ≠ key a) := by
  obtain ⟨before, after, rfl⟩ := append_of_mem ha
  have hperm : (before ++ a :: after).Perm (a :: (before ++ after)) := perm_middle
  have hnodup := (hperm.map key).nodup_iff.mp h
  rw [map_cons, nodup_cons] at hnodup
  refine hperm.trans (.cons a (.trans (.of_eq ?_) (hperm.filter _).symm))
  rw [filter_cons_of_neg (by simp)]
  have hne : ∀ b ∈ before ++ after, key b ≠ key a := fun b hb heq => hnodup.1 (heq ▸ mem_map_of_mem hb)
  exact (filter_eq_self.mpr fun b hb => by simpa using hne b hb).symm

def removeKey (key : α → κ) (l : List α) (k : κ) : List α :=
  match l.findIdx? (fun a => key a = k) with
  | none => l
  | some i => swapRemove l i

theorem removeKey_perm_eraseP (l : List α) (k : κ) : (removeKey key l k).Perm (l.eraseP fun a => key a = k) := by
  rw [eraseP_eq_eraseIdx, removeKey]
  cases hf : l.findIdx? (fun a => key a = k) with
  | none => rfl
  | some i => exact swapRemove_perm (List.findIdx?_eq_some_iff_getElem.mp hf).1

theorem removeKey_perm (h : (l.map key).Nodup) (k : κ) : (removeKey key l k).Perm (l.filter fun a => key a ≠ k) := by
  have hperm : (removeKey key l k).Perm (l.eraseP fun a => key a = k) := removeKey_perm_eraseP l k
  rw [eraseP_eq_filter (fun a b ha hb => by simp_all) h] at hperm
  simpa only [← decide_not] using hperm

theorem foldl_removeKey_subset (key : α → κ) (ks : List κ) (l : List α) : ks.foldl (removeKey key) l ⊆ l := by
  induction ks generalizing l with
  | nil => exact List.Subset.refl l
  | cons k ks ih => exact List.Subset.trans (ih _) (List.Subset.trans (removeKey_perm_eraseP l k).subset eraseP_subset)

theorem foldl_removeKey_perm (ks : List κ) (h : (l.map key).Nodup) :
    (ks.foldl (removeKey key) l).Perm (l.filter fun a => key a ∉ ks) := by
  induction ks generalizing l with
  | nil => simp
  | cons k ks ih =>
    have hperm := removeKey_perm h k
    have hnodup : ((removeKey key l k).map key).Nodup :=
      (hperm.map key).nodup_iff.mpr (h.sublist (filter_sublist.map key))
    refine (ih hnodup).trans ((hperm.filter _).trans (List.Perm.of_eq ?_))
    rw [filter_filter]
    refine filter_congr fun a _ => Bool.eq_iff_iff.mpr ?_
    simp [and_comm]

/-- What was added and is not removed by any batch. -/
def live (key : α → κ) (bs : List (Batch α κ)) : List α :=
  (addedBy bs).filter fun a => key a ∉ removedBy bs

theorem mem_live : a ∈ live key bs ↔ (∃ b ∈ bs, a ∈ b.added) ∧ ∀ b ∈ bs, key a ∉ b.removed := by
  simp [live, addedBy, removedBy]

theorem live_append_singleton {b : Batch α κ} (h : WellFormed key (bs ++ [b])) :
    live key (bs ++ [b]) = (live key bs ++ b.added).filter fun a => key a ∉ b.removed := by
  have hnew : b.added.filter (fun a => key a ∉ removedBy bs) = b.added := by
    refine filter_eq_self.mpr fun a ha => ?_
    have hordered := (pairwise_append.mp h.ordered).2.2
    simp only [removedBy, mem_flatMap, not_exists, not_and, decide_eq_true_eq]
    exact fun b' hb' => hordered b' hb' b (by simp) a ha
  have hboth : live key (bs ++ [b]) =
      ((addedBy bs ++ b.added).filter fun a => key a ∉ removedBy bs).filter fun a => key a ∉ b.removed := by
    rw [filter_filter, live, addedBy_append_singleton, removedBy_append_singleton]
    refine filter_congr fun a _ => Bool.eq_iff_iff.mpr ?_
    simp only [Bool.and_eq_true, decide_eq_true_eq, mem_append, not_or]
    exact and_comm
  rw [hboth, filter_append, hnew]
  rfl

/-- Two stretches of a history, folded apart, join to the whole once the later one's
removals that it could not serve itself are applied. -/
theorem live_append {cs : List (Batch α κ)} (h : WellFormed key (bs ++ cs)) (pending : List κ)
    (hsub : ∀ k ∈ pending, k ∈ removedBy cs) (hcov : ∀ k ∈ removedBy cs, k ∈ pending ∨ k ∈ (addedBy cs).map key) :
    live key (bs ++ cs) = (live key bs ++ live key cs).filter fun a => key a ∉ pending := by
  have hdistinct : ∀ a ∈ addedBy bs, key a ∉ (addedBy cs).map key := by
    have hnodup := h.distinct
    rw [addedBy, flatMap_append, map_append, nodup_append] at hnodup
    exact fun a ha hkey => hnodup.2.2 (key a) (mem_map_of_mem ha) (key a) hkey rfl
  have hordered : ∀ a ∈ addedBy cs, key a ∉ removedBy bs := by
    intro a ha hkey
    obtain ⟨c, hc, hac⟩ := mem_flatMap.mp ha
    obtain ⟨b, hb, hkb⟩ := mem_flatMap.mp hkey
    exact (pairwise_append.mp h.ordered).2.2 b hb c hc a hac hkb
  have hadded : addedBy (bs ++ cs) = addedBy bs ++ addedBy cs := flatMap_append
  have hremoved : removedBy (bs ++ cs) = removedBy bs ++ removedBy cs := flatMap_append
  rw [live, hadded, hremoved, filter_append, filter_append]
  refine congrArg₂ _ ?_ ?_ <;> rw [live, filter_filter] <;>
    refine filter_congr fun a ha => Bool.eq_iff_iff.mpr ?_ <;>
    simp only [Bool.and_eq_true, decide_eq_true_eq, mem_append, not_or]
  · have hpending : key a ∉ pending ↔ key a ∉ removedBy cs :=
      not_congr ⟨hsub _, fun hk => (hcov _ hk).resolve_right (hdistinct a ha)⟩
    rw [hpending, and_comm]
  · exact ⟨fun hk => ⟨fun hp => hk.2 (hsub _ hp), hk.2⟩, fun hk => ⟨hordered a ha, hk.2⟩⟩

/-- Folding a well-formed history leaves its live elements, for every way of applying a
batch that appends its additions and then drops the keys it removes. -/
theorem foldl_perm_live {post : List α → Batch α κ → List α}
    (hpost : ∀ l b, ((l ++ b.added).map key).Nodup → (post l b).Perm ((l ++ b.added).filter fun a => key a ∉ b.removed))
    (h : WellFormed key bs) : (bs.foldl post []).Perm (live key bs) := by
  induction bs using List.reverseRecOn with
  | nil => simp [live, addedBy]
  | append_singleton bs b ih =>
    have hperm := ih (h.sublist (sublist_append_left bs [b]))
    have hnodup : ((bs.foldl post [] ++ b.added).map key).Nodup := by
      refine ((hperm.append_right b.added).map key).nodup_iff.mpr (h.distinct.sublist ?_)
      rw [addedBy_append_singleton]
      exact (filter_sublist.append_right b.added).map key
    rw [foldl_append, foldl_cons, foldl_nil, live_append_singleton h]
    exact (hpost _ b hnodup).trans ((hperm.append_right b.added).filter _)

end Ledger
end Library
