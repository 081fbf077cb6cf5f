import Mathlib

/-! A heap of at most `k` elements that keeps those with the least keys. -/
namespace Library.BoundedHeap
open List

variable {α β : Type*} [DecidableEq α] [LinearOrder β] {key : α → β} {k : Nat} {seen heap : List α}

def top (key : α → β) (heap : List α) : Option α := heap.argmax key

/-- A full heap takes an element only in exchange for its top, if the key of that is greater. -/
def offer (key : α → β) (k : Nat) (heap : List α) (a : α) : List α :=
  if heap.length < k then a :: heap
  else match top key heap with
    | some top => if key a < key top then a :: heap.erase top else heap
    | none => heap

/-- `heap` has `k` of the elements seen, or all if there are fewer, and none of the others has a lesser key. -/
def Least (key : α → β) (k : Nat) (seen heap : List α) : Prop :=
  ∃ rest, (heap ++ rest).Perm seen ∧ heap.length = min k seen.length ∧ ∀ a ∈ heap, ∀ b ∈ rest, key a ≤ key b

omit [DecidableEq α] in
theorem least_nil : Least key k [] [] := ⟨[], .refl _, by simp, by simp⟩

theorem mem_offer {a b : α} (h : b ∈ offer key k heap a) : b = a ∨ b ∈ heap := by
  unfold offer at h
  split_ifs at h
  · exact mem_cons.mp h
  · split at h
    · split_ifs at h
      · exact (mem_cons.mp h).imp_right mem_of_mem_erase
      · exact .inr h
    · exact .inr h

theorem Least.offer (h : Least key k seen heap) (a : α) : Least key k (seen ++ [a]) (offer key k heap a) := by
  obtain ⟨rest, hperm, hlength, hle⟩ := h
  have hsum : heap.length + rest.length = seen.length := by rw [← hperm.length_eq, length_append]
  have hseen : (a :: (heap ++ rest)).Perm (seen ++ [a]) := (hperm.cons a).trans (perm_append_singleton a seen).symm
  unfold BoundedHeap.offer
  split_ifs with hroom
  · have hrest : rest = [] := eq_nil_of_length_eq_zero (by omega)
    subst hrest
    exact ⟨[], hseen, by simp; omega, by simp⟩
  · cases hmax : top key heap with
    | none =>
      rw [top, argmax_eq_none] at hmax
      subst hmax
      refine ⟨a :: rest, hseen, ?_, by simp⟩
      simp at hlength ⊢
      omega
    | some top =>
      have htop : top ∈ heap := argmax_mem hmax
      have hmost : ∀ b ∈ heap, key b ≤ key top := fun b hb => le_of_mem_argmax hb hmax
      dsimp only
      split_ifs with hless
      · refine ⟨top :: rest, ?_, ?_, ?_⟩
        · exact ((perm_middle.trans ((perm_cons_erase htop).append_right rest).symm).cons a).trans hseen
        · rw [length_cons, length_erase_of_mem htop, length_append, length_singleton]
          have := length_pos_of_mem htop
          omega
        · intro b hb c hc
          have hfirst : key b ≤ key top := by
            rcases mem_cons.mp hb with rfl | hb
            · exact hless.le
            · exact hmost b (mem_of_mem_erase hb)
          rcases mem_cons.mp hc with rfl | hc
          · exact hfirst
          · exact hfirst.trans (hle top htop c hc)
      · refine ⟨a :: rest, perm_middle.trans hseen, by simp; omega, fun b hb => forall_mem_cons.mpr ⟨?_, hle b hb⟩⟩
        exact (hmost b hb).trans (not_lt.mp hless)

end Library.BoundedHeap
