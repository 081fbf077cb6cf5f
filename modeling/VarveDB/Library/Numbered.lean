import Mathlib

/-! Lists numbered without gaps: the entries of a log by position, and stretches
of consecutive numbers cut out of it. -/
namespace Library
open List

def Consecutive (l : List Nat) : Prop := l.IsChain fun a b => b = a + 1

instance (l : List Nat) : Decidable (Consecutive l) :=
  inferInstanceAs (Decidable (l.IsChain fun a b => b = a + 1))

namespace Consecutive

theorem pairwise {l : List Nat} (h : Consecutive l) : l.Pairwise (· < ·) :=
  isChain_iff_pairwise.mp (List.IsChain.imp (fun _ _ hab => by omega) h)

theorem head_le {a b : Nat} {l : List Nat} (h : Consecutive (a :: l)) (hb : b ∈ a :: l) : a ≤ b := by
  rcases mem_cons.mp hb with rfl | hb
  · exact le_rfl
  · exact Nat.le_of_lt (rel_of_pairwise_cons h.pairwise hb)

end Consecutive

variable {α : Type*} {f : α → Nat} {a : α}

def Numbered (f : α → Nat) (l : List α) : Prop := l.map f = List.range' 1 l.length

namespace Numbered

theorem nil : Numbered f [] := rfl

variable {l : List α}

section
variable (h : Numbered f l)
include h

theorem number_getElem {i : Nat} (hi : i < l.length) : f l[i] = i + 1 := by
  have hmap : (l.map f)[i]? = (List.range' 1 l.length)[i]? := by rw [h]
  rw [List.getElem?_map, List.getElem?_eq_getElem hi, List.getElem?_range' hi] at hmap
  simpa [Nat.add_comm] using hmap

theorem exists_index (ha : a ∈ l) : ∃ i, ∃ hi : i < l.length, l[i] = a ∧ f a = i + 1 := by
  obtain ⟨i, hi, rfl⟩ := mem_iff_getElem.mp ha
  exact ⟨i, hi, rfl, h.number_getElem hi⟩

theorem number_pos (ha : a ∈ l) : 1 ≤ f a := by
  obtain ⟨i, _, _, hf⟩ := h.exists_index ha
  omega

theorem number_le (ha : a ∈ l) : f a ≤ l.length := by
  obtain ⟨i, hi, _, hf⟩ := h.exists_index ha
  omega

theorem exists_mem {q : Nat} (hpos : 1 ≤ q) (hle : q ≤ l.length) : ∃ a ∈ l, f a = q :=
  ⟨l[q - 1], getElem_mem _, by rw [h.number_getElem (by omega)]; omega⟩

theorem pairwise : l.Pairwise fun a b => f a < f b :=
  pairwise_map.mp (h ▸ pairwise_lt_range')

theorem append_singleton (ha : f a = l.length + 1) : Numbered f (l ++ [a]) := by
  simp only [Numbered, map_append, map_singleton, length_append, length_singleton, List.range'_concat, ha]
  rw [h]
  simp [Nat.add_comm]

end

theorem init (h : Numbered f (l ++ [a])) : Numbered f l ∧ f a = l.length + 1 := by
  simp only [Numbered, map_append, map_singleton, length_append, length_singleton, List.range'_concat] at h
  obtain ⟨hl, ha⟩ := append_inj' h rfl
  exact ⟨hl, by simpa [Nat.add_comm] using ha⟩

variable (h : Numbered f l)
include h

theorem take (i : Nat) : Numbered f (l.take i) := by
  refine ext_getElem (by simp) fun j hj hj' => ?_
  simp only [length_map, length_take] at hj
  rw [getElem_map, getElem_take, h.number_getElem (by omega), getElem_range']
  omega

/-- The element numbered `q` closes the stretch of the first `q`. -/
theorem take_number (ha : a ∈ l) : l.take (f a) = l.take (f a - 1) ++ [a] := by
  obtain ⟨i, hi, rfl, hf⟩ := h.exists_index ha
  rw [hf, Nat.add_sub_cancel, take_add_one, List.getElem?_eq_getElem hi, Option.toList_some]

theorem filter_le (p : Nat) : l.filter (fun a => f a ≤ p) = l.take p := by
  have htake : (l.take p).filter (fun a => f a ≤ p) = l.take p := by
    refine filter_eq_self.mpr fun a ha => ?_
    obtain ⟨i, hi, rfl⟩ := mem_take_iff_getElem.mp ha
    rw [decide_eq_true_eq, h.number_getElem (by omega)]
    omega
  have hdrop : (l.drop p).filter (fun a => f a ≤ p) = [] := by
    refine filter_eq_nil_iff.mpr fun a ha => ?_
    obtain ⟨i, hi, rfl⟩ := mem_drop_iff_getElem.mp ha
    rw [decide_eq_true_eq, h.number_getElem]
    omega
  conv_lhs => rw [← take_append_drop p l]
  rw [filter_append, htake, hdrop, append_nil]

end Numbered
end Library
