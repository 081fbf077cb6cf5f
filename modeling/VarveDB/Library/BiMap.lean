import VarveDB.Library.KeyedList

/-! Bidirectional maps: inserting a pair drops the pairs that hold either of its two sides. -/
namespace Library
open List

/-- Pairs no two of which have the same left or the same right side. -/
structure BiMap (α β : Type*) where
  pairs : List (α × β)
  left : (pairs.map Prod.fst).Nodup
  right : (pairs.map Prod.snd).Nodup

namespace BiMap
variable {α β : Type*} {m : BiMap α β} {a : α} {b : β}

@[ext]
theorem ext {m n : BiMap α β} (h : m.pairs = n.pairs) : m = n := by
  cases m; cases n; simp_all

instance [DecidableEq α] [DecidableEq β] : DecidableEq (BiMap α β) := fun m n =>
  decidable_of_iff (m.pairs = n.pairs) ⟨ext, fun h => h ▸ rfl⟩

def empty : BiMap α β := ⟨[], nodup_nil, nodup_nil⟩

theorem nodup_filter_append {γ : Type*} {f : α × β → γ} {pairs : List (α × β)} {p : α × β → Bool} {x : α × β}
    (h : (pairs.map f).Nodup) (hne : ∀ q ∈ pairs.filter p, f q ≠ f x) : ((pairs.filter p ++ [x]).map f).Nodup := by
  rw [map_append, nodup_append]
  refine ⟨h.sublist (filter_sublist.map _), nodup_singleton _, forall_mem_map.mpr fun q hq y hy heq => ?_⟩
  exact hne q hq (heq.trans (mem_singleton.mp hy))

section
variable [DecidableEq α]

def getByLeft (m : BiMap α β) (a : α) : Option β := (m.pairs.find? fun p => p.1 = a).map Prod.snd

def removeByLeft (m : BiMap α β) (a : α) : BiMap α β :=
  ⟨m.pairs.filter fun p => p.1 ≠ a, m.left.sublist (filter_sublist.map _), m.right.sublist (filter_sublist.map _)⟩

theorem getByLeft_eq_some : m.getByLeft a = some b ↔ (a, b) ∈ m.pairs := by
  simp [getByLeft, Option.map_eq_some_iff, find?_key_eq_some_iff m.left]

@[simp]
theorem getByLeft_removeByLeft (m : BiMap α β) (a a' : α) :
    (m.removeByLeft a).getByLeft a' = if a' = a then none else m.getByLeft a' := by
  refine Option.ext fun c => ?_
  rw [getByLeft_eq_some]
  by_cases ha : a' = a
  · simp [removeByLeft, ha]
  · simp [removeByLeft, ha, getByLeft_eq_some]

end

section
variable [DecidableEq β]

def getByRight (m : BiMap α β) (b : β) : Option α := (m.pairs.find? fun p => p.2 = b).map Prod.fst

theorem getByRight_eq_some : m.getByRight b = some a ↔ (a, b) ∈ m.pairs := by
  simp [getByRight, Option.map_eq_some_iff, find?_key_eq_some_iff m.right]

end

variable [DecidableEq α] [DecidableEq β]

/-- The two directions name each other. -/
theorem getByRight_iff : m.getByRight b = some a ↔ m.getByLeft a = some b := by
  rw [getByRight_eq_some, getByLeft_eq_some]

def insert (m : BiMap α β) (a : α) (b : β) : BiMap α β where
  pairs := (m.pairs.filter fun p => p.1 ≠ a ∧ p.2 ≠ b) ++ [(a, b)]
  left := nodup_filter_append m.left fun _ hp => (of_decide_eq_true (mem_filter.mp hp).2).1
  right := nodup_filter_append m.right fun _ hp => (of_decide_eq_true (mem_filter.mp hp).2).2

theorem mem_insert {p : α × β} : p ∈ (m.insert a b).pairs ↔ p = (a, b) ∨ p ∈ m.pairs ∧ p.1 ≠ a ∧ p.2 ≠ b := by
  simp [insert, or_comm]

theorem getByLeft_insert (m : BiMap α β) (a a' : α) (b : β) : (m.insert a b).getByLeft a' =
      if a' = a then some b else if m.getByLeft a' = some b then none else m.getByLeft a' := by
  refine Option.ext fun c => ?_
  rw [getByLeft_eq_some, mem_insert]
  by_cases ha : a' = a
  · simp [ha, eq_comm]
  · rw [if_neg ha]
    by_cases hb : m.getByLeft a' = some b
    · have hc : (a', c) ∈ m.pairs → c = b := fun h => by
        simpa [getByLeft_eq_some.mpr h] using hb
      rw [if_pos hb]
      refine ⟨fun h => ?_, nofun⟩
      rcases h with h | ⟨h, -, hne⟩
      · exact absurd (congrArg Prod.fst h) ha
      · exact absurd (hc h) hne
    · rw [if_neg hb, getByLeft_eq_some]
      constructor
      · rintro (h | ⟨h, -⟩)
        · exact absurd (congrArg Prod.fst h) ha
        · exact h
      · intro h
        exact .inr ⟨h, ha, fun hcb => hb (hcb ▸ getByLeft_eq_some.mpr h)⟩

end BiMap
end Library
