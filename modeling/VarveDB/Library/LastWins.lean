import Mathlib

/-! Partial maps listed by rank, where for each key the last map that holds it wins. -/
namespace Library
open List

variable {α κ ρ : Type*} {R : α → α → Prop} (p : α → Bool)

def lastWins (maps : List (κ → Option ρ)) (k : κ) : Option ρ := maps.reverse.findSome? fun m => m k

section
variable {f g : α → κ → Option ρ} {l : List α} {k : κ} (m : κ → Option ρ)

theorem lastWins_append (ms ms' : List (κ → Option ρ)) (k : κ) :
    lastWins (ms ++ ms') k = (lastWins ms' k).or (lastWins ms k) := by
  simp [lastWins, List.findSome?_append]

@[simp]
theorem lastWins_singleton (k : κ) : lastWins [m] k = m k := by
  cases h : m k <;> simp [lastWins, h]

theorem lastWins_cons (ms : List (κ → Option ρ)) (k : κ) : lastWins (m :: ms) k = (lastWins ms k).or (m k) := by
  rw [← singleton_append, lastWins_append, lastWins_singleton]

theorem lastWins_eq_none {ms : List (κ → Option ρ)} : lastWins ms k = none ↔ ∀ m ∈ ms, m k = none := by
  simp [lastWins]

theorem lastWins_map_congr (h : ∀ a ∈ l, f a k = g a k) : lastWins (l.map f) k = lastWins (l.map g) k := by
  induction l with
  | nil => rfl
  | cons a l ih =>
    rw [map_cons, map_cons, lastWins_cons, lastWins_cons, h a mem_cons_self,
      ih fun b hb => h b (mem_cons_of_mem _ hb)]

/-- Maps that do not hold the key can be left out. -/
theorem lastWins_map_filter {p : α → Bool} (h : ∀ a ∈ l, p a = false → f a k = none) :
    lastWins ((l.filter p).map f) k = lastWins (l.map f) k := by
  induction l with
  | nil => rfl
  | cons a l ih =>
    have ih := ih fun b hb => h b (mem_cons_of_mem _ hb)
    rw [map_cons, lastWins_cons]
    cases hp : p a with
    | true => rw [filter_cons_of_pos hp, map_cons, lastWins_cons, ih]
    | false => rw [filter_cons_of_neg (by simp [hp]), h a mem_cons_self hp, Option.or_none, ih]

end

section Sorting
variable {r : α → α → Prop} [DecidableRel r] {l : List α} {a m : α}

private theorem orderedInsert_append_singleton (h : r a m) :
    (l ++ [m]).orderedInsert r a = l.orderedInsert r a ++ [m] := by
  induction l with
  | nil => simp [h]
  | cons b l ih =>
    by_cases hab : r a b
    · simp [hab]
    · simp [hab, ih]

/-- What ranks above everything else is sorted to the end. -/
theorem insertionSort_append_singleton (h : ∀ a ∈ l, r a m) :
    (l ++ [m]).insertionSort r = l.insertionSort r ++ [m] := by
  induction l with
  | nil => rfl
  | cons a l ih =>
    rw [cons_append, insertionSort_cons, ih fun b hb => h b (mem_cons_of_mem _ hb),
      orderedInsert_append_singleton (h a mem_cons_self), insertionSort_cons]

private theorem orderedInsert_filter [IsTrans α r] (h : l.Pairwise r) :
    (l.orderedInsert r a).filter p = if p a then (l.filter p).orderedInsert r a else l.filter p := by
  induction l with
  | nil => cases hp : p a <;> simp [hp]
  | cons b l ih =>
    obtain ⟨hhead, htail⟩ := pairwise_cons.mp h
    by_cases hab : r a b
    · have hall : ∀ c ∈ (b :: l).filter p, r a c := by
        intro c hc
        rcases mem_cons.mp (mem_filter.mp hc).1 with rfl | hc
        · exact hab
        · exact IsTrans.trans a b c hab (hhead c hc)
      have hfront : ((b :: l).filter p).orderedInsert r a = a :: (b :: l).filter p := by
        cases hc : (b :: l).filter p with
        | nil => rfl
        | cons c cs => exact orderedInsert_cons_of_le r cs (hall c (hc ▸ mem_cons_self))
      rw [orderedInsert_cons_of_le r l hab, hfront]
      cases hp : p a <;> simp [hp]
    · rw [orderedInsert_of_not_le r l hab]
      cases hb : p b with
      | true =>
        rw [filter_cons_of_pos hb, filter_cons_of_pos hb, ih htail]
        cases hp : p a <;> simp [hab]
      | false => rw [filter_cons_of_neg (by simp [hb]), filter_cons_of_neg (by simp [hb]), ih htail]

/-- Sorting keeps the order of equals, so it does not matter whether one filters before or after. -/
theorem insertionSort_filter [IsTrans α r] [Std.Total r] (l : List α) :
    (l.filter p).insertionSort r = (l.insertionSort r).filter p := by
  induction l with
  | nil => rfl
  | cons a l ih =>
    rw [insertionSort_cons, orderedInsert_filter p (pairwise_insertionSort r l), ← ih]
    cases hp : p a <;> simp [hp]

private theorem pairwise_orderedInsert_stable (h : l.Pairwise fun b c => R b c ∨ ¬r c b)
    (ha : ∀ b ∈ l, R a b) : (l.orderedInsert r a).Pairwise fun b c => R b c ∨ ¬r c b := by
  induction l with
  | nil => simp
  | cons b l ih =>
    obtain ⟨hhead, htail⟩ := pairwise_cons.mp h
    by_cases hab : r a b
    · rw [orderedInsert_cons_of_le r l hab]
      exact pairwise_cons.mpr ⟨fun c hc => .inl (ha c hc), h⟩
    · rw [orderedInsert_of_not_le r l hab]
      refine pairwise_cons.mpr ⟨fun c hc => ?_, ih htail fun c hc => ha c (mem_cons_of_mem _ hc)⟩
      rcases (mem_orderedInsert r).mp hc with rfl | hc
      · exact .inr hab
      · exact hhead c hc

/-- Sorting moves an element before another one only if their ranks demand it. -/
theorem pairwise_insertionSort_stable (h : l.Pairwise R) : (l.insertionSort r).Pairwise fun b c => R b c ∨ ¬r c b := by
  induction l with
  | nil => exact .nil
  | cons a l ih =>
    obtain ⟨hhead, htail⟩ := pairwise_cons.mp h
    exact pairwise_orderedInsert_stable (ih htail) fun b hb => hhead b ((mem_insertionSort r).mp hb)

end Sorting
/-- Of two elements of a list one comes first. -/
theorem pairwise_or {l : List α} (h : l.Pairwise R) {a b : α} (ha : a ∈ l) (hb : b ∈ l) (hne : a ≠ b) :
    R a b ∨ R b a := by
  have : Std.Symm fun a b => R a b ∨ R b a := ⟨fun _ _ => Or.symm⟩
  exact (h.imp (S := fun a b => R a b ∨ R b a) .inl).forall ha hb hne

end Library
