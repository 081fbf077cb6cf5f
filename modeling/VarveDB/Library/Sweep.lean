import Mathlib

/-! Grouping items by their closed ranges, in one sweep over the sorted end points. -/
namespace Library.Sweep
open List

variable {α V : Type*}

structure Event (α V : Type*) where
  value : V
  isEnd : Bool
  item : α
  deriving DecidableEq

def start (range : α → V × V) (a : α) : Event α V := ⟨(range a).1, false, a⟩
def stop (range : α → V × V) (a : α) : Event α V := ⟨(range a).2, true, a⟩

def events (range : α → V × V) (items : List α) : List (Event α V) :=
  items.flatMap fun a => [start range a, stop range a]

def Event.before [LinearOrder V] (e e' : Event α V) : Prop :=
  e.value < e'.value ∨ e.value = e'.value ∧ e.isEnd ≤ e'.isEnd

instance [LinearOrder V] : DecidableRel (Event.before (α := α) (V := V)) :=
  fun _ _ => inferInstanceAs (Decidable (_ ∨ _))

instance [LinearOrder V] : IsTrans (Event α V) Event.before where
  trans a b c hab hbc := by
    rcases hab with hab | ⟨hab, hend⟩ <;> rcases hbc with hbc | ⟨hbc, hend'⟩
    · exact .inl (hab.trans hbc)
    · exact .inl (hbc ▸ hab)
    · exact .inl (hab ▸ hbc)
    · exact .inr ⟨hab.trans hbc, hend.trans hend'⟩

instance [LinearOrder V] : Std.Total (Event.before (α := α) (V := V)) where
  total a b := by
    rcases lt_trichotomy a.value b.value with hlt | heq | hgt
    · exact .inl (.inl hlt)
    · exact (le_total a.isEnd b.isEnd).imp (fun h => .inr ⟨heq, h⟩) fun h => .inr ⟨heq.symm, h⟩
    · exact .inr (.inl hgt)

structure Groups (α : Type*) where
  cumulativeSum : Int
  groups : List (List α)

def addToLast (a : α) : List (List α) → List (List α)
  | [] => []
  | group :: groups => (group ++ [a]) :: groups

def Groups.add (st : Groups α) (e : Event α V) : Groups α :=
  if e.isEnd then ⟨st.cumulativeSum - 1, addToLast e.item st.groups⟩
  else if st.cumulativeSum + 1 = 1 then ⟨1, [] :: st.groups⟩
  else ⟨st.cumulativeSum + 1, st.groups⟩

def sweep [LinearOrder V] (range : α → V × V) (items : List α) : List (List α) :=
  (((events range items).insertionSort Event.before).foldl Groups.add ⟨0, []⟩).groups

variable {range : α → V × V} {opened group items : List α} {es : List (Event α V)} {e : Event α V}
  {groups : List (List α)}

open Event

theorem ne_stop (he : e.isEnd = false) (a : α) : e ≠ stop range a :=
  fun heq => Bool.noConfusion ((congrArg isEnd heq).symm.trans he)

theorem ne_start (he : e.isEnd = true) (a : α) : e ≠ start range a :=
  fun heq => Bool.noConfusion ((congrArg isEnd heq).symm.trans he)

private theorem start_not_mem [LinearOrder V] {a b : α} (hsorted : (stop range a :: es).Pairwise before)
    (hle : (range b).1 ≤ (range a).2) : start range b ∉ es := fun hmem => by
  rcases (pairwise_cons.mp hsorted).1 _ hmem with hlt | ⟨-, hend⟩
  · exact absurd hle (not_le_of_gt hlt)
  · exact absurd hend (show ¬true ≤ false by decide)

section Open
variable [LinearOrder V] [DecidableEq α]

/-- What remains of a sweep while the ranges of `opened` are open: sorted end points, among them
one end for every range that is open or has yet to start. -/
structure Remaining (range : α → V × V) (opened : List α) (es : List (Event α V)) : Prop where
  sorted : es.Pairwise Event.before
  endpoint : ∀ e ∈ es, e = start range e.item ∨ e = stop range e.item
  valid : ∀ e ∈ es, (range e.item).1 ≤ (range e.item).2
  balanced : ∀ a, opened.count a + es.count (start range a) = es.count (stop range a)

namespace Remaining

section
variable (h : Remaining range opened (e :: es))
include h

theorem eq_start (he : e.isEnd = false) : e = start range e.item :=
  (h.endpoint e mem_cons_self).resolve_right (ne_stop he _)

theorem eq_stop (he : e.isEnd = true) : e = stop range e.item :=
  (h.endpoint e mem_cons_self).resolve_left (ne_start he _)

theorem of_start (he : e.isEnd = false) : Remaining range (e.item :: opened) es where
  sorted := h.sorted.of_cons
  endpoint e' he' := h.endpoint e' (mem_cons_of_mem _ he')
  valid e' he' := h.valid e' (mem_cons_of_mem _ he')
  balanced a := by
    have hb := h.balanced a
    have hiff : e = start range a ↔ e.item = a :=
      ⟨fun heq => congrArg item heq, fun heq => heq ▸ h.eq_start he⟩
    rw [count_cons_of_ne (ne_stop he a), count_cons] at hb
    rw [count_cons]
    simp only [beq_iff_eq, hiff] at hb ⊢
    omega

variable (he : e.isEnd = true)
include he

/-- At an end, every range that reaches back to it and ends later is open. -/
theorem mem_of_end {b : α} (hle : (range b).1 ≤ (range e.item).2) (hb : stop range b ∈ e :: es) : b ∈ opened := by
  have hnot : start range b ∉ e :: es :=
    not_mem_cons_of_ne_of_not_mem (ne_start he b).symm (start_not_mem (h.eq_stop he ▸ h.sorted) hle)
  have hcount := h.balanced b
  rw [count_eq_zero_of_not_mem hnot] at hcount
  exact count_pos_iff.mp (by have := count_pos_iff.mpr hb; omega)

theorem item_mem : e.item ∈ opened :=
  h.mem_of_end he (h.valid e mem_cons_self) (mem_cons.mpr (.inl (h.eq_stop he).symm))

theorem of_end : Remaining range (opened.erase e.item) es where
  sorted := h.sorted.of_cons
  endpoint e' he' := h.endpoint e' (mem_cons_of_mem _ he')
  valid e' he' := h.valid e' (mem_cons_of_mem _ he')
  balanced a := by
    have hmem := count_pos_iff.mpr (h.item_mem he)
    have hb := h.balanced a
    have hiff : e = stop range a ↔ e.item = a :=
      ⟨fun heq => congrArg item heq, fun heq => heq ▸ h.eq_stop he⟩
    rw [count_cons_of_ne (ne_start he a), count_cons] at hb
    rw [count_erase]
    simp only [beq_iff_eq, hiff] at hb ⊢
    split at hb
    case isTrue heq =>
      subst heq
      rw [if_pos rfl]
      omega
    case isFalse hne =>
      rw [if_neg hne]
      exact hb

end

end Remaining
end Open

open Groups

private theorem exists_superset_foldl {st : Groups α} (hg : group ∈ st.groups) :
    ∃ group' ∈ (es.foldl add st).groups, group ⊆ group' := by
  induction es generalizing st group with
  | nil => exact ⟨group, hg, List.Subset.refl _⟩
  | cons e es ih =>
    obtain ⟨group', hg', hsub⟩ : ∃ group' ∈ (st.add e).groups, group ⊆ group' := by
      unfold add
      split
      · match hgs : st.groups with
        | [] => rw [hgs] at hg; cases hg
        | newest :: groups =>
          rw [hgs] at hg
          rcases mem_cons.mp hg with rfl | hg
          · exact ⟨_, mem_cons_self, subset_append_left _ _⟩
          · exact ⟨group, mem_cons_of_mem _ hg, List.Subset.refl _⟩
      · split
        · exact ⟨group, mem_cons_of_mem _ hg, List.Subset.refl _⟩
        · exact ⟨group, hg, List.Subset.refl _⟩
    obtain ⟨group'', hg'', hsub'⟩ := ih hg'
    exact ⟨group'', hg'', List.Subset.trans hsub hsub'⟩

structure Tracks (opened : List α) (st : Groups α) : Prop where
  sum : st.cumulativeSum = opened.length
  nonempty : opened ≠ [] → st.groups ≠ []

namespace Tracks
variable {st : Groups α}

theorem add_start (h : Tracks opened st) (he : e.isEnd = false) : Tracks (e.item :: opened) (st.add e) := by
  have hsum := h.sum
  unfold add
  rw [if_neg (by simp [he])]
  split
  · exact ⟨by simp only [length_cons]; omega, fun _ => cons_ne_nil _ _⟩
  · rename_i hne
    refine ⟨by simp only [length_cons]; omega, fun _ => h.nonempty fun hnil => hne ?_⟩
    simp [hsum, hnil]

/-- While a range is open no group begins. -/
theorem groups_add_start (h : Tracks opened st) (he : e.isEnd = false) (hopen : opened ≠ []) :
    (st.add e).groups = st.groups := by
  have hpos := length_pos_iff.mpr hopen
  have hsum := h.sum
  unfold add
  rw [if_neg (by simp [he]), if_neg (by omega)]

theorem groups_add_end (he : e.isEnd = true)
    (hg : st.groups = group :: groups) : (st.add e).groups = (group ++ [e.item]) :: groups := by
  simp [add, he, hg, addToLast]

theorem add_end [DecidableEq α] (h : Tracks opened st) (he : e.isEnd = true) (hmem : e.item ∈ opened) :
    Tracks (opened.erase e.item) (st.add e) := by
  obtain ⟨group, groups, hg⟩ := exists_cons_of_ne_nil (h.nonempty (ne_nil_of_mem hmem))
  refine ⟨?_, fun _ => groups_add_end he hg ▸ cons_ne_nil _ _⟩
  have hpos := length_pos_of_mem hmem
  have hsum := h.sum
  rw [length_erase_of_mem hmem]
  simp only [add, he, if_true]
  omega

end Tracks

section Overlap
variable [LinearOrder V] [DecidableEq α] {st : Groups α} {a b : α}

/-- An open range ends in the newest group, for no other group begins before that. -/
private theorem joins_newest (h : Remaining range opened es)
    (ht : Tracks opened st) (hb : b ∈ opened) (hstop : stop range b ∈ es) (hg : st.groups = group :: groups) :
    ∃ group' ∈ (es.foldl add st).groups, group ⊆ group' ∧ b ∈ group' := by
  induction es generalizing opened st group with
  | nil => cases hstop
  | cons e es ih =>
    cases he : e.isEnd with
    | false =>
      have hstop : stop range b ∈ es := (mem_cons.mp hstop).resolve_left (ne_stop he b).symm
      refine ih (h.of_start he) (ht.add_start he) (mem_cons_of_mem _ hb) hstop ?_
      rw [ht.groups_add_start he (ne_nil_of_mem hb), hg]
    | true =>
      have hadd := Tracks.groups_add_end he hg
      by_cases hbe : b = e.item
      · obtain ⟨group', hmem, hsub⟩ : ∃ group' ∈ (es.foldl add (st.add e)).groups, group ++ [e.item] ⊆ group' :=
          exists_superset_foldl (hadd ▸ mem_cons_self)
        exact ⟨group', hmem, fun x hx => hsub (mem_append_left _ hx), hsub (by simp [hbe])⟩
      · have hstop : stop range b ∈ es := (mem_cons.mp hstop).resolve_left fun heq => hbe (congrArg item heq)
        obtain ⟨group', hmem, hsub, hb'⟩ := ih (h.of_end he) (ht.add_end he (h.item_mem he))
          ((mem_erase_of_ne hbe).mpr hb) hstop hadd
        exact ⟨group', hmem, fun x hx => hsub (mem_append_left _ hx), hb'⟩

theorem joins_first_end (h : Remaining range opened (e :: es)) (ht : Tracks opened st) (he : e.isEnd = true)
    (hle : (range b).1 ≤ (range e.item).2) (hb : stop range b ∈ es) (hne : b ≠ e.item) :
    ∃ group ∈ ((e :: es).foldl add st).groups, e.item ∈ group ∧ b ∈ group := by
  have hopen : b ∈ opened := h.mem_of_end he hle (mem_cons_of_mem _ hb)
  obtain ⟨group, groups, hg⟩ := exists_cons_of_ne_nil (ht.nonempty (ne_nil_of_mem hopen))
  obtain ⟨group', hmem, hsub, hb'⟩ := joins_newest (h.of_end he) (ht.add_end he (h.item_mem he))
    ((mem_erase_of_ne hne).mpr hopen) hb (Tracks.groups_add_end he hg)
  exact ⟨group', hmem, hsub (by simp), hb'⟩

private theorem exists_group_foldl (h : Remaining range opened es) (ht : Tracks opened st)
    (ha : stop range a ∈ es) (hb : stop range b ∈ es) (hne : a ≠ b)
    (hab : (range a).1 ≤ (range b).2) (hba : (range b).1 ≤ (range a).2) :
    ∃ group ∈ (es.foldl add st).groups, a ∈ group ∧ b ∈ group := by
  induction es generalizing opened st with
  | nil => cases ha
  | cons e es ih =>
    cases he : e.isEnd with
    | false =>
      exact ih (h.of_start he) (ht.add_start he) ((mem_cons.mp ha).resolve_left (ne_stop he a).symm)
        ((mem_cons.mp hb).resolve_left (ne_stop he b).symm)
    | true =>
      rcases mem_cons.mp ha with rfl | ha'
      · exact joins_first_end h ht he hba
          ((mem_cons.mp hb).resolve_left fun heq => hne (congrArg item heq).symm) hne.symm
      · rcases mem_cons.mp hb with rfl | hb'
        · obtain ⟨group, hmem, hb, ha⟩ := joins_first_end h ht he hab ha' hne
          exact ⟨group, hmem, ha, hb⟩
        · exact ih (h.of_end he) (ht.add_end he (h.item_mem he)) ha' hb'

private theorem flatten_foldl_perm (h : Remaining range opened es) (ht : Tracks opened st) :
    (es.foldl add st).groups.flatten.Perm (st.groups.flatten ++ (es.filter isEnd).map item) := by
  induction es generalizing opened st with
  | nil => simp
  | cons e es ih =>
    cases he : e.isEnd with
    | false =>
      have hadd : (st.add e).groups.flatten = st.groups.flatten := by
        unfold add
        rw [if_neg (by simp [he])]
        split <;> rfl
      rw [filter_cons_of_neg (by simp [he]), ← hadd]
      exact ih (h.of_start he) (ht.add_start he)
    | true =>
      obtain ⟨group, groups, hg⟩ :=
        exists_cons_of_ne_nil (ht.nonempty (ne_nil_of_mem (h.item_mem he)))
      refine (ih (h.of_end he) (ht.add_end he (h.item_mem he))).trans ?_
      rw [filter_cons_of_pos he, Tracks.groups_add_end he hg, hg]
      simp only [flatten_cons, map_cons, append_assoc, singleton_append]
      exact List.Perm.append_left _ perm_middle.symm

variable (hvalid : ∀ a ∈ items, (range a).1 ≤ (range a).2)
include hvalid

theorem remaining_events : Remaining range [] ((events range items).insertionSort before) where
  sorted := pairwise_insertionSort _ _
  endpoint e he := by
    obtain ⟨a, -, he⟩ := mem_flatMap.mp ((perm_insertionSort _ _).subset he)
    simp only [mem_cons, not_mem_nil, or_false] at he
    rcases he with rfl | rfl
    · exact .inl rfl
    · exact .inr rfl
  valid e he := by
    obtain ⟨a, ha, he⟩ := mem_flatMap.mp ((perm_insertionSort _ _).subset he)
    simp only [mem_cons, not_mem_nil, or_false] at he
    rcases he with rfl | rfl
    · exact hvalid a ha
    · exact hvalid a ha
  balanced a := by
    rw [count_nil, Nat.zero_add, (perm_insertionSort _ _).count_eq, (perm_insertionSort _ _).count_eq]
    clear hvalid
    induction items with
    | nil => rfl
    | cons b items ih =>
      simp only [events, flatMap_cons, count_append] at ih ⊢
      rw [ih, count_cons, count_cons, count_cons, count_cons]
      by_cases hba : b = a <;> simp [start, stop, hba]

/-- The groups hold every item once. -/
theorem sweep_perm : (sweep range items).flatten.Perm items := by
  have hends : ((events range items).filter isEnd).map item = items := by
    clear hvalid
    induction items with
    | nil => rfl
    | cons a items ih => simpa [events, start, stop] using ih
  have htracks : Tracks ([] : List α) ⟨0, []⟩ := ⟨rfl, fun h => absurd rfl h⟩
  refine (flatten_foldl_perm (remaining_events hvalid) htracks).trans ?_
  rw [flatten_nil, nil_append]
  exact (((perm_insertionSort _ _).filter _).map _).trans (.of_eq hends)

/-- Items whose ranges overlap are in one group. -/
theorem exists_group_of_overlap (ha : a ∈ items) (hb : b ∈ items) (hne : a ≠ b) (hab : (range a).1 ≤ (range b).2)
    (hba : (range b).1 ≤ (range a).2) : ∃ group ∈ sweep range items, a ∈ group ∧ b ∈ group := by
  have hmem {c : α} (hc : c ∈ items) : stop range c ∈ (events range items).insertionSort before :=
    (perm_insertionSort _ _).symm.subset (mem_flatMap.mpr ⟨c, hc, by simp⟩)
  exact exists_group_foldl (remaining_events hvalid) ⟨rfl, fun h => absurd rfl h⟩ (hmem ha) (hmem hb) hne hab hba

end Overlap
end Library.Sweep
