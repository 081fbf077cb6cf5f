import Mathlib

/-! Computations that end with a value or with an error. -/
namespace Library
open List

universe u v
variable {α β : Type u} {ε : Type v} {f : α → Except ε β} {as : List α} {x : Except ε α} {bs : List β} {a : α}

theorem bind_eq_ok {b : β} : (x >>= f) = .ok b ↔ ∃ a, x = .ok a ∧ f a = .ok b := by
  cases x <;> simp [Bind.bind, Except.bind]

@[simp]
theorem ok_bind (a : α) (f : α → Except ε β) : (Except.ok a >>= f) = f a := rfl

theorem ite_error_eq_ok {c : Prop} [Decidable c] {e : ε} : (if c then .error e else x) = .ok a ↔ ¬ c ∧ x = .ok a := by
  split <;> simp [*]

instance decidableExistsOk {x : Except ε α} {P : α → Prop} [DecidablePred P] : Decidable (∃ a, x = .ok a ∧ P a) :=
  match x with
  | .error _ => isFalse nofun
  | .ok a => decidable_of_iff (P a) (by simp)

theorem toOption_eq_some : x.toOption = some a ↔ x = .ok a := by
  cases x <;> simp [Except.toOption]

/-- A traversal ends with a value exactly if each element does. -/
theorem mapM_eq_ok_iff : as.mapM f = .ok bs ↔ List.Forall₂ (fun a b => f a = .ok b) as bs := by
  induction as generalizing bs with
  | nil => simp [pure, Except.pure, eq_comm]
  | cons a as ih =>
    rw [mapM_cons, forall₂_cons_left_iff]
    simp only [bind_eq_ok, ih, pure, Except.pure, Except.ok.injEq]
    constructor
    · rintro ⟨b, hb, bs', hbs', rfl⟩
      exact ⟨b, bs', hb, hbs', rfl⟩
    · rintro ⟨b, bs', hb, hbs', rfl⟩
      exact ⟨b, hb, bs', hbs', rfl⟩

/-- A traversal whose elements end with a value of their own under a condition. -/
theorem mapM_eq_ok_map {P : α → Prop} {g : α → β}
    (h : ∀ a ∈ as, ∀ b, f a = .ok b ↔ P a ∧ b = g a) : as.mapM f = .ok bs ↔ (∀ a ∈ as, P a) ∧ bs = as.map g := by
  rw [mapM_eq_ok_iff]
  induction as generalizing bs with
  | nil => simp
  | cons a as ih =>
    obtain ⟨ha, has⟩ := forall_mem_cons.mp h
    simp only [forall₂_cons_left_iff, ih has, ha, forall_mem_cons, map_cons]
    constructor
    · rintro ⟨b, bs, ⟨hb, rfl⟩, ⟨hbs, rfl⟩, rfl⟩
      exact ⟨⟨hb, hbs⟩, rfl⟩
    · rintro ⟨⟨hb, hbs⟩, rfl⟩
      exact ⟨_, _, ⟨hb, rfl⟩, ⟨hbs, rfl⟩, rfl⟩

theorem exists_mapM (h : ∀ a ∈ as, ∃ b, f a = .ok b) : ∃ bs, as.mapM f = .ok bs := by
  induction as with
  | nil => exact ⟨[], rfl⟩
  | cons a as ih =>
    obtain ⟨b, hb⟩ := h a mem_cons_self
    obtain ⟨bs, hbs⟩ := ih fun a ha => h a (mem_cons_of_mem _ ha)
    exact ⟨b :: bs, mapM_eq_ok_iff.mpr (.cons hb (mapM_eq_ok_iff.mp hbs))⟩

/-- What every round preserves, a loop over a list preserves. -/
theorem foldlM_invariant {P : β → Prop} {f : β → α → Except ε β}
    (preserved : ∀ b a b', a ∈ as → P b → f b a = .ok b' → P b') {b b' : β} (hb : P b) (h : as.foldlM f b = .ok b') :
    P b' := by
  induction as generalizing b with
  | nil =>
    rw [foldlM_nil] at h
    exact Except.ok.inj h ▸ hb
  | cons a as ih =>
    rw [foldlM_cons] at h
    obtain ⟨m, ha, has⟩ := bind_eq_ok.mp h
    exact ih (fun b a hb' hmem => preserved b a hb' (mem_cons_of_mem _ hmem))
      (preserved b a m mem_cons_self hb ha) has

end Library
