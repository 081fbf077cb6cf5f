import Mathlib

/-! Runs of a partial labelled step function, and the invariant rule for them. -/
namespace Library.Runs
open List
export Option (some.injEq some.inj bind_eq_some_iff map_eq_some_iff elim_some elim_none ite_none_right_eq_some bind_some
  bind_eq_bind isSome_iff_exists)

variable {σ α : Type*} {o : Option σ} {a : α} {P Q : σ → Prop} {s s' : σ} {l : List α}

/-- Executes the actions in order; an action that is not enabled ends the run with `none`. -/
def run (step : σ → α → Option σ) : σ → List α → Option σ
  | s, [] => some s
  | s, a :: as => (step s a).bind fun s' => run step s' as

/-- Every action of the run meets `guard` in the state it is taken from. -/
def Guarded (step : σ → α → Option σ) (guard : σ → α → Prop) : σ → List α → Prop
  | _, [] => True
  | s, a :: as => guard s a ∧ (step s a).elim True fun s' => Guarded step guard s' as

instance decidableGuarded (step : σ → α → Option σ) (guard : σ → α → Prop)
    [∀ s a, Decidable (guard s a)] : ∀ (s : σ) (as : List α), Decidable (Guarded step guard s as)
  | _, [] => inferInstanceAs (Decidable True)
  | s, a :: as =>
    have : Decidable ((step s a).elim True fun s' => Guarded step guard s' as) :=
      match step s a with
      | none => inferInstanceAs (Decidable True)
      | some s' => decidableGuarded step guard s' as
    inferInstanceAs (Decidable (_ ∧ _))

/-- What is computed is there, with all that a check of it shows. -/
theorem exists_of_decide (P : σ → Prop) [DecidablePred P]
    (hcheck : o.any (fun s => decide (P s)) = true) (h : ∀ s, o = some s → P s → Q s) : ∃ s, o = some s ∧ Q s := by
  obtain ⟨s, hs, hp⟩ := (Option.any_eq_true _ _).mp hcheck
  exact ⟨s, hs, h s hs (of_decide_eq_true hp)⟩

theorem exists_and (hcheck : ∃ s, o = some s ∧ P s) (h : ∀ s, o = some s → P s → Q s) :
    ∃ s, o = some s ∧ P s ∧ Q s := by
  obtain ⟨s, hs, hp⟩ := hcheck
  exact ⟨s, hs, hp, h s hs hp⟩

theorem exists_and_and {R : σ → Prop} (hcheck : ∃ s, o = some s ∧ P s ∧ Q s)
    (h : ∀ s, o = some s → P s → Q s → R s) : ∃ s, o = some s ∧ P s ∧ Q s ∧ R s := by
  obtain ⟨s, hs, hp, hq⟩ := hcheck
  exact ⟨s, hs, hp, hq, h s hs hp hq⟩

instance decidableExistsSome {P : σ → Prop} [DecidablePred P] : Decidable (∃ s, o = some s ∧ P s) :=
  inferInstanceAs (Decidable (∃ s ∈ o, P s))

instance decidableExistsPair {o : Option (σ × α)} {P : σ → α → Prop} [∀ s a, Decidable (P s a)] :
    Decidable (∃ s a, o = some (s, a) ∧ P s a) :=
  decidable_of_iff (∃ x, o = some x ∧ P x.1 x.2) Prod.exists

theorem cons_eraseIdx_perm {i : Nat} (h : l[i]? = some a) : (a :: l.eraseIdx i).Perm l := by
  obtain ⟨hi, rfl⟩ := List.getElem?_eq_some_iff.mp h
  exact getElem_cons_eraseIdx_perm hi

theorem mem_snoc {x : α} : x ∈ l ++ [a] ↔ x ∈ l ∨ x = a := by
  rw [mem_append, mem_singleton]

theorem forall_mem_snoc {P : α → Prop} : (∀ x ∈ l ++ [a], P x) ↔ (∀ x ∈ l, P x) ∧ P a := by
  simp [or_imp, forall_and]

section
variable {step : σ → α → Option σ} {guard : σ → α → Prop}

@[simp]
theorem run_nil (s : σ) : run step s [] = some s := rfl

variable {as : List α}

theorem run_cons_eq_some : run step s (a :: as) = some s' ↔ ∃ m, step s a = some m ∧ run step m as = some s' := by
  simp [run, bind_eq_some_iff]

theorem run_append (s : σ) (as bs : List α) : run step s (as ++ bs) = (run step s as).bind fun m => run step m bs := by
  induction as generalizing s with
  | nil => rfl
  | cons a as ih =>
    cases h : step s a with
    | none => simp [run, h]
    | some m => simpa [run, h] using ih m

theorem Guarded.head (h : Guarded step guard s (a :: as)) : guard s a := h.1

theorem Guarded.tail {m : σ} (h : Guarded step guard s (a :: as)) (hstep : step s a = some m) :
    Guarded step guard m as := by
  simpa [hstep] using h.2

/-- What one guarded action preserves, a guarded run preserves. -/
theorem invariant (preserved : ∀ {s a s'}, P s → guard s a → step s a = some s' → P s') :
    ∀ {s s' : σ}, P s → Guarded step guard s as → run step s as = some s' → P s' := by
  induction as with
  | nil =>
    intro s s' hs _ hrun
    simpa using (some.inj hrun) ▸ hs
  | cons a as ih =>
    intro s s' hs hguard hrun
    obtain ⟨m, hstep, hrest⟩ := run_cons_eq_some.mp hrun
    exact ih (preserved hs hguard.head hstep) (hguard.tail hstep) hrest

theorem guarded_true : ∀ (s : σ) (as : List α), Guarded step (fun _ _ => True) s as
  | _, [] => trivial
  | s, a :: as => ⟨trivial, by cases step s a with
      | none => exact trivial
      | some s' => exact guarded_true s' as⟩

/-- What every action preserves, every run preserves. -/
theorem invariant_of_step (preserved : ∀ {s a s'}, P s → step s a = some s' → P s') (hs : P s)
    (hrun : run step s as = some s') : P s' :=
  invariant (fun h _ hstep => preserved h hstep) hs (guarded_true s as) hrun

end

/-- A run over items with keys of their own, each of which changes what is seen at its key only, ends,
and changes what is seen at each of the keys as the item's step does. -/
theorem exists_run_of_touch {κ ν : Type*} {step : σ → α → Option σ} (key : α → κ) (look : σ → κ → ν) (Good : σ → Prop)
    (R : α → ν → ν → Prop) {as : List α} (hdistinct : (as.map key).Nodup)
    (hstep : ∀ a ∈ as, ∀ m, Good m → look m (key a) = look s (key a) → ∃ m', step m a = some m' ∧ Good m' ∧
      (∀ k, k ≠ key a → look m' k = look m k) ∧ R a (look m (key a)) (look m' (key a))) (hs : Good s) :
    ∃ s', run step s as = some s' ∧ Good s' ∧ (∀ k ∉ as.map key, look s' k = look s k) ∧
      ∀ a ∈ as, R a (look s (key a)) (look s' (key a)) := by
  induction as generalizing s with
  | nil => exact ⟨s, rfl, hs, fun _ _ => rfl, fun _ ha => absurd ha not_mem_nil⟩
  | cons a as ih =>
    obtain ⟨hfresh, hdistinct⟩ := nodup_cons.mp hdistinct
    obtain ⟨m, hm, hgood, hframe, hR⟩ := hstep a mem_cons_self s hs rfl
    have hother {b : α} (hb : b ∈ as) : key b ≠ key a := fun h => hfresh (h ▸ mem_map_of_mem hb)
    obtain ⟨s', hrun, hgood', hframe', hR'⟩ := ih hdistinct (fun b hb m' hm' hlook =>
      hstep b (mem_cons_of_mem _ hb) m' hm' (hlook.trans (hframe _ (hother hb)))) hgood
    refine ⟨s', run_cons_eq_some.mpr ⟨m, hm, hrun⟩, hgood', fun k hk => ?_, forall_mem_cons.mpr ⟨?_, fun b hb => ?_⟩⟩
    · obtain ⟨hne, hnot⟩ := not_or.mp (mem_cons.not.mp hk)
      exact (hframe' k hnot).trans (hframe k hne)
    · rw [hframe' _ hfresh]
      exact hR
    · rw [← hframe _ (hother hb)]
      exact hR' b hb

/-- A run whose steps another step function takes as well is a run of that one. -/
theorem run_transport {f g : σ → α → Option σ} {P : σ → Prop} {as : List α}
    (hstep : ∀ a ∈ as, ∀ {m m'}, P m → f m a = some m' → g m a = some m' ∧ P m') (hs : P s)
    (h : run f s as = some s') : run g s as = some s' ∧ P s' := by
  induction as generalizing s with
  | nil =>
    cases h
    exact ⟨rfl, hs⟩
  | cons a as ih =>
    obtain ⟨m, hm, hrun⟩ := run_cons_eq_some.mp h
    obtain ⟨hg, hP⟩ := hstep a mem_cons_self hs hm
    obtain ⟨hgrun, hP'⟩ := ih (fun b hb => hstep b (mem_cons_of_mem _ hb)) hP hrun
    exact ⟨run_cons_eq_some.mpr ⟨m, hg, hgrun⟩, hP'⟩

end Library.Runs
