import VarveDB.Library.IndexMap
import VarveDB.Library.Runs

/-! The cache of values that a plugin keeps between its runs, in which a value may expire. -/
namespace VarveDB.PluginCache
open Library Runs IndexMap Function

structure CacheEntry (α : Type) where
  value : α
  expiresAt : Option Int

variable {α : Type} (defaultTtl : Option Nat) (expirations : IndexMap Int (Finset String))
  (m : String → Option (CacheEntry α))

namespace CacheEntry

def unexpired (now : Int) (entry : CacheEntry α) : Bool := entry.expiresAt.all (now < ·)

def kept (now : Int) (entry : CacheEntry α) : Bool := entry.expiresAt.all (now ≤ ·)

def tryNew (value : α) (ttl : Option (Option Nat)) (now : Int) : Option (CacheEntry α) :=
  match ttl with
  | none => some ⟨value, none⟩
  | some seconds => seconds.map fun duration => ⟨value, some (now + duration)⟩

end CacheEntry

open CacheEntry

structure ExpiringCache (α : Type) where
  entries : IndexMap String (CacheEntry α)
  expirations : IndexMap Int (Finset String)
  defaultTtl : Option Nat

inductive Action (α : Type) where
  | put (key : String) (value : α) (ttl : Option (Option Nat)) (now now' : Int)
  | get (key : String) (now : Int)
  | delete (key : String)
  | cleanup (now : Int)

def keysAt (t : Int) : Finset String := (expirations.lookup t).getD ∅

def expiry (key : String) : Option Int := (m key).bind expiresAt

namespace ExpiringCache

def new : ExpiringCache α := ⟨.empty _, .empty _, defaultTtl⟩

def stored (entry : CacheEntry α) (now : Int) : CacheEntry α :=
  match defaultTtl, entry.expiresAt with
  | some ttl, none => { entry with expiresAt := some (now + ttl) }
  | _, _ => entry

section
variable (c : ExpiringCache α) (key : String) (now : Int)

def unindex : Option (IndexMap Int (Finset String)) :=
  match expiry c.entries.lookup key with
  | none => some c.expirations
  | some t => (c.expirations.lookup t).map fun keys => c.expirations.put t (keys.erase key)

def insert (entry : CacheEntry α) : Option (ExpiringCache α) := do
  let entry := stored c.defaultTtl entry now
  let expirations ← c.unindex key
  some { c with
    entries := c.entries.put key entry
    expirations := match entry.expiresAt with
      | none => expirations
      | some t => expirations.put t (Insert.insert key (keysAt expirations t)) }

def remove : Option (ExpiringCache α × Bool) :=
  match c.entries.lookup key with
  | none => some (c, false)
  | some _ => (c.unindex key).map fun expirations =>
    ({ c with entries := c.entries.remove key, expirations := expirations }, true)

def get : Option (ExpiringCache α × Option α) :=
  match c.entries.lookup key with
  | none => some (c, none)
  | some entry => if entry.unexpired now then some (c, some entry.value) else (c.remove key).map fun r => (r.1, none)

def due : Bool := c.expirations.keys.any fun t => t < now ∧ key ∈ keysAt c.expirations t

def cleanup : ExpiringCache α :=
  if ∀ t ∈ c.expirations.keys, now < t then c
  else { c with
    entries := c.entries.retain fun e => !c.due e.1 now
    expirations := c.expirations.retain fun e => now ≤ e.1 }

def step : Action α → Option (ExpiringCache α)
  | .put key value ttl now now' => (tryNew value ttl now).elim (some c) (c.insert key now')
  | .get key now => (c.get key now).map Prod.fst
  | .delete key => (c.remove key).map Prod.fst
  | .cleanup now => some (c.cleanup now)

def Indexed : Prop := ∀ key t, key ∈ keysAt c.expirations t ↔ expiry c.entries.lookup key = some t

end

/-- What a call makes of the entries of the last puts: an entry is dropped when it is deleted, when a get of it finds it
expired, and when a cleanup runs after its expiry. -/
def live : Action α → String → Option (CacheEntry α)
  | .put key value ttl now now' => (tryNew value ttl now).elim m fun entry =>
    update m key (some (stored defaultTtl entry now'))
  | .get key now => update m key ((m key).filter (·.unexpired now))
  | .delete key => update m key none
  | .cleanup now => fun key => (m key).filter (·.kept now)

structure Becomes (c c' : ExpiringCache α) (m : String → Option (CacheEntry α)) : Prop where
  defaultTtl : c'.defaultTtl = c.defaultTtl
  indexed : c'.Indexed
  entries : c'.entries.lookup = m

private theorem keysAt_put (t t' : Int) (keys : Finset String) :
    keysAt (expirations.put t keys) t' = if t' = t then keys else keysAt expirations t' := by
  rw [keysAt, lookup_put]
  split_ifs <;> rfl

variable {c : ExpiringCache α} (h : c.Indexed) (key : String) (now : Int)
include h

/-- A key that is indexed under a time has an entry there. -/
theorem Indexed.exists_keys {key : String} {t : Int} (ht : expiry c.entries.lookup key = some t) :
    ∃ keys, c.expirations.lookup t = some keys := by
  have hmem := (h key t).mpr ht
  cases hkeys : c.expirations.lookup t with
  | none => simp [keysAt, hkeys] at hmem
  | some keys => exact ⟨keys, rfl⟩

private theorem Indexed.exists_unindex : ∃ expirations, c.unindex key = some expirations ∧
    ∀ k t, k ∈ keysAt expirations t ↔ k ≠ key ∧ expiry c.entries.lookup k = some t := by
  cases hold : expiry c.entries.lookup key with
  | none => exact ⟨c.expirations, by simp [unindex, hold], fun k t => by grind [h k t]⟩
  | some t₀ =>
    obtain ⟨keys, hkeys⟩ := h.exists_keys hold
    refine ⟨c.expirations.put t₀ (keys.erase key), by simp [unindex, hold, hkeys], fun k t => ?_⟩
    have hk := h k t
    rw [keysAt_put]
    split_ifs with ht
    · rw [ht, keysAt, hkeys, Option.getD_some] at hk
      rw [Finset.mem_erase, hk, ht]
    · grind

theorem Indexed.insert (entry : CacheEntry α) : ∃ c', c.insert key now entry = some c' ∧
    c.Becomes c' (update c.entries.lookup key (some (stored c.defaultTtl entry now))) := by
  obtain ⟨expirations, hunindex, hkeys⟩ := h.exists_unindex key
  rw [ExpiringCache.insert, hunindex]
  refine ⟨_, rfl, rfl, fun k t => ?_, funext fun k => (lookup_put ..).trans (update_apply ..).symm⟩
  simp only [expiry, lookup_put] at hkeys ⊢
  cases hexpires : (stored c.defaultTtl entry now).expiresAt with
  | none => by_cases hk : k = key <;> simp [hkeys, hk, hexpires]
  | some t₁ =>
    dsimp only
    rw [keysAt_put]
    by_cases hk : k = key <;> by_cases ht : t = t₁ <;> grind

theorem Indexed.remove :
    ∃ c' found, c.remove key = some (c', found) ∧ c.Becomes c' (update c.entries.lookup key none) := by
  rw [ExpiringCache.remove]
  split
  next hnone => exact ⟨c, false, rfl, rfl, h, by rw [← hnone, update_eq_self]⟩
  next =>
    obtain ⟨expirations, hunindex, hkeys⟩ := h.exists_unindex key
    rw [hunindex]
    refine ⟨_, true, rfl, rfl, fun k t => ?_, funext fun k => (lookup_remove ..).trans (update_apply ..).symm⟩
    rw [hkeys, expiry, expiry, lookup_remove]
    by_cases hk : k = key <;> simp [hk]

theorem Indexed.get : ∃ c', c.get key now = some (c', ((c.entries.lookup key).filter (·.unexpired now)).map value) ∧
      c.Becomes c' (update c.entries.lookup key ((c.entries.lookup key).filter (·.unexpired now))) := by
  rw [ExpiringCache.get]
  cases he : c.entries.lookup key with
  | none => exact ⟨c, rfl, rfl, h, by rw [Option.filter_none, ← he, update_eq_self]⟩
  | some e =>
    rw [Option.filter_some]
    dsimp only
    split_ifs
    · exact ⟨c, rfl, rfl, h, by rw [← he, update_eq_self]⟩
    · obtain ⟨c', found, hc', hbecomes⟩ := h.remove key
      exact ⟨c', by rw [hc']; rfl, hbecomes⟩

theorem Indexed.cleanup : c.Becomes (c.cleanup now) fun k => (c.entries.lookup k).filter (·.kept now) := by
  have hkept (k : String) :
      ((c.entries.lookup k).filter fun _ => !c.due k now) = (c.entries.lookup k).filter (·.kept now) := by
    cases he : c.entries.lookup k with
    | none => rfl
    | some e =>
      have hkey (t : Int) : k ∈ keysAt c.expirations t ↔ e.expiresAt = some t := by simpa [expiry, he] using h k t
      have hkeys {t : Int} (ht : e.expiresAt = some t) : t ∈ c.expirations.keys :=
        mem_keys_iff.mpr (isSome_iff_exists.mpr (h.exists_keys (by rw [expiry, he]; exact ht)))
      have hdue : (!c.due k now) = e.kept now := by
        rw [Bool.eq_iff_iff]
        cases ht : e.expiresAt with
        | none => simp [due, kept, hkey, ht]
        | some t =>
          simp [due, kept, hkey, ht]
          grind
      simp only [Option.filter_some, hdue]
  unfold ExpiringCache.cleanup
  split_ifs with hfirst
  · refine ⟨rfl, h, funext fun k => ?_⟩
    have hdue : c.due k now = false := by
      simp [due]
      grind
    rw [← hkept, hdue]
    cases c.entries.lookup k <;> rfl
  · have hentries (k : String) := (lookup_retain c.entries (fun e => !c.due e.1 now) k).trans (hkept k)
    refine ⟨rfl, fun k t => ?_, funext hentries⟩
    rw [expiry, hentries, keysAt, lookup_retain]
    have hold := h k t
    rw [keysAt, expiry] at hold
    have hindex : k ∈ ((c.expirations.lookup t).filter fun _ => now ≤ t).getD ∅ ↔
        now ≤ t ∧ k ∈ (c.expirations.lookup t).getD ∅ := by
      cases c.expirations.lookup t <;> by_cases hle : now ≤ t <;> simp [hle, Option.filter_some]
    rw [hindex, hold]
    cases c.entries.lookup k with
    | none => simp
    | some e =>
      rw [Option.filter_some, kept]
      cases ht : e.expiresAt <;> simp <;> grind

theorem Indexed.step (a : Action α) :
    ∃ c', c.step a = some c' ∧ c.Becomes c' (live c.defaultTtl c.entries.lookup a) := by
  cases a with
  | put key value ttl now now' =>
    rw [ExpiringCache.step, live]
    cases tryNew value ttl now with
    | none => exact ⟨c, rfl, rfl, h, rfl⟩
    | some entry => exact h.insert key now' entry
  | get key now =>
    obtain ⟨c', hc', hbecomes⟩ := h.get key now
    exact ⟨c', by rw [ExpiringCache.step, hc']; rfl, hbecomes⟩
  | delete key =>
    obtain ⟨c', found, hc', hbecomes⟩ := h.remove key
    exact ⟨c', by rw [ExpiringCache.step, hc']; rfl, hbecomes⟩
  | cleanup now => exact ⟨_, rfl, h.cleanup now⟩

private theorem Indexed.exists_run (as : List (Action α)) :
    ∃ c', run ExpiringCache.step c as = some c' ∧ c.Becomes c' (as.foldl (live c.defaultTtl) c.entries.lookup) := by
  induction as generalizing c with
  | nil => exact ⟨c, rfl, rfl, h, rfl⟩
  | cons a as ih =>
    obtain ⟨m, hm, hbecomes⟩ := h.step a
    obtain ⟨c', hc', hrest⟩ := ih hbecomes.indexed
    rw [hbecomes.defaultTtl, hbecomes.entries] at hrest
    exact ⟨c', run_cons_eq_some.mpr ⟨m, hm, hc'⟩, hrest.1.trans hbecomes.1, hrest.2, hrest.3⟩

omit h

/-- No `unwrap` fails in any run, the index is exact, a get returns the value of the last put unless it was dropped or
has expired, and a cleanup drops only what has expired. -/
theorem run_indexed (defaultTtl : Option Nat) (as : List (Action α)) :
    ∃ c, run step (new defaultTtl) as = some c ∧ c.Indexed ∧
      (∀ key now, (c.get key now).map Prod.snd =
        some (((as.foldl (live defaultTtl) (fun _ => none) key).filter (·.unexpired now)).map value)) ∧
      ∀ key now entry, c.entries.lookup key = some entry → entry.unexpired now →
        (c.cleanup now).entries.lookup key = some entry := by
  have hnew : (new defaultTtl : ExpiringCache α).Indexed := fun key t => by simp [new, keysAt, expiry]
  obtain ⟨c, hrun, -, hindexed, hentries⟩ := hnew.exists_run as
  refine ⟨c, hrun, hindexed, fun key now => ?_, fun key now entry hentry hunexpired => ?_⟩
  · obtain ⟨c', hget, -⟩ := hindexed.get key now
    rw [hget, hentries]
    rfl
  · rw [(hindexed.cleanup now).entries]
    refine Option.filter_eq_some_iff.mpr ⟨hentry, ?_⟩
    simp only [kept, unexpired, Option.all_eq_true, decide_eq_true_eq] at hunexpired ⊢
    exact fun t ht => (hunexpired t ht).le

/-- The clock goes back after a get has found the entry expired: its expiry is later than now again, and
there is no entry. -/
theorem expired_entry_gone : ∃ c : ExpiringCache Nat,
    run step (new none) [.put "k" 7 (some (some 10)) 0 0, .get "k" 10] = some c ∧
      (c.get "k" 5).map Prod.snd = some none := by
  decide

end ExpiringCache
end VarveDB.PluginCache
