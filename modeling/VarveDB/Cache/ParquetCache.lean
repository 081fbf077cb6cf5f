import VarveDB.Library.IndexMap
import VarveDB.Library.Results
import VarveDB.Library.Runs

/-! Reads through the Parquet cache against the same reads of the object store behind it. -/
namespace VarveDB.ParquetCache
open Library Runs List

abbrev Bytes := List UInt8

def slice (data : Bytes) (range : Nat × Nat) : Bytes := (data.take range.2).drop range.1

structure ObjectMeta where
  location : String
  size : Nat
  deriving DecidableEq

inductive GetRange where
  | bounded (start stop : Nat)
  | offset (start : Nat)
  | suffix (length : Nat)

inductive StoreError where
  | notFound (path : String)
  | inconsistent (start stop : Nat)
  | startTooLarge (requested length : Nat)
  | generic (source : String)

structure GetResult where
  payload : Bytes
  info : ObjectMeta
  range : Nat × Nat
  deriving DecidableEq

abbrev Objects := String → Option Bytes

namespace Inner

def asRange (length : Nat) : GetRange → Except StoreError (Nat × Nat)
  | .bounded start stop =>
    if stop ≤ start then .error (.inconsistent start stop)
    else if length ≤ start then .error (.startTooLarge start length)
    else .ok (start, min stop length)
  | .offset start => if length ≤ start then .error (.startTooLarge start length) else .ok (start, length)
  | .suffix n => .ok (length - n, length)

variable (objects : Objects) (path : String)

def getOpts (range : Option GetRange) : Except StoreError GetResult :=
  match objects path with
  | none => .error (.notFound path)
  | some data => do
    let r ← range.elim (.ok (0, data.length)) (asRange data.length)
    .ok ⟨slice data r, ⟨path, data.length⟩, r⟩

def getRange (range : Nat × Nat) : Except StoreError Bytes :=
  (getOpts objects path (some (.bounded range.1 range.2))).map GetResult.payload

/-- Range by range; a store may also join ranges that are close to each other, or look at the object if
there are none. -/
def getRanges (ranges : List (Nat × Nat)) : Except StoreError (List Bytes) :=
  ranges.mapM (getRange objects path)

def head : Except StoreError ObjectMeta :=
  (getOpts objects path none).map GetResult.info

end Inner

structure CacheValue where
  data : Bytes
  info : ObjectMeta

section
variable (objects : Objects) (path : String)

def CacheValue.fetch : Except StoreError CacheValue :=
  (Inner.getOpts objects path none).map fun res => ⟨res.payload, res.info⟩

inductive CacheEntryState where
  | fetching
  | success (value : CacheValue)

def CacheEntryState.value : CacheEntryState → Except StoreError CacheValue
  | .fetching => (CacheValue.fetch objects path).mapError fun _ => .generic "mem_cached_object_store"
  | .success v => .ok v

end

abbrev Cache := IndexMap String CacheEntryState

variable (objects : Objects) (cache : Cache) (path : String) (call : Call) {ε α β : Type} (x : Except ε α)

inductive Action where
  | registerImmediate (path : String)
  | setFetching (path : String)
  | finishFetch (path : String)
  | evict (path : String)
  | prune (paths : List String)

namespace Cache

def setSuccess (value : CacheValue) : Cache :=
  match cache.lookup path with
  | some .fetching => cache.put path (.success value)
  | _ => cache

/-- The entries of `prune` are those that were hit least recently; here they are any. -/
def step : Action → Option Cache
  | .registerImmediate path => (objects path).map fun data =>
      if (cache.lookup path).isSome then cache else cache.put path (.success ⟨data, ⟨path, data.length⟩⟩)
  | .setFetching path => some (cache.put path .fetching)
  | .finishFetch path => some <| match CacheValue.fetch objects path with
    | .ok value => cache.setSuccess path value
    | .error _ => cache.remove path
  | .evict path => some (cache.remove path)
  | .prune paths => some (cache.retain fun e => e.1 ∉ paths)

end Cache

def checkRange (range : Nat × Nat) (objectSize : Nat) : Except StoreError (Nat × Nat) :=
  if range.2 > objectSize then
    .error (.generic s!"Range end ({range.2}) out of bounds, object size is {objectSize}")
  else if range.1 ≥ objectSize then
    .error (.generic s!"Range start ({range.1}) out of bounds, object size is {objectSize}")
  else if range.1 > range.2 then
    .error (.generic s!"Range end ({range.2}) is before range start ({range.1})")
  else .ok range

namespace MemCached

def requested (length : Nat) : GetRange → Nat × Nat
  | .bounded start stop => (start, stop)
  | .offset start => (start, length)
  | .suffix stop => (0, stop)

variable (objects : Objects) (cache : Cache) (path : String)

def getOpts (range : Option GetRange) : Except StoreError GetResult :=
  match cache.lookup path with
  | none => Inner.getOpts objects path range
  | some state => do
    let v ← state.value objects path
    let bytes ← match range with
      | none => .ok v.data
      | some r => (checkRange (requested v.data.length r) v.data.length).map (slice v.data)
    .ok ⟨bytes, v.info, (0, v.data.length)⟩

def getRanges (ranges : List (Nat × Nat)) : Except StoreError (List Bytes) :=
  match cache.lookup path with
  | none => Inner.getRanges objects path ranges
  | some state => do
    let v ← state.value objects path
    ranges.mapM fun range => (checkRange range v.data.length).map (slice v.data)

def getRange (range : Nat × Nat) : Except StoreError (Option Bytes) :=
  (getRanges objects cache path [range]).map List.head?

def head : Except StoreError ObjectMeta :=
  match cache.lookup path with
  | none => Inner.head objects path
  | some state => (state.value objects path).map CacheValue.info

end MemCached

inductive Call where
  | getOpts (range : Option GetRange)
  | getRange (range : Nat × Nat)
  | getRanges (ranges : List (Nat × Nat))
  | head

inductive Answer where
  | result (result : GetResult)
  | bytes (parts : List Bytes)
  | info (info : ObjectMeta)
  deriving DecidableEq

def MemCached.answer : Call → Except StoreError Answer
  | .getOpts range => (getOpts objects cache path range).map .result
  | .getRange range => (getRange objects cache path range).map fun part => .bytes part.toList
  | .getRanges ranges => (getRanges objects cache path ranges).map .bytes
  | .head => (head objects cache path).map .info

def Inner.answer : Call → Except StoreError Answer
  | .getOpts range => (getOpts objects path range).map .result
  | .getRange range => (getRange objects path range).map fun part => .bytes [part]
  | .getRanges ranges => (getRanges objects path ranges).map .bytes
  | .head => (head objects path).map .info

def Transparent : Prop :=
  (MemCached.answer objects cache path call).toOption = (Inner.answer objects path call).toOption

def Agrees (length : Nat) : Call → Prop
  | .getOpts none => True
  | .getOpts (some (.bounded start stop)) => start = 0 ∧ stop = length ∧ 0 < length ∨ length ≤ start ∨ stop < start
  | .getOpts (some (.offset start)) => start = 0 ∨ length ≤ start
  | .getOpts (some (.suffix n)) => n = length ∧ 0 < length
  | .getRange r => length ≤ r.1 ∨ r.2 ≠ r.1 ∧ r.2 ≤ length
  | .getRanges rs => (∀ r ∈ rs, r.1 < r.2 ∧ r.2 ≤ length) ∨
      (∃ r ∈ rs, length < r.2 ∨ length ≤ r.1 ∨ r.2 < r.1) ∧ ∃ r ∈ rs, r.2 ≤ r.1 ∨ length ≤ r.1
  | .head => True

/-- The object is not in the cache, or the read is one that the cache answers as the store does; a
read of no ranges at all succeeds at the store even if there is no object. -/
def Undisturbed : Prop :=
  cache.lookup path = none ∨
    (objects path).elim (∀ rs, call = .getRanges rs → rs ≠ []) fun data => Agrees data.length call

def Cache.Faithful : Prop :=
  ∀ path v, cache.lookup path = some (.success v) → objects path = some v.data ∧ v.info = ⟨path, v.data.length⟩

section
variable {objects : Objects} {cache : Cache} {path : String}

private theorem fetch_eq_ok {v : CacheValue} (h : CacheValue.fetch objects path = .ok v) :
    objects path = some v.data ∧ v.info = ⟨path, v.data.length⟩ := by
  unfold CacheValue.fetch Inner.getOpts at h
  cases hdata : objects path with
  | none => simp [hdata, Except.map] at h
  | some data =>
    simp only [hdata, Except.map, bind, Except.bind, elim_none, Except.ok.injEq] at h
    subst h
    simp [slice]

namespace Cache

theorem Faithful.step {cache' : Cache} {a : Action} (h : cache.Faithful objects)
    (hstep : step objects cache a = some cache') : cache'.Faithful objects := by
  have hremove (p : String) : Faithful objects (cache.remove p) :=
    fun path v hv => h path v (IndexMap.lookup_of_remove hv)
  have hput (p : String) (state : CacheEntryState)
      (hstate : ∀ v, state = .success v → objects p = some v.data ∧ v.info = ⟨p, v.data.length⟩) :
      Faithful objects (cache.put p state) := by
    intro path v hv
    rcases IndexMap.lookup_of_put hv with ⟨rfl, hstored⟩ | ⟨-, hv⟩
    · exact hstate v hstored.symm
    · exact h path v hv
  cases a with
  | registerImmediate p =>
    obtain ⟨data, hdata, rfl⟩ := map_eq_some_iff.mp hstep
    split
    · exact h
    · exact hput p _ fun v hv => by cases hv; exact ⟨hdata, rfl⟩
  | setFetching p =>
    cases hstep
    exact hput p _ fun v hv => by cases hv
  | finishFetch p =>
    cases hstep
    split
    · next value hvalue =>
      unfold setSuccess
      split
      · exact hput p _ fun v hv => by cases hv; exact fetch_eq_ok hvalue
      · exact h
    · exact hremove p
  | evict p =>
    cases hstep
    exact hremove p
  | prune paths =>
    cases hstep
    intro path v hv
    rw [IndexMap.lookup_retain] at hv
    exact h path v (Option.filter_eq_some_iff.mp hv).1

end Cache

variable {state : CacheEntryState}

/-- An entry of an object that exists has its bytes, be it fetched or still being fetched. -/
theorem Cache.Faithful.value (h : cache.Faithful objects) (hstate : cache.lookup path = some state) :
    (state.value objects path).toOption = (objects path).map fun data => ⟨data, path, data.length⟩ := by
  cases state with
  | fetching =>
    rw [CacheEntryState.value, CacheValue.fetch, Inner.getOpts]
    cases objects path with
    | none => rfl
    | some data => simp [bind, Except.bind, Except.map, Except.mapError, Except.toOption, slice]
  | success v =>
    obtain ⟨hdata, hinfo⟩ := h path v hstate
    rw [hdata, Option.map_some, ← hinfo]
    rfl

theorem toOption_bind (f : α → Except ε β) : (x >>= f).toOption = x.toOption.bind fun a =>
    (f a).toOption := by cases x <;> rfl

theorem toOption_map (f : α → β) : (x.map f).toOption = x.toOption.map f := by
  cases x <;> rfl

/-- A list of reads succeeds if each of them does. -/
theorem toOption_mapM {f : α → Except ε β} {ok : α → Prop} [DecidablePred ok] {value : α → β}
    (hf : ∀ a, (f a).toOption = if ok a then some (value a) else none) (l : List α) :
    (l.mapM f).toOption = if ∀ a ∈ l, ok a then some (l.map value) else none := by
  induction l with
  | nil => simp [Except.toOption, pure, Except.pure]
  | cons a l ih =>
    rw [mapM_cons, toOption_bind, hf]
    by_cases ha : ok a
    · rw [if_pos ha, bind_some, toOption_bind, ih]
      by_cases hl : ∀ b ∈ l, ok b
      · rw [if_pos hl, if_pos (forall_mem_cons.mpr ⟨ha, hl⟩)]
        rfl
      · rw [if_neg hl, if_neg fun hall => hl (forall_mem_cons.mp hall).2]
        rfl
    · rw [if_neg ha, if_neg fun hall => ha (forall_mem_cons.mp hall).1]
      rfl

private theorem toOption_checkRange (r : Nat × Nat) (n : Nat) :
    (checkRange r n).toOption = if r.2 ≤ n ∧ r.1 < n ∧ r.1 ≤ r.2 then some r else none := by
  unfold checkRange
  split_ifs <;> first | rfl | omega

private theorem toOption_asRange_bounded (n start stop : Nat) : (Inner.asRange n (.bounded start stop)).toOption =
    if start < stop ∧ start < n then some (start, min stop n) else none := by
  simp only [Inner.asRange]
  split_ifs <;> first | rfl | omega

private theorem toOption_asRange_offset (n start : Nat) :
    (Inner.asRange n (.offset start)).toOption = if start < n then some (start, n) else none := by
  simp only [Inner.asRange]
  split_ifs <;> first | rfl | omega

section Object
variable {data : Bytes} {cached inner : Prop} {r r' : Nat × Nat}

theorem toOption_inner_getOpts (hdata : objects path = some data) (range : Option GetRange) :
    (Inner.getOpts objects path range).toOption =
      ((range.elim (.ok (0, data.length)) (Inner.asRange data.length)).toOption).map fun r =>
        ⟨slice data r, ⟨path, data.length⟩, r⟩ := by
  rw [Inner.getOpts, hdata, toOption_bind, Option.map_eq_bind]
  rfl

private theorem toOption_inner_getRange (hdata : objects path = some data) (r : Nat × Nat) :
    (Inner.getRange objects path r).toOption =
      if r.1 < r.2 ∧ r.1 < data.length then some (slice data (r.1, min r.2 data.length)) else none := by
  rw [Inner.getRange, toOption_map, toOption_inner_getOpts hdata, elim_some, toOption_asRange_bounded]
  split_ifs <;> rfl

private theorem Cache.Faithful.value_eq_ok (h : cache.Faithful objects)
    (hstate : cache.lookup path = some state) (hdata : objects path = some data) :
    state.value objects path = .ok ⟨data, path, data.length⟩ := by
  refine toOption_eq_some.mp ?_
  rw [h.value hstate, hdata, Option.map_some]

private theorem slice_min (r : Nat × Nat) : slice data (r.1, min r.2 data.length) = slice data r := by
  simp [slice, take_eq_take_min]

private theorem result_eq_iff : (some (⟨slice data r, ⟨path, data.length⟩, (0, data.length)⟩ : GetResult) =
    some ⟨slice data r', ⟨path, data.length⟩, r'⟩) ↔ r' = (0, data.length) ∧ slice data r = data := by
  have hwhole : slice data (0, data.length) = data := by simp [slice]
  simp only [some.injEq, GetResult.mk.injEq, true_and]
  constructor
  · rintro ⟨hslice, rfl⟩
    exact ⟨rfl, hslice.trans hwhole⟩
  · rintro ⟨rfl, hslice⟩
    exact ⟨hslice.trans hwhole.symm, rfl⟩

private theorem slice_eq_self_iff {r : Nat × Nat} (hr : r.2 ≤ data.length) (hle : r.1 ≤ r.2) :
    slice data r = data ↔ r.2 - r.1 = data.length := by
  constructor
  · intro h
    have hlength := congrArg List.length h
    simpa [slice, hr] using hlength
  · intro h
    have hr' : r = (0, data.length) := Prod.ext (by simp only; omega) (by simp only; omega)
    rw [hr']
    simp [slice]

theorem results_eq_iff [Decidable cached] [Decidable inner] (hr : cached → r.2 ≤ data.length ∧ r.1 ≤ r.2) :
    ((if cached then some r else none).map fun r =>
      (⟨slice data r, ⟨path, data.length⟩, (0, data.length)⟩ : GetResult)) =
      ((if inner then some r' else none).map fun r => ⟨slice data r, ⟨path, data.length⟩, r⟩) ↔
    cached ∧ inner ∧ r' = (0, data.length) ∧ r.2 - r.1 = data.length ∨ ¬ cached ∧ ¬ inner := by
  by_cases hc : cached
  · by_cases hi : inner
    · rw [if_pos hc, if_pos hi, Option.map_some, Option.map_some, result_eq_iff, slice_eq_self_iff (hr hc).1 (hr hc).2]
      simp [hc, hi]
    · simp [hc, hi]
  · by_cases hi : inner <;> simp [hc, hi]

private theorem getOpts_cached_iff (path : String) (range : GetRange) :
    (((checkRange (MemCached.requested data.length range) data.length).toOption).map fun r =>
        (⟨slice data r, ⟨path, data.length⟩, (0, data.length)⟩ : GetResult)) =
      ((Inner.asRange data.length range).toOption.map fun r => ⟨slice data r, ⟨path, data.length⟩, r⟩) ↔
    Agrees data.length (.getOpts (some range)) := by
  rw [toOption_checkRange]
  cases range with
  | bounded start stop =>
    rw [toOption_asRange_bounded, results_eq_iff fun h => ⟨h.1, h.2.2⟩]
    simp only [MemCached.requested, Agrees, Prod.mk.injEq]
    omega
  | offset start =>
    rw [toOption_asRange_offset, results_eq_iff fun h => ⟨h.1, h.2.2⟩]
    simp only [MemCached.requested, Agrees, Prod.mk.injEq, le_refl, and_true, true_and]
    omega
  | suffix n =>
    have hinner : (Inner.asRange data.length (.suffix n)).toOption =
      if True then some (data.length - n, data.length) else none := rfl
    rw [hinner, results_eq_iff fun h => ⟨h.1, h.2.2⟩]
    simp only [MemCached.requested, Agrees, Prod.mk.injEq, and_true, true_and, not_true_eq_false, and_false, or_false]
    omega

private theorem some_if_eq_iff {α : Type} {a : α} [Decidable cached] [Decidable inner] :
    ((if cached then some a else none) = if inner then some a else none) ↔ cached ∧ inner ∨ ¬ cached ∧ ¬ inner := by
  by_cases hc : cached <;> by_cases hi : inner <;> simp [hc, hi]

private theorem getRanges_cached_iff (rs : List (Nat × Nat)) :
    (if ∀ r ∈ rs, r.2 ≤ data.length ∧ r.1 < data.length ∧ r.1 ≤ r.2 then some (rs.map (slice data)) else none) =
      (if ∀ r ∈ rs, r.1 < r.2 ∧ r.1 < data.length then some (rs.map (slice data)) else none) ↔
    Agrees data.length (.getRanges rs) := by
  have hcached : (¬ ∀ r ∈ rs, r.2 ≤ data.length ∧ r.1 < data.length ∧ r.1 ≤ r.2) ↔
      ∃ r ∈ rs, data.length < r.2 ∨ data.length ≤ r.1 ∨ r.2 < r.1 := by
    push Not
    exact exists_congr fun r => and_congr_right fun _ => by omega
  have hinner : (¬ ∀ r ∈ rs, r.1 < r.2 ∧ r.1 < data.length) ↔ ∃ r ∈ rs, r.2 ≤ r.1 ∨ data.length ≤ r.1 := by
    push Not
    exact exists_congr fun r => and_congr_right fun _ => by omega
  have hboth : (∀ r ∈ rs, r.1 < r.2 ∧ r.2 ≤ data.length) ↔
      (∀ r ∈ rs, r.2 ≤ data.length ∧ r.1 < data.length ∧ r.1 ≤ r.2) ∧ ∀ r ∈ rs, r.1 < r.2 ∧ r.1 < data.length := by
    rw [← forall₂_and]
    exact forall₂_congr fun r _ => by omega
  simp only [Agrees]
  rw [← hcached, ← hinner, hboth]
  exact some_if_eq_iff

variable (h : cache.Faithful objects)
include h

variable (hstate : cache.lookup path = some state)
include hstate

private theorem transparent_iff_agrees
    (hdata : objects path = some data) (call : Call) :
    Transparent objects cache path call ↔ Agrees data.length call := by
  have hvalue := h.value_eq_ok hstate hdata
  have hmap : ∀ rs : List (Nat × Nat), (rs.map fun r => slice data (r.1, min r.2 data.length)) = rs.map (slice data) :=
    fun rs => map_congr_left fun r _ => slice_min r
  have hcachedRanges (rs : List (Nat × Nat)) : (MemCached.getRanges objects cache path rs).toOption =
      if ∀ r ∈ rs, r.2 ≤ data.length ∧ r.1 < data.length ∧ r.1 ≤ r.2 then some (rs.map (slice data)) else none := by
    rw [MemCached.getRanges, hstate]
    simp only [hvalue, bind, Except.bind]
    exact toOption_mapM (fun r => by rw [toOption_map, toOption_checkRange]; split_ifs <;> rfl) rs
  have hinnerRanges (rs : List (Nat × Nat)) : (Inner.getRanges objects path rs).toOption =
      if ∀ r ∈ rs, r.1 < r.2 ∧ r.1 < data.length then some (rs.map (slice data)) else none := by
    rw [Inner.getRanges, toOption_mapM (toOption_inner_getRange hdata), hmap]
  have hcachedOpts (range : GetRange) : (MemCached.getOpts objects cache path (some range)).toOption =
      (checkRange (MemCached.requested data.length range) data.length).toOption.map fun r =>
        ⟨slice data r, ⟨path, data.length⟩, (0, data.length)⟩ := by
    rw [MemCached.getOpts, hstate]
    simp only [hvalue, bind, Except.bind]
    cases checkRange (MemCached.requested data.length range) data.length <;> rfl
  cases call with
  | getOpts range =>
    have hinj : Function.Injective Answer.result := fun _ _ heq => by cases heq; rfl
    rw [Transparent, MemCached.answer, Inner.answer, toOption_map, toOption_map, toOption_inner_getOpts hdata,
      (Option.map_injective hinj).eq_iff]
    cases range with
    | none =>
      rw [MemCached.getOpts, hstate]
      simp [hvalue, bind, Except.bind, Agrees, Except.toOption, slice]
    | some range =>
      rw [hcachedOpts]
      exact getOpts_cached_iff path range
  | getRange r =>
    have hcached : (MemCached.answer objects cache path (.getRange r)).toOption =
        if r.2 ≤ data.length ∧ r.1 < data.length ∧ r.1 ≤ r.2 then some (.bytes [slice data r]) else none := by
      rw [MemCached.answer, toOption_map, MemCached.getRange, toOption_map, hcachedRanges]
      simp only [forall_mem_singleton]
      split_ifs <;> rfl
    have hinner : (Inner.answer objects path (.getRange r)).toOption =
        if r.1 < r.2 ∧ r.1 < data.length then some (.bytes [slice data r]) else none := by
      rw [Inner.answer, toOption_map, toOption_inner_getRange hdata, slice_min]
      split_ifs <;> rfl
    rw [Transparent, hcached, hinner, some_if_eq_iff, Agrees]
    omega
  | getRanges rs =>
    rw [Transparent, MemCached.answer, Inner.answer, toOption_map, toOption_map, hcachedRanges, hinnerRanges,
      (Option.map_injective fun _ _ heq => by cases heq; rfl : Function.Injective (Option.map Answer.bytes)).eq_iff]
    exact getRanges_cached_iff rs
  | head =>
    rw [Transparent, MemCached.answer, Inner.answer, toOption_map, toOption_map, MemCached.head, hstate]
    simp only [hvalue, Inner.head, toOption_map, toOption_inner_getOpts hdata, Agrees, iff_true]
    rfl

/-- A read of an object that does not exist fails, cached or not, unless it asks for nothing. -/
theorem transparent_iff_asks (hdata : objects path = none) (call : Call) :
    Transparent objects cache path call ↔ ∀ rs, call = .getRanges rs → rs ≠ [] := by
  have hopts (range : Option GetRange) : Inner.getOpts objects path range = .error (.notFound path) := by
    rw [Inner.getOpts, hdata]
  obtain ⟨e, hvalue⟩ : ∃ e, state.value objects path = .error e := by
    have hnone := h.value hstate
    rw [hdata] at hnone
    cases hv : state.value objects path with
    | error e => exact ⟨e, rfl⟩
    | ok v => rw [hv] at hnone; cases hnone
  cases call with
  | getOpts | getRange | head =>
    simp [Transparent, MemCached.answer, Inner.answer, MemCached.getOpts, MemCached.getRange, MemCached.getRanges,
      MemCached.head, Inner.getRange, Inner.head, hstate, hvalue, hopts, bind, Except.bind, Except.map, Except.toOption]
  | getRanges rs =>
    cases rs with
    | nil | cons =>
      simp [Transparent, MemCached.answer, Inner.answer, MemCached.getRanges, Inner.getRanges, Inner.getRange, hstate,
        hvalue, hopts, bind, Except.bind, Except.map, Except.toOption, pure, Except.pure]

end Object

/-- In every state of the cache, a read gives the answer of the store or fails with it exactly if the
object is not in the cache, or the read is one of those that the cache answers as the store does. -/
theorem read_transparent_iff {as : List Action}
    (hrun : run (Cache.step objects) (.empty _) as = some cache) (path : String)
    (call : Call) : Transparent objects cache path call ↔ Undisturbed objects cache path call := by
  have h : cache.Faithful objects := invariant_of_step Cache.Faithful.step (fun _ _ hv => by cases hv) hrun
  cases hstate : cache.lookup path with
  | none =>
    refine iff_of_true ?_ (.inl hstate)
    cases call with
    | getRange r =>
      rw [Transparent, MemCached.answer, Inner.answer, toOption_map, MemCached.getRange, toOption_map,
        MemCached.getRanges, hstate]
      simp only [Inner.getRanges, mapM_cons, mapM_nil]
      cases Inner.getRange objects path r <;> rfl
    | getOpts | getRanges | head =>
      simp [Transparent, MemCached.answer, Inner.answer, MemCached.getOpts, MemCached.getRanges, MemCached.head, hstate]
  | some state =>
    rw [Undisturbed, hstate, or_iff_right (by simp)]
    cases hdata : objects path with
    | none => exact transparent_iff_asks h hstate hdata call
    | some data => exact transparent_iff_agrees h hstate hdata call

end

private def file : Objects := fun path => if path = "f" then some [1, 2, 3, 4] else none

private abbrev ReadsFile (as : List Action) (call : Call) (cached inner : Option Answer) : Prop :=
  (run (Cache.step file) (.empty _) as).any (fun cache =>
    decide ((MemCached.answer file cache "f" call).toOption = cached ∧ (Inner.answer file "f" call).toOption = inner)) =
      true

/-- Of a file of four bytes in the cache, the last byte is asked for and the first is returned; a range
that ends past the file is refused, and one in the middle is said to be the whole file. -/
theorem cached_suffix_is_front : ReadsFile [.registerImmediate "f"] (.getOpts (some (.suffix 1)))
      (some (.result ⟨[1], ⟨"f", 4⟩, (0, 4)⟩)) (some (.result ⟨[4], ⟨"f", 4⟩, (3, 4)⟩)) ∧
    ReadsFile [.setFetching "f", .finishFetch "f"] (.getOpts (some (.bounded 0 10)))
      none (some (.result ⟨[1, 2, 3, 4], ⟨"f", 4⟩, (0, 4)⟩)) ∧
    ReadsFile [.setFetching "f"] (.getOpts (some (.bounded 1 3)))
      (some (.result ⟨[2, 3], ⟨"f", 4⟩, (0, 4)⟩)) (some (.result ⟨[2, 3], ⟨"f", 4⟩, (1, 3)⟩)) ∧
    ReadsFile [.registerImmediate "f"] (.getRange (2, 6)) none (some (.bytes [[3, 4]])) := by
  decide +kernel

theorem cached_middle_transparent :
    ∃ cache, run (Cache.step file) (.empty _) [.setFetching "f", .finishFetch "f"] = some cache ∧
    (cache.lookup "f").isSome ∧ Transparent file cache "f" (.getRanges [(1, 3), (0, 4)]) := by
  exact exists_and (by decide +kernel) fun cache hrun _ =>
    (read_transparent_iff hrun "f" _).mpr (.inr (.inl (by decide)))

end VarveDB.ParquetCache
