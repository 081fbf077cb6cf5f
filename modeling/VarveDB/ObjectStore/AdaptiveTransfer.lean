import Mathlib

/-! Reading and writing objects in one request or in pieces, by their size. -/
namespace VarveDB.AdaptiveTransfer
open List

abbrev NonZero := { n : Nat // 0 < n }

variable {α : Type} (object first : List α)

def spans (start size step : Nat) : List (Nat × Nat) :=
  (range' start ((size - start + step - 1) / step) step).map fun offset => (offset, min (offset + step) size)

def slice (l : List α) (range : Nat × Nat) : List α := (l.take range.2).drop range.1

def chunks (n : NonZero) (l : List α) : List (List α) := (spans 0 l.length n).map (slice l)

/-- How the library cuts a payload into the parts of an upload, for a given chunk size. -/
structure WriteMultipart (α : Type) where
  parts : NonZero → List α → List (List α)
  flatten_parts : ∀ chunkSize bytes, (parts chunkSize bytes).flatten = bytes

def putAdaptive (writer : WriteMultipart α) (bytes : List α) (chunkSize : NonZero) : List α :=
  if bytes.length ≤ chunkSize then bytes else (writer.parts chunkSize bytes).flatten

def getRange (object : List α) (range : Nat × Nat) : Option (List α) :=
  if range.1 < object.length then some (slice object range) else none

/-- What a read returns, and the ranges it requests, batch by batch; those of a batch are in flight together. -/
structure Transfer (α : Type) where
  bytes : Option (List α)
  batches : List (List (Nat × Nat))

def walk (batches : List (List (Nat × Nat))) : Option (List α) :=
  batches.foldlM (fun buf batch => (batch.mapM (getRange object)).map fun parts => buf ++ parts.flatten) first

def getAdaptive (object : List α) (size : Option Nat) (threshold chunkSize maxChunksPerBatch : NonZero) : Transfer α :=
  match size with
  | none =>
    let discovery : List (Nat × Nat) := [(0, chunkSize)]
    match getRange object (0, chunkSize) with
    | none => ⟨none, [discovery]⟩
    | some first =>
      if object.length ≤ chunkSize then ⟨some first, [discovery]⟩
      else
        let batches := chunks maxChunksPerBatch (spans chunkSize object.length chunkSize)
        ⟨walk object first batches, discovery :: batches⟩
  | some size =>
    if size ≤ threshold then ⟨some object, [[(0, object.length)]]⟩
    else
      let batches := chunks maxChunksPerBatch (spans 0 size chunkSize)
      ⟨walk object [] batches, batches⟩

section
variable {start size step : Nat}

private theorem pairwise_spans : (spans start size step).Pairwise fun r r' => r.2 ≤ r'.1 := by
  rw [spans]
  generalize (size - start + step - 1) / step = n
  induction n generalizing start with
  | zero => exact .nil
  | succ n ih =>
    refine .cons (forall_mem_map.mpr fun offset hoffset => ?_) ih
    obtain ⟨i, -, rfl⟩ := mem_range'.mp hoffset
    exact Nat.le_trans (Nat.min_le_left ..) (Nat.le_add_right ..)

variable (hstep : 0 < step)
include hstep

theorem mem_spans {r : Nat × Nat} (h : r ∈ spans start size step) : start ≤ r.1 ∧ r.1 < size ∧ r.2 ≤ r.1 + step := by
  obtain ⟨offset, hoffset, rfl⟩ := mem_map.mp h
  obtain ⟨i, hi, rfl⟩ := mem_range'.mp hoffset
  have hlt := (Nat.le_div_iff_mul_le hstep).mp (Nat.succ_le_of_lt hi)
  rw [Nat.succ_mul, Nat.mul_comm] at hlt
  exact ⟨Nat.le_add_right .., by omega, Nat.min_le_left ..⟩

private theorem flatMap_slice_spans (l : List α) : (spans start l.length step).flatMap (slice l) = l.drop start := by
  have hcover : l.length ≤ start + (l.length - start + step - 1) / step * step := by
    have := Nat.div_add_mod' (l.length - start + step - 1) step
    have := Nat.mod_lt (l.length - start + step - 1) hstep
    omega
  rw [spans]
  generalize (l.length - start + step - 1) / step = n at hcover
  induction n generalizing start with
  | zero => simpa using (drop_eq_nil_of_le (by simpa using hcover)).symm
  | succ n ih =>
    rw [Nat.succ_mul] at hcover
    have hslice : slice l (start, min (start + step) l.length) = (l.drop start).take step := by
      rw [slice, ← take_eq_take_min, drop_take, Nat.add_sub_cancel_left]
    rw [range'_succ, map_cons, flatMap_cons, ih (by omega), hslice, ← drop_drop, take_append_drop]

end

private theorem flatten_chunks (n : NonZero) (l : List α) : (chunks n l).flatten = l := by
  rw [chunks, ← flatMap_def, flatMap_slice_spans n.2, drop_zero]

private theorem length_le_of_mem_chunks {n : NonZero} {l piece : List α} (h : piece ∈ chunks n l) :
    piece.length ≤ n := by
  obtain ⟨r, hr, rfl⟩ := mem_map.mp h
  have := (mem_spans n.2 hr).2.2
  simp [slice]
  omega

/-- Ranges inside of the object are all read, in their order. -/
theorem walk_eq {object : List α} {batches : List (List (Nat × Nat))} (first : List α)
    (h : ∀ batch ∈ batches, ∀ r ∈ batch, r.1 < object.length) :
    walk object first batches = some (first ++ batches.flatten.flatMap (slice object)) := by
  induction batches generalizing first with
  | nil => simp [walk]
  | cons batch batches ih =>
    obtain ⟨hbatch, hrest⟩ := forall_mem_cons.mp h
    have hparts : batch.mapM (getRange object) = some (batch.map (slice object)) := by
      induction batch with
      | nil => rfl
      | cons r batch ih =>
        obtain ⟨hr, hbatch⟩ := forall_mem_cons.mp hbatch
        simp [getRange, hr, ih (forall_mem_cons.mpr ⟨hbatch, hrest⟩) hbatch]
    have hrest := ih (first ++ batch.flatMap (slice object)) hrest
    rw [walk] at hrest
    rw [walk, foldlM_cons, hparts, flatten_cons, flatMap_append, ← append_assoc, ← hrest, flatMap_def]
    rfl

/-- A walk over the spans of an object reads the rest of it, in batches of the given size and each byte once. -/
theorem walk_spans (start : Nat) (chunkSize maxChunksPerBatch : NonZero) :
    let batches := chunks maxChunksPerBatch (spans start object.length chunkSize)
    walk object first batches = some (first ++ object.drop start) ∧
      (∀ batch ∈ batches, batch.length ≤ maxChunksPerBatch) ∧
        batches.flatten = spans start object.length chunkSize := by
  intro batches
  have hflat : batches.flatten = spans start object.length chunkSize := flatten_chunks ..
  refine ⟨?_, fun batch => length_le_of_mem_chunks, hflat⟩
  rw [walk_eq, hflat, flatMap_slice_spans chunkSize.2]
  intro batch hbatch r hr
  exact (mem_spans chunkSize.2 (hflat ▸ mem_flatten_of_mem hbatch hr)).2.1

/-- What was put is read back, in batches of the given size and no byte twice, unless it is empty and its size has to
be found out. -/
theorem get_after_put_iff (writer : WriteMultipart α) (payload : List α)
    (putChunkSize threshold chunkSize maxChunksPerBatch : NonZero) (sizeKnown : Bool) :
    let t := getAdaptive (putAdaptive writer payload putChunkSize) (if sizeKnown then some payload.length else none)
      threshold chunkSize maxChunksPerBatch
    (t.bytes = some payload ∧ (∀ batch ∈ t.batches, batch.length ≤ maxChunksPerBatch) ∧
        t.batches.flatten.Pairwise fun r r' => r.2 ≤ r'.1) ↔ payload ≠ [] ∨ sizeKnown = true := by
  have hput : putAdaptive writer payload putChunkSize = payload := by
    rw [putAdaptive, writer.flatten_parts, ite_self]
  have hone (r : Nat × Nat) : ∀ batch ∈ [[r]], batch.length ≤ maxChunksPerBatch :=
    forall_mem_singleton.mpr maxChunksPerBatch.2
  simp only [hput]
  cases sizeKnown with
  | true =>
    simp only [if_true, or_true, iff_true, getAdaptive]
    split
    · exact ⟨rfl, hone _, pairwise_singleton ..⟩
    · obtain ⟨hbytes, hsizes, hflat⟩ := walk_spans payload [] 0 chunkSize maxChunksPerBatch
      refine ⟨hbytes, hsizes, ?_⟩
      rw [hflat]
      exact pairwise_spans
  | false =>
    cases payload with
    | nil => simp [getAdaptive, getRange]
    | cons a l =>
      simp only [Bool.false_eq_true, if_false, ne_eq, reduceCtorEq, not_false_eq_true, true_or, iff_true, getAdaptive]
      rw [getRange, if_pos (by simp)]
      simp only
      split
      · next hle => exact ⟨by simp [slice, take_of_length_le hle], hone _, pairwise_singleton ..⟩
      · obtain ⟨hbytes, hsizes, hflat⟩ := walk_spans (a :: l) (slice (a :: l) (0, chunkSize)) chunkSize chunkSize
          maxChunksPerBatch
        refine ⟨by simpa [slice] using hbytes, forall_mem_cons.mpr ⟨maxChunksPerBatch.2, hsizes⟩, ?_⟩
        rw [flatten_cons, hflat]
        exact .cons (fun r hr => (mem_spans chunkSize.2 hr).1) pairwise_spans

theorem empty_object_not_read :
    (getAdaptive (putAdaptive (⟨fun _ bytes => [bytes], by simp⟩ : WriteMultipart UInt8) [] ⟨4, by decide⟩) none
      ⟨8, by decide⟩ ⟨4, by decide⟩ ⟨2, by decide⟩).bytes = none := rfl

end VarveDB.AdaptiveTransfer
