import VarveDB.Write.ColumnBuffer

/-! The bytes of the columns of a buffer against what the offsets of the string builders can count. -/
namespace VarveDB.ColumnBuffer
open Library Runs TableBuffer List

def MutableTableChunk.Within (capacity : Nat) (c : MutableTableChunk) : Prop :=
  ∀ id b, c.data.lookup id = some b → storedBytes b.kind b.values ≤ capacity

private theorem storedBytes_append_none (kind : Kind) (values : List (Option FieldData)) :
    storedBytes kind (values ++ [none]) = storedBytes kind values := by
  rw [storedBytes, storedBytes]
  split
  · rw [toFinset_append]
    exact Finset.sum_union_eq_left (by simp [bytesOf])
  · simp [bytesOf]

theorem storedBytes_replicate_none (kind : Kind) (n : Nat) : storedBytes kind (List.replicate n none) = 0 := by
  induction n with
  | zero => cases kind <;> rfl
  | succ n ih => rw [replicate_succ', storedBytes_append_none, ih]

section Transport
variable {capacity capacity' : Nat} (hle : capacity ≤ capacity') {b b' : Builder}
include hle

namespace Builder

private theorem appendValue_transport {v : FieldData} (h : b.appendValue capacity v = some b') :
    b.appendValue capacity' v = some b' ∧ storedBytes b'.kind b'.values ≤ capacity := by
  rw [appendValue] at h
  split at h
  · next hfits =>
    cases h
    exact ⟨dif_pos ⟨hfits.1, hfits.2.trans hle⟩, hfits.2⟩
  · cases h

private theorem appendCopied_transport {v : Option FieldData} {p : Builder × Nat}
    (hb : storedBytes b.kind b.values ≤ capacity) (h : b.appendCopied capacity v = some p) :
    b.appendCopied capacity' v = some p ∧ storedBytes p.1.kind p.1.values ≤ capacity := by
  cases v with
  | none =>
    cases h
    exact ⟨rfl, (storedBytes_append_none _ _).trans_le hb⟩
  | some v =>
    obtain ⟨b', hb', rfl⟩ := Option.map_eq_some_iff.mp h
    obtain ⟨hlarger, hbytes⟩ := appendValue_transport hle hb'
    exact ⟨by rw [appendCopied, hlarger]; rfl, hbytes⟩

end Builder

namespace MutableTableChunk
variable {c c' : MutableTableChunk} {row : Row} {carry : CarrySource} {thisRow : Nat}

omit hle in
private theorem Within.put {id : Nat} (h : c.Within capacity) (hb : storedBytes b.kind b.values ≤ capacity)
    (hdata : c'.data = c.data.put id b) : c'.Within capacity := by
  intro id' b' hb'
  rw [hdata] at hb'
  rcases IndexMap.lookup_of_put hb' with ⟨-, rfl⟩ | ⟨-, hb'⟩
  · exact hb
  · exact h id' b' hb'

variable (hc : c.Within capacity)
include hc

private theorem addField_transport {f : Nat × FieldData} (h : c.addField capacity thisRow f = some c') :
    c.addField capacity' thisRow f = some c' ∧ c'.Within capacity := by
  obtain ⟨b, hb, ⟨⟩⟩ := bind_eq_some_iff.mp h
  obtain ⟨hlarger, hbytes⟩ := Builder.appendValue_transport hle hb
  exact ⟨bind_eq_some_iff.mpr ⟨b, hlarger, rfl⟩, hc.put hbytes rfl⟩

private theorem addCopied_transport {id : Nat} {v : Option FieldData} (hb : storedBytes b.kind b.values ≤ capacity)
    (h : c.addCopied capacity id b v = some c') : c.addCopied capacity' id b v = some c' ∧ c'.Within capacity := by
  obtain ⟨p, hp, ⟨⟩⟩ := bind_eq_some_iff.mp h
  obtain ⟨hlarger, hbytes⟩ := Builder.appendCopied_transport hle hb hp
  exact ⟨bind_eq_some_iff.mpr ⟨p, hlarger, rfl⟩, hc.put hbytes rfl⟩

private theorem fillColumn_transport {e : Nat × Builder} (he : storedBytes e.2.kind e.2.values ≤ capacity)
    (h : c.fillColumn capacity row carry e = some c') :
    c.fillColumn capacity' row carry e = some c' ∧ c'.Within capacity := by
  rw [fillColumn] at h ⊢
  split at h
  · next hskip =>
    cases h
    exact ⟨if_pos hskip, hc⟩
  · next hskip =>
    obtain ⟨v, hv, h⟩ := bind_eq_some_iff.mp h
    obtain ⟨hlarger, hwithin⟩ := addCopied_transport hle hc he h
    exact ⟨(if_neg hskip).trans (bind_eq_some_iff.mpr ⟨v, hv, hlarger⟩), hwithin⟩

private theorem createColumn_transport {old : Nat} {e : Nat × Builder}
    (h : c.createColumn capacity row thisRow old e = some c') :
    c.createColumn capacity' row thisRow old e = some c' ∧ c'.Within capacity := by
  rw [createColumn] at h ⊢
  split at h
  · next hskip =>
    cases h
    exact ⟨if_pos hskip, hc⟩
  · next hskip =>
    obtain ⟨v, hv, h⟩ := bind_eq_some_iff.mp h
    have hnew := (storedBytes_replicate_none e.2.kind thisRow).trans_le (Nat.zero_le capacity)
    obtain ⟨hlarger, hwithin⟩ := addCopied_transport hle hc hnew h
    exact ⟨(if_neg hskip).trans (bind_eq_some_iff.mpr ⟨v, hv, hlarger⟩), hwithin⟩

private theorem createColumns_transport (h : c.createColumns capacity row thisRow carry = some c') :
    c.createColumns capacity' row thisRow carry = some c' ∧ c'.Within capacity := by
  cases carry with
  | none | localRow =>
    cases h
    exact ⟨rfl, hc⟩
  | foreignRow src old => exact run_transport (fun _ _ _ _ hm => createColumn_transport hle hm) hc h

private theorem appendRow_transport (h : c.appendRow capacity row carry = some c') :
    c.appendRow capacity' row carry = some c' ∧ c'.Within capacity := by
  obtain ⟨p, hp, h⟩ := bind_eq_some_iff.mp h
  obtain ⟨q, hq, h⟩ := bind_eq_some_iff.mp h
  obtain ⟨r, hr, ⟨⟩⟩ := bind_eq_some_iff.mp h
  obtain ⟨hp', hpwithin⟩ := run_transport (fun _ _ _ _ hm => addField_transport hle hm) hc hp
  obtain ⟨hq', hqwithin⟩ := run_transport
    (fun e he _ _ hm => fillColumn_transport hle hm (hpwithin e.1 e.2 (IndexMap.lookup_isSome_of_mem he))) hpwithin hq
  obtain ⟨hr', hrwithin⟩ := createColumns_transport hle hqwithin hr
  refine ⟨?_, hrwithin⟩
  simp only [appendRow, hp', hq', hr', bind_eq_bind, bind_some]

end MutableTableChunk

namespace ChunkTimeBuffer
variable {hash : RowKey → Nat} {ctb ctb' : ChunkTimeBuffer} {row : Row}

def Within (capacity : Nat) (ctb : ChunkTimeBuffer) : Prop := ∀ c ∈ ctb.chunks, c.Within capacity

private theorem appendReplacing_transport {chunks chunks' : List MutableTableChunk} {last : Nat}
    {target : MutableTableChunk}
    {place : Option (Nat × Nat)} (hchunks : ∀ c ∈ chunks, c.Within capacity) (htarget : target.Within capacity)
    (h : appendReplacing capacity chunks last target row place = some chunks') :
    appendReplacing capacity' chunks last target row place = some chunks' ∧ ∀ c ∈ chunks', c.Within capacity := by
  have hset {c : MutableTableChunk} (hc : c.Within capacity) (c') (hc' : c' ∈ chunks.set last c) :
      c'.Within capacity := by
    rcases mem_or_eq_of_mem_set hc' with hc' | rfl
    · exact hchunks c' hc'
    · exact hc
  cases place with
  | none =>
    obtain ⟨c, happend, rfl⟩ := Option.map_eq_some_iff.mp h
    obtain ⟨hlarger, hwithin⟩ := MutableTableChunk.appendRow_transport hle htarget happend
    exact ⟨Option.map_eq_some_iff.mpr ⟨c, hlarger, rfl⟩, hset hwithin⟩
  | some place =>
    rw [appendReplacing] at h ⊢
    split at h
    · next hlast =>
      obtain ⟨c, happend, rfl⟩ := Option.map_eq_some_iff.mp h
      obtain ⟨hlarger, hwithin⟩ := MutableTableChunk.appendRow_transport hle htarget happend
      exact ⟨(if_pos hlast).trans (Option.map_eq_some_iff.mpr ⟨c, hlarger, rfl⟩),
        hset (c := c.markSuperseded place.2) hwithin⟩
    · next hlast =>
      obtain ⟨src, hsrc, h⟩ := bind_eq_some_iff.mp h
      obtain ⟨c, happend, rfl⟩ := Option.map_eq_some_iff.mp h
      obtain ⟨hlarger, hwithin⟩ := MutableTableChunk.appendRow_transport hle htarget happend
      refine ⟨(if_neg hlast).trans (bind_eq_some_iff.mpr ⟨src, hsrc, Option.map_eq_some_iff.mpr ⟨c, hlarger, rfl⟩⟩),
        fun c' hc' => ?_⟩
      obtain ⟨i, hi⟩ := mem_iff_getElem?.mp hc'
      rw [List.getElem?_modify] at hi
      obtain ⟨c'', hc'', rfl⟩ := Option.map_eq_some_iff.mp hi
      have hwithin' := hset hwithin c'' (mem_of_getElem? hc'')
      split
      · exact hwithin'
      · exact hwithin'

private theorem addRow_transport (hctb : ctb.Within capacity) (h : ctb.addRow hash capacity row = some ctb') :
    ctb.addRow hash capacity' row = some ctb' ∧ ctb'.Within capacity := by
  obtain ⟨target, htarget, h⟩ := bind_eq_some_iff.mp h
  obtain ⟨chunks, hchunks, ⟨⟩⟩ := bind_eq_some_iff.mp h
  obtain ⟨hlarger, hwithin⟩ := appendReplacing_transport hle hctb (hctb target (mem_of_getElem? htarget)) hchunks
  exact ⟨bind_eq_some_iff.mpr ⟨target, htarget, bind_eq_some_iff.mpr ⟨chunks, hlarger, rfl⟩⟩, hwithin⟩

omit hle in
private theorem Within.withTarget (hctb : ctb.Within capacity) (limit : Nat) (rows : List Row) :
    (ctb.withTarget limit rows).Within capacity := by
  rw [ChunkTimeBuffer.withTarget]
  split
  · exact forall_mem_snoc.mpr ⟨hctb, fun _ _ hb => by cases hb⟩
  · exact hctb

end ChunkTimeBuffer

/-- Writes that went through under a capacity go through under a larger one with the same result, and leave every column
within the smaller. -/
theorem run_bufferChunk_transport {hash : RowKey → Nat} {limit : Nat} {chunkTime : Int} {cb cb' : ColumnBuffer}
    {writes : List (List Row)} (hcb : ((cb.lookup chunkTime).getD .empty).Within capacity)
    (h : run (bufferChunk hash capacity limit chunkTime) cb writes = some cb') :
    run (bufferChunk hash capacity' limit chunkTime) cb writes = some cb' ∧
      ((cb'.lookup chunkTime).getD .empty).Within capacity := by
  refine run_transport (P := fun cb => ((cb.lookup chunkTime).getD .empty).Within capacity)
    (fun rows _ m m' hm hstep => ?_) hcb h
  obtain ⟨ctb, hctb, ⟨⟩⟩ := bind_eq_some_iff.mp hstep
  obtain ⟨hlarger, hwithin⟩ := run_transport (fun _ _ => ChunkTimeBuffer.addRow_transport hle)
    (hm.withTarget limit rows) hctb
  exact ⟨bind_eq_some_iff.mpr ⟨ctb, hlarger, rfl⟩, by simpa using hwithin⟩

end Transport
end VarveDB.ColumnBuffer
