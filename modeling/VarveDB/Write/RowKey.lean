import VarveDB.LineProtocol.Parser
import VarveDB.Write.TableBuffer

/-! The bytes of a row's overwrite identity, which are hashed. -/
namespace VarveDB.RowKey
open LineProtocol List
open TableBuffer (FieldData)

structure Field where
  id : UInt16
  value : FieldData

structure Row where
  fields : List Field
  time : Int64

def beBytes : Nat → Nat → List UInt8
  | 0, _ => []
  | width + 1, n => beBytes width (n / 256) ++ [n.toUInt8]

def asBytes (v : String) : List UInt8 := v.toByteArray.data.toList

variable (tag : UInt16 × String)

def tagBytes : List UInt8 :=
  beBytes 2 tag.1.toNat ++ (beBytes 4 (tag.2.utf8ByteSize % 2 ^ 32) ++ asBytes tag.2)

namespace Row
variable (row : Row)

def tags : List (UInt16 × String) := row.fields.filterMap fun f => f.value.tag?.map (f.id, ·)

def tagScratch : List (UInt16 × String) := row.tags.insertionSort (·.1.toNat ≤ ·.1.toNat)

def keyScratch : List UInt8 := row.tagScratch.flatMap tagBytes ++ beBytes 8 row.time.toUInt64.toNat

end Row

variable {width a b : Nat} {v v' : String} {tags tags' : List (UInt16 × String)}

theorem length_beBytes (width n : Nat) : (beBytes width n).length = width := by
  induction width generalizing n with
  | zero => rfl
  | succ width ih => rw [beBytes, length_append, ih, length_singleton]

theorem beBytes_inj (ha : a < 256 ^ width) (hb : b < 256 ^ width) (h : beBytes width a = beBytes width b) : a = b := by
  induction width generalizing a b with
  | zero => omega
  | succ width ih =>
    obtain ⟨hhigh, hlow⟩ := append_inj' h rfl
    have hdiv : a / 256 = b / 256 := ih (by omega) (by omega) hhigh
    have hmod : a % 256 = b % 256 := congrArg UInt8.toNat (List.cons.inj hlow).1
    omega

private theorem asBytes_inj (h : asBytes v = asBytes v') : v = v' :=
  String.toByteArray_inj.mp (ByteArray.ext (Array.toList_inj.mp h))

theorem length_asBytes (v : String) : (asBytes v).length = v.utf8ByteSize := String.size_toByteArray

theorem length_tagBytes : (tagBytes tag).length = 6 + tag.2.utf8ByteSize := by
  simp only [tagBytes, length_append, length_beBytes, length_asBytes]
  omega

/-- Below 4 GiB the length of a value tells where it ends. -/
theorem tagBytes_append_inj {tag tag' : UInt16 × String} (hshort : tag.2.utf8ByteSize < 2 ^ 32)
    (hshort' : tag'.2.utf8ByteSize < 2 ^ 32) {rest rest' : List UInt8}
    (h : tagBytes tag ++ rest = tagBytes tag' ++ rest') : tag = tag' ∧ rest = rest' := by
  simp only [tagBytes, append_assoc] at h
  obtain ⟨hid, h⟩ := append_inj h (by simp only [length_beBytes])
  obtain ⟨hsize, h⟩ := append_inj h (by simp only [length_beBytes])
  rw [Nat.mod_eq_of_lt hshort, Nat.mod_eq_of_lt hshort'] at hsize
  obtain ⟨hvalue, hrest⟩ := append_inj h (by simp only [length_asBytes, beBytes_inj hshort hshort' hsize])
  have hid := UInt16.toNat_inj.mp (beBytes_inj tag.1.toNat_lt tag'.1.toNat_lt hid)
  exact ⟨Prod.ext hid (asBytes_inj hvalue), hrest⟩

/-- The time has a length of its own, so that the tags end where it begins. -/
theorem flatMap_tagBytes_inj {time time' : List UInt8} (htime : time.length = time'.length)
    (hshort : ∀ tag ∈ tags, tag.2.utf8ByteSize < 2 ^ 32) (hshort' : ∀ tag ∈ tags', tag.2.utf8ByteSize < 2 ^ 32)
    (h : tags.flatMap tagBytes ++ time = tags'.flatMap tagBytes ++ time') : tags = tags' ∧ time = time' := by
  have hlength := congrArg length h
  simp only [length_append, htime, Nat.add_right_cancel_iff] at hlength
  induction tags generalizing tags' with
  | nil =>
    cases tags' with
    | nil => exact ⟨rfl, h⟩
    | cons tag tags' =>
      rw [flatMap_cons, length_append, length_tagBytes, flatMap_nil, length_nil] at hlength
      omega
  | cons tag tags ih =>
    cases tags' with
    | nil => simp [length_tagBytes] at hlength
    | cons tag' tags' =>
      obtain ⟨htag, htags⟩ := forall_mem_cons.mp hshort
      obtain ⟨htag', htags'⟩ := forall_mem_cons.mp hshort'
      simp only [flatMap_cons, append_assoc] at h
      obtain ⟨rfl, hrest⟩ := tagBytes_append_inj htag htag' h
      obtain ⟨rfl, heq⟩ := ih htags htags' hrest (by simpa using hlength)
      exact ⟨rfl, heq⟩

theorem Row.tagScratch_perm (row : Row) : row.tagScratch.Perm row.tags := perm_insertionSort _ _

/-- Sorting by column id does away with the order of the fields. -/
theorem tagScratch_eq_iff {row row' : Row}
    (hids : (row.tags.map Prod.fst).Nodup) (hids' : (row'.tags.map Prod.fst).Nodup) :
    row.tagScratch = row'.tagScratch ↔ ∀ tag, tag ∈ row.tags ↔ tag ∈ row'.tags := by
  constructor
  · intro h tag
    rw [← row.tagScratch_perm.mem_iff, h, row'.tagScratch_perm.mem_iff]
  · intro h
    have htags : row.tags.Perm row'.tags := (perm_ext_iff_of_nodup hids.of_map hids'.of_map).mpr h
    have hsorted (row : Row) : row.tagScratch.Pairwise (·.1.toNat ≤ ·.1.toNat) := pairwise_insertionSort _ _
    have hperm := (row.tagScratch_perm.trans htags).trans row'.tagScratch_perm.symm
    refine hperm.eq_of_pairwise (fun s t hs ht hle hge => ?_) (hsorted row) (hsorted row')
    exact inj_on_of_nodup_map hids' (row'.tagScratch_perm.subset (hperm.subset hs)) (row'.tagScratch_perm.subset ht)
      (UInt16.toNat_inj.mp (Nat.le_antisymm hle hge))

/-- The parser refuses longer values, so that no row has one. -/
theorem utf8ByteSize_of_tagValue [Features] {i rest v : Input} (h : tagValue i = .ok (v, rest)) :
    (String.ofList v).utf8ByteSize ≤ stringLengthLimitInBytes := by
  unfold tagValue at h
  split at h
  · cases h
  · unfold escapedValue escapeOrFallback at h
    dsimp only at h
    split_ifs at h with _ _ hsize
    cases h
    exact Nat.not_lt.mp hsize

private theorem stringLengthLimit_lt [Features] : stringLengthLimitInBytes < 2 ^ 32 := by
  unfold stringLengthLimitInBytes
  split <;> decide

/-- Rows whose tag values are not longer than the parser lets them be are hashed from the same bytes if and only if they
have the same tags and the same time. -/
theorem keyScratch_eq_iff [Features] {row row' : Row} (hids : (row.tags.map Prod.fst).Nodup)
    (hids' : (row'.tags.map Prod.fst).Nodup)
    (hreceived : ∀ tag ∈ row.tags ++ row'.tags, tag.2.utf8ByteSize ≤ stringLengthLimitInBytes) :
    row.keyScratch = row'.keyScratch ↔ (∀ tag, tag ∈ row.tags ↔ tag ∈ row'.tags) ∧ row.time = row'.time := by
  have hshort : ∀ tag ∈ row.tags ++ row'.tags, tag.2.utf8ByteSize < 2 ^ 32 :=
    fun tag htag => Nat.lt_of_le_of_lt (hreceived tag htag) stringLengthLimit_lt
  rw [← tagScratch_eq_iff hids hids']
  constructor
  · intro h
    obtain ⟨htags, htime⟩ := flatMap_tagBytes_inj (by simp only [length_beBytes])
      (fun tag htag => hshort tag (mem_append_left _ (row.tagScratch_perm.subset htag)))
      (fun tag htag => hshort tag (mem_append_right _ (row'.tagScratch_perm.subset htag))) h
    have htime := UInt64.toNat_inj.mp (beBytes_inj row.time.toUInt64.toNat_lt row'.time.toUInt64.toNat_lt htime)
    exact ⟨htags, congrArg Int64.ofUInt64 htime⟩
  · rintro ⟨htags, htime⟩
    rw [Row.keyScratch, htags, htime, Row.keyScratch]

/-- The same tags in another order, one of them empty and one with the bytes of another tag in it. -/
theorem keyScratch_eq_reordered : Row.keyScratch ⟨[⟨7, .tag "\x00\x03"⟩, ⟨9, .integer 1⟩, ⟨3, .tag ""⟩], 5⟩ =
    Row.keyScratch ⟨[⟨3, .tag ""⟩, ⟨7, .tag "\x00\x03"⟩], 5⟩ :=
  (keyScratch_eq_iff (by decide) (by decide) (by decide)).mpr ⟨by simp [Row.tags, FieldData.tag?, or_comm], rfl⟩

end VarveDB.RowKey
