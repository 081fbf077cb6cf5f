import Mathlib

/-! The ids of record types and the levels that bound them. -/
namespace VarveDB.Catalog
open List

inductive RecordId where
  | core (seq : Nat)
  | enterprise (seq : Nat)
  deriving DecidableEq

namespace RecordId

def Valid : RecordId → Prop
  | core seq | enterprise seq => 0 < seq ∧ seq < 0x8000

/-- The value in a record's header: bit 15 marks the Enterprise partition. -/
def raw : RecordId → Nat
  | core seq => seq
  | enterprise seq => seq + 0x8000

def advanceFeatureLevel : RecordId := core 1
def registerNode : RecordId := core 2
def stopNode : RecordId := core 3
def setStorageMode : RecordId := core 25
def requestStopNode : RecordId := core 43
def ackStopNode : RecordId := core 44
def removeNode : RecordId := core 45
def unregisterNode : RecordId := core 46
def restoreCatalog : RecordId := enterprise 6
def createQueryGroup : RecordId := enterprise 7
def updateQueryGroup : RecordId := enterprise 8
def deleteQueryGroup : RecordId := enterprise 9

end RecordId

@[ext]
structure FeatureLevel where
  core : Nat
  enterprise : Nat
  deriving DecidableEq

variable (level : FeatureLevel) (registry : List RecordId) (core enterprise : Nat) {id : RecordId} (a b : FeatureLevel)

namespace FeatureLevel

def zero : FeatureLevel := ⟨0, 0⟩

def allows : RecordId → Bool
  | .core seq => seq ≤ level.core
  | .enterprise seq => seq ≤ level.enterprise

def min : FeatureLevel := ⟨Nat.min a.core b.core, Nat.min a.enterprise b.enterprise⟩

def max : FeatureLevel := ⟨Nat.max a.core b.core, Nat.max a.enterprise b.enterprise⟩

instance : PartialOrder FeatureLevel where
  le a b := a.core ≤ b.core ∧ a.enterprise ≤ b.enterprise
  le_refl a := ⟨Nat.le_refl _, Nat.le_refl _⟩
  le_trans _ _ _ hab hbc := ⟨Nat.le_trans hab.1 hbc.1, Nat.le_trans hab.2 hbc.2⟩
  le_antisymm _ _ hab hba := FeatureLevel.ext (Nat.le_antisymm hab.1 hba.1) (Nat.le_antisymm hab.2 hba.2)

instance (a b : FeatureLevel) : Decidable (a ≤ b) :=
  inferInstanceAs (Decidable (a.core ≤ b.core ∧ a.enterprise ≤ b.enterprise))

instance (a b : FeatureLevel) : Decidable (a < b) := inferInstanceAs (Decidable (a ≤ b ∧ ¬ b ≤ a))

theorem max_eq_left {a b : FeatureLevel} (h : b ≤ a) : a.max b = a :=
  FeatureLevel.ext (Nat.max_eq_left h.1) (Nat.max_eq_left h.2)

theorem allows_mono {a b : FeatureLevel} (h : a ≤ b) (hid : a.allows id = true) : b.allows id = true := by
  cases id with
  | core seq => exact decide_eq_true (Nat.le_trans (of_decide_eq_true hid) h.1)
  | enterprise seq => exact decide_eq_true (Nat.le_trans (of_decide_eq_true hid) h.2)

end FeatureLevel

def withRecord : RecordId → FeatureLevel
  | .core seq => { level with core := Nat.max level.core seq }
  | .enterprise seq => { level with enterprise := Nat.max level.enterprise seq }

def deriveFeatureLevel : FeatureLevel := registry.foldl withRecord .zero

/-- Record ids are assigned one after the other in each partition and never given up, so a binary has all of them up
to its largest. -/
structure Binary where
  registry : List RecordId
  valid : ∀ id ∈ registry, id.Valid
  sequential : ∀ id : RecordId, id.Valid → (deriveFeatureLevel registry).allows id = true → id ∈ registry

namespace Binary

def featureLevel (b : Binary) : FeatureLevel := deriveFeatureLevel b.registry

private theorem le_withRecord (id : RecordId) : level ≤ withRecord level id := by
  cases id with
  | core seq => exact ⟨Nat.le_max_left .., Nat.le_refl _⟩
  | enterprise seq => exact ⟨Nat.le_refl _, Nat.le_max_left ..⟩

private theorem le_foldl_withRecord (level : FeatureLevel) : level ≤ registry.foldl withRecord level :=
  List.foldlRecOn (motive := (level ≤ ·)) _ _ le_rfl fun level' h id _ => le_trans h (le_withRecord level' id)

/-- A binary has a record type exactly if it is within the level of the binary. -/
theorem mem_registry_iff (b : Binary) (hid : id.Valid) : id ∈ b.registry ↔ b.featureLevel.allows id = true := by
  refine ⟨fun hmem => ?_, b.sequential id hid⟩
  obtain ⟨before, after, hsplit⟩ := append_of_mem hmem
  rw [featureLevel, deriveFeatureLevel, hsplit, foldl_append, foldl_cons]
  refine FeatureLevel.allows_mono (le_foldl_withRecord after _) ?_
  cases id with
  | core | enterprise => exact decide_eq_true (Nat.le_max_right ..)

/-- Binaries of one level have the same record types. -/
theorem mem_registry_congr {b b' : Binary} (h : b.featureLevel = b'.featureLevel) (id : RecordId) :
    id ∈ b.registry ↔ id ∈ b'.registry := by
  constructor
  · intro hid
    rw [b'.mem_registry_iff (b.valid id hid), ← h]
    exact (b.mem_registry_iff (b.valid id hid)).mp hid
  · intro hid
    rw [b.mem_registry_iff (b'.valid id hid), h]
    exact (b'.mem_registry_iff (b'.valid id hid)).mp hid

private theorem derive_upTo :
    deriveFeatureLevel ((List.range core).map (.core <| · + 1) ++ (List.range enterprise).map (.enterprise <| · + 1)) =
      ⟨core, enterprise⟩ := by
  have hcore : ((List.range core).map (RecordId.core <| · + 1)).foldl withRecord .zero = ⟨core, 0⟩ := by
    induction core with
    | zero => rfl
    | succ n ih => simp [range_succ, ih, withRecord]
  rw [deriveFeatureLevel, foldl_append, hcore]
  induction enterprise with
  | zero => rfl
  | succ n ih => simp [range_succ, ih, withRecord]

def upTo (hcore : core < 0x8000) (henterprise : enterprise < 0x8000) : Binary where
  registry := (List.range core).map (.core <| · + 1) ++ (List.range enterprise).map (.enterprise <| · + 1)
  valid id hid := by
    rcases mem_append.mp hid with hid | hid
    · obtain ⟨i, hi, rfl⟩ := mem_map.mp hid
      exact ⟨Nat.succ_pos i, Nat.lt_of_le_of_lt (mem_range.mp hi) hcore⟩
    · obtain ⟨i, hi, rfl⟩ := mem_map.mp hid
      exact ⟨Nat.succ_pos i, Nat.lt_of_le_of_lt (mem_range.mp hi) henterprise⟩
  sequential id hid hallows := by
    rw [derive_upTo] at hallows
    cases id with
    | core seq =>
      refine mem_append_left _ (mem_map.mpr ⟨seq - 1, mem_range.mpr ?_, ?_⟩)
      · exact Nat.sub_one_lt_of_le hid.1 (of_decide_eq_true hallows)
      · rw [Nat.sub_add_cancel hid.1]
    | enterprise seq =>
      refine mem_append_right _ (mem_map.mpr ⟨seq - 1, mem_range.mpr ?_, ?_⟩)
      · exact Nat.sub_one_lt_of_le hid.1 (of_decide_eq_true hallows)
      · rw [Nat.sub_add_cancel hid.1]

end Binary
end VarveDB.Catalog
