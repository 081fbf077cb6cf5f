import VarveDB.Catalog.Deletion

/-! Retention periods of databases and tables, and the cutoffs they give. -/
namespace VarveDB.Catalog
open Library

def RetentionPeriod.asDuration : RetentionPeriod → Option Nat
  | .indefinite => none
  | .duration seconds => some seconds

variable (earliest now : Int) (db : DatabaseSchema)

/-- `Time::checked_sub`: no time lies before the earliest one. -/
def checkedSub (seconds : Nat) : Option Int :=
  if earliest ≤ now - seconds * 1000000000 then some (now - seconds * 1000000000) else none

theorem checkedSub_mono {earliest now now' c : Int} {seconds seconds' : Nat} (hnow : now ≤ now')
    (hle : seconds' ≤ seconds)
    (h : checkedSub earliest now seconds = some c) : ∃ c', checkedSub earliest now' seconds' = some c' ∧ c ≤ c' := by
  unfold checkedSub at h
  split_ifs at h with hearliest
  cases h
  have hle : now - seconds * 1000000000 ≤ now' - seconds' * 1000000000 := by omega
  exact ⟨_, if_pos (hearliest.trans hle), hle⟩

def DatabaseSchema.tablePeriod (tableId : Nat) : Option Nat :=
  ((db.tables.getById tableId).bind fun t => t.retentionPeriod.asDuration) <|> db.retentionPeriod.asDuration

def DatabaseSchema.retentionPeriodCutoff (tableId : Nat) : Option Int :=
  (db.tablePeriod tableId).bind (checkedSub earliest now)

def retentionPeriodCutoffMap (dbs : Repository DatabaseSchema) : List ((Nat × Nat) × Int) :=
  dbs.repo.values.flatMap fun db => db.tables.repo.values.filterMap fun t =>
    (db.retentionPeriodCutoff earliest now t.tableId).map ((db.id, t.tableId), ·)

def tablePeriod (dbs : Repository DatabaseSchema) (k : Nat × Nat) : Option Nat :=
  (dbs.getById k.1).bind fun db => (db.tables.getById k.2).bind fun _ => db.tablePeriod k.2

variable {dbs : Repository DatabaseSchema} {k : Nat × Nat} {dbId tableId : Nat}

theorem tablePeriod_eq {db : DatabaseSchema} {t : TableDefinition} (hdb : dbs.getById dbId = some db)
    (ht : db.tables.getById tableId = some t) : tablePeriod dbs (dbId, tableId) = db.tablePeriod tableId := by
  simp [tablePeriod, hdb, ht]

def Keyed (dbs : Repository DatabaseSchema) : Prop :=
  ∀ id db, dbs.getById id = some db → db.id = id ∧ ∀ tableId t, db.tables.getById tableId = some t → t.tableId = tableId

theorem mem_retentionPeriodCutoffMap {earliest now : Int} (h : Keyed dbs) {c : Int}
    (hmem : (k, c) ∈ retentionPeriodCutoffMap earliest now dbs) :
    (tablePeriod dbs k).bind (checkedSub earliest now) = some c := by
  obtain ⟨db, hdb, hmem⟩ := List.mem_flatMap.mp hmem
  obtain ⟨t, ht, hmem⟩ := List.mem_filterMap.mp hmem
  obtain ⟨c', hc, heq⟩ := Option.map_eq_some_iff.mp hmem
  obtain ⟨rfl, rfl⟩ := Prod.mk.inj heq
  obtain ⟨id, hdb : dbs.getById id = some db⟩ := IndexMap.mem_values.mp hdb
  obtain ⟨tableId, ht : db.tables.getById tableId = some t⟩ := IndexMap.mem_values.mp ht
  obtain ⟨rfl, hkeys⟩ := h id db hdb
  obtain rfl := hkeys tableId t ht
  exact (congrArg (·.bind (checkedSub earliest now)) (tablePeriod_eq hdb ht)).trans hc

inductive RetentionChange where
  | setDatabase (r : SetDbRetentionPeriod)
  | clearDatabase (r : ClearDbRetentionPeriod)
  | setTable (r : SetTableRetentionPeriod)
  | clearTable (r : ClearTableRetentionPeriod)

def RetentionChange.apply : RetentionChange → Repository DatabaseSchema → Apply (Repository DatabaseSchema)
  | .setDatabase r => r.apply
  | .clearDatabase r => r.apply
  | .setTable r => r.apply
  | .clearTable r => r.apply

private theorem Keyed.updated (h : Keyed dbs) {id : Nat} {db db' : DatabaseSchema} (hdb : dbs.getById id = some db)
    (hid : db'.id = db.id) (htables : ∀ tableId t', db'.tables.getById tableId = some t' →
      ∃ t, db.tables.getById tableId = some t ∧ t'.tableId = t.tableId) : Keyed (dbs.updated id db') := by
  intro id' x hx
  rw [Repository.getById_updated] at hx
  split_ifs at hx with heq
  · cases hx
    obtain ⟨hown, hkeys⟩ := h id db hdb
    refine ⟨by rw [hid, hown, heq], fun tableId t' ht' => ?_⟩
    obtain ⟨t, ht, hsame⟩ := htables tableId t' ht'
    exact hsame.trans (hkeys tableId t ht)
  · exact h id' x hx

variable {dbs' : Repository DatabaseSchema}

private theorem keyed_modifyTable (h : Keyed dbs) {period : RetentionPeriod}
    (happly : modifyTable dbs dbId tableId (fun t => .ok { t with retentionPeriod := period }) = .ok dbs') :
    Keyed dbs' := by
  obtain ⟨db, db', hdb, hf, rfl, -⟩ := Repository.of_modifyById happly
  obtain ⟨tables, htables, hdb'⟩ := bind_eq_ok.mp hf
  cases hdb'
  obtain ⟨t, t', ht, ht', rfl, -⟩ := Repository.of_modifyById htables
  cases ht'
  refine h.updated hdb rfl fun id x hx => ?_
  rw [Repository.getById_updated] at hx
  split_ifs at hx with heq
  · exact ⟨t, heq ▸ ht, by rw [← Option.some.inj hx]⟩
  · exact ⟨x, hx, rfl⟩

theorem Keyed.change (h : Keyed dbs) {r : RetentionChange} (happly : r.apply dbs = .ok dbs') : Keyed dbs' := by
  cases r with
  | setDatabase r | clearDatabase r =>
    obtain ⟨db, db', hdb, hf, rfl, -⟩ := Repository.of_modifyById happly
    cases hf
    exact h.updated hdb rfl fun _ t ht => ⟨t, ht, rfl⟩
  | setTable r | clearTable r => exact keyed_modifyTable h happly

/-- No table that has a retention period gets a longer one or none. -/
def NoLonger (dbs dbs' : Repository DatabaseSchema) : Prop :=
  ∀ db ∈ dbs.repo.values, ∀ t ∈ db.tables.repo.values,
    ∀ period ∈ db.tablePeriod t.tableId, ∃ period' ∈ tablePeriod dbs' (db.id, t.tableId), period' ≤ period

instance (dbs dbs' : Repository DatabaseSchema) : Decidable (NoLonger dbs dbs') :=
  inferInstanceAs (Decidable (∀ _ ∈ _, ∀ _ ∈ _, ∀ _ ∈ _, ∃ _ ∈ _, _))

theorem NoLonger.tablePeriod (h : NoLonger dbs dbs') (hkeyed : Keyed dbs)
    {period : Nat} (hperiod : tablePeriod dbs k = some period) :
    ∃ period', Catalog.tablePeriod dbs' k = some period' ∧ period' ≤ period := by
  obtain ⟨db, hdb, hperiod⟩ := Option.bind_eq_some_iff.mp hperiod
  obtain ⟨t, ht, hperiod⟩ := Option.bind_eq_some_iff.mp hperiod
  obtain ⟨hid, hkeys⟩ := hkeyed k.1 db hdb
  have htable := hkeys k.2 t ht
  have := h db (IndexMap.mem_values.mpr ⟨_, hdb⟩) t (IndexMap.mem_values.mpr ⟨_, ht⟩) period
      (by rw [htable]; exact hperiod)
  rwa [hid, htable] at this

end VarveDB.Catalog
