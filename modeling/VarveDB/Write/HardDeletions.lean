import VarveDB.Write.Deleter

/-! When hard deletions follow the times that the catalog records. -/
namespace VarveDB.Deleter
open Library Runs Catalog List

def Covers (y x : Target) : Prop := y = x ∨ y = .database x.dbId

/-- A notification is for what is due at its time; a removal for what is due before it by the grace
period, or is gone. -/
def State.Right (cfg : Config) (s : State) : Int × Task → Prop
  | (t, .notifyDelete x) => Due s.catalog x t
  | (t, .delete x) => x ∈ s.seen ∧ ∀ mark, s.catalog.mark x = some mark → Due s.catalog x (t - cfg.deleteGracePeriod)

/-- What holds of a manager. While a removal is queued no event about what it covers is on its way, and while it is
carried out no notification is queued for that. -/
structure Manager.Sound (cfg : Config) (s : State) (m : Manager) : Prop where
  right : ∀ task ∈ m.pending, s.Right cfg task
  current : ∀ task, m.current = some task → task.1 ≤ s.now
  quiet : ∀ t y, m.current = some (t, .delete y) → ∀ t' x, Covers y x → (t', .notifyDelete x) ∉ m.tasks
  still : ∀ t y, (t, .delete y) ∈ m.pending → ∀ x, Covers y x → x ∉ m.inbox ++ s.unsent
  single : (m.inbox ++ s.unsent).length ≤ 1
  covered : ∀ x t, Due s.catalog x t → (∀ task ∈ tasksFor cfg x t, task ∈ m.pending ∨ task ∈ s.executed) ∨
    m.subscribed = true ∧ x ∈ m.inbox ++ s.unsent

structure State.Sound (cfg : Config) (s : State) : Prop where
  marks : ∀ x mark, s.catalog.mark x = some mark →
    mark.id = x.ownId ∧ x ∈ s.seen ∧ (mark.hardDeleteTime.isSome → mark.deleted = true)
  order : ∀ d t tt td, Due s.catalog (.table d t) tt → Due s.catalog (.database d) td → tt < td + cfg.deleteGracePeriod
  together : ∀ x ∈ s.together, x ∈ s.seen ∧ (∀ mark, s.catalog.mark x = some mark → mark.deleted = true) ∧
    ∀ t, Due s.catalog x t → Due s.catalog (.database x.dbId) t
  handed : ∀ h ∈ s.handed, ∃ id t, h.mark = some ⟨id, true, some t⟩ ∧ t ≤ h.now
  removed : ∀ r ∈ s.removed, ∃ id t, r.mark = some ⟨id, true, some t⟩ ∧ t + cfg.deleteGracePeriod ≤ r.now
  handedTogether : ∀ h ∈ s.handed, h.together = true → ∃ id t, h.dbMark = some ⟨id, true, some t⟩ ∧ t ≤ h.now
  unsent : s.unsent.length ≤ 1
  manager : ∀ m, s.manager = some m → m.Sound cfg s

variable {db : DatabaseSchema} {name dbName : String}

section
variable {cfg : Config} {s s' : State} {m : Manager} {x : Target} {t : Int} {mark : Mark}

private theorem State.Sound.follows (h : s.Sound cfg) : s.Follows cfg where
  __ := h
  together := h.handedTogether
  scheduled := by
    intro m hm _ hinbox hunsent x t hdue task htask
    rcases (h.manager m hm).covered x t hdue with hcovered | ⟨-, hevent⟩
    · rcases hcovered task htask with hpending | hexecuted
      · rcases mem_append.mp hpending with hcurrent | htasks
        · exact .inr (.inl (Option.mem_toList.mp hcurrent))
        · exact .inl htasks
      · exact .inr (.inr hexecuted)
    · rw [hinbox, hunsent] at hevent
      cases hevent

variable {c : DatabaseCatalog}

theorem due_iff (hmark : c.mark x = some mark) : Due c x t ↔ mark.deleted = true ∧ mark.hardDeleteTime = some t := by
  obtain ⟨id, deleted, time⟩ := mark
  simp [Due, hmark]

variable {task : Int × Task}

theorem mem_tasksFor : task ∈ tasksFor cfg x t ↔
    cfg.objectDeleter = true ∧ task = (t, .notifyDelete x) ∨ task = (t + cfg.deleteGracePeriod, .delete x) := by
  unfold tasksFor
  split_ifs with h <;> simp [h]

/-- The scan finds what is deleted and has a time, and nothing else. -/
theorem mem_initialTasks (hids : ∀ x mark, c.mark x = some mark → mark.id = x.ownId) :
    task ∈ initialTasks cfg c ↔ ∃ x t, Due c x t ∧ task ∈ tasksFor cfg x t := by
  have hmarked (y : Target) (mark : Mark) : task ∈ markedTasks cfg y mark ↔
      ∃ t, mark.deleted = true ∧ mark.hardDeleteTime = some t ∧ task ∈ tasksFor cfg y t := by
    unfold markedTasks
    cases mark.deleted <;> cases mark.hardDeleteTime <;> simp
  simp only [initialTasks, mem_flatMap, mem_append, hmarked, IndexMap.mem_values]
  constructor
  · rintro ⟨db, ⟨dbId, hdb⟩, ⟨t, hdeleted, htime, htask⟩ | ⟨table, ⟨tableId, htable⟩, t, hdeleted, htime, htask⟩⟩
    · have hmark : c.mark (.database dbId) = some db.mark := by simp [DatabaseCatalog.mark, Repository.getById, hdb]
      have hid : db.id = dbId := hids _ _ hmark
      exact ⟨_, t, (due_iff hmark).mpr ⟨hdeleted, htime⟩, hid ▸ htask⟩
    · have hmarkDb : c.mark (.database dbId) = some db.mark := by simp [DatabaseCatalog.mark, Repository.getById, hdb]
      have hmark : c.mark (.table dbId tableId) = some table.mark := by
        simp [DatabaseCatalog.mark, Repository.getById, hdb, htable]
      have hdbId : db.id = dbId := hids _ _ hmarkDb
      have hid : table.tableId = tableId := hids _ _ hmark
      exact ⟨_, t, (due_iff hmark).mpr ⟨hdeleted, htime⟩, hid ▸ hdbId ▸ htask⟩
  · rintro ⟨x, t, ⟨id, hmark⟩, htask⟩
    cases x with
    | database dbId =>
      obtain ⟨db, hdb, hdbMark⟩ := map_eq_some_iff.mp hmark
      have hid : db.id = dbId := hids (.database dbId) db.mark (by rw [hdbMark, hmark])
      refine ⟨db, ⟨dbId, hdb⟩, .inl ⟨t, ?_⟩⟩
      rw [hdbMark, hid]
      exact ⟨rfl, rfl, htask⟩
    | table dbId tableId =>
      obtain ⟨db, hdb, htable⟩ := bind_eq_some_iff.mp hmark
      obtain ⟨table, htable, htableMark⟩ := map_eq_some_iff.mp htable
      have hdbId : db.id = dbId := hids (.database dbId) db.mark (by simp [DatabaseCatalog.mark, hdb])
      have hid : table.tableId = tableId := hids (.table dbId tableId) table.mark (by rw [htableMark, hmark])
      refine ⟨db, ⟨dbId, hdb⟩, .inr ⟨table, ⟨tableId, htable⟩, t, ?_⟩⟩
      rw [htableMark, hdbId, hid]
      exact ⟨rfl, rfl, htask⟩

private theorem permit_iff : s.permit = true ↔ s.unsent = [] ∧ ∀ m, s.manager = some m → m.inbox = [] := by
  simp only [State.permit, Bool.and_eq_true, List.isEmpty_iff]
  cases s.manager <;> simp

variable {catalog : DatabaseCatalog} {time : HardDeletionTime} {scope : DeletionScope}

namespace State.Sound

theorem getById_of_getByName (h : s.Sound cfg)
    (hname : s.catalog.databases.getByName name = some db) : s.catalog.databases.getById db.id = some db := by
  obtain ⟨id, hid⟩ := Repository.getById_of_getByName hname
  have heq : db.id = id := (h.marks (.database id) db.mark (by simp [DatabaseCatalog.mark, hid])).1
  exact heq ▸ hid

private theorem getById_table_of_getByName (h : s.Sound cfg) (hdb : s.catalog.databases.getById db.id = some db)
    {table : TableDefinition} (hname : db.tables.getByName name = some table) :
    db.tables.getById table.tableId = some table := by
  obtain ⟨id, hid⟩ := Repository.getById_of_getByName hname
  have heq : table.tableId = id := (h.marks (.table db.id id) table.mark (by simp [DatabaseCatalog.mark, hdb, hid])).1
  exact heq ▸ hid

theorem right_of_due (h : s.Sound cfg) (hdue : Due s.catalog x t) (htask : task ∈ tasksFor cfg x t) :
    s.Right cfg task := by
  rcases mem_tasksFor.mp htask with ⟨-, rfl⟩ | rfl
  · exact hdue
  · have hseen : x ∈ s.seen := hdue.elim fun _ hmark => (h.marks x _ hmark).2.1
    exact ⟨hseen, fun _ _ => (Int.add_sub_cancel t _).symm ▸ hdue⟩

variable {target : Target}

section
variable {hit : Target → Mark → Prop} [∀ x mark, Decidable (hit x mark)] {time : Option Int} {together : List Target}
  (hmark : ∀ x, catalog.mark x = (s.catalog.mark x).map fun m => if hit x m then m.delete time else m)
include hmark

private theorem mark_of_hit (hold : s.catalog.mark x = some mark) (hx : hit x mark) :
    catalog.mark x = some (mark.delete time) := by simp [hmark, hold, hx]

private theorem due_or_hit (hdue : Due catalog x t) : Due s.catalog x t ∨
    ∃ mark, s.catalog.mark x = some mark ∧ hit x mark ∧ time = some t := by
  obtain ⟨id, hmark'⟩ := hdue
  rw [hmark] at hmark'
  obtain ⟨mark, hold, heq⟩ := map_eq_some_iff.mp hmark'
  split_ifs at heq with hx
  · exact .inr ⟨mark, hold, hx, congrArg Mark.hardDeleteTime heq⟩
  · exact .inl ⟨id, heq ▸ hold⟩

variable (hhit : ∀ x mark, s.catalog.mark x = some mark → hit x mark →
  x.dbId = target.dbId ∧ (∀ t, ¬Due s.catalog x t) ∧ (mark.deleted = true → x = .database x.dbId))
include hhit

private theorem due_of_due (hdue : Due s.catalog x t) : Due catalog x t := by
  obtain ⟨id, hold⟩ := hdue
  have hnot : ¬ hit x ⟨id, true, some t⟩ := fun hx => (hhit x _ hold hx).2.1 t ⟨id, hold⟩
  exact ⟨id, by simp [hmark, hold, hnot]⟩

private theorem together_softDeleted (h : s.Sound cfg)
    (hx : x ∈ s.together ∨ ∀ y, Covers y x → ∃ mark, s.catalog.mark y = some mark ∧ hit y mark) :
    x ∈ s.seen ∧ (∀ mark, catalog.mark x = some mark → mark.deleted = true) ∧
      ∀ t, Due catalog x t → Due catalog (.database x.dbId) t := by
  rcases hx with hx | hx
  · obtain ⟨hseen, hold, hdatabase⟩ := h.together x hx
    refine ⟨hseen, fun mark' hmark' => ?_, fun t hdue => ?_⟩
    · rw [hmark] at hmark'
      obtain ⟨mark, hmarkx, rfl⟩ := map_eq_some_iff.mp hmark'
      split_ifs
      · rfl
      · exact hold mark hmarkx
    · rcases due_or_hit hmark hdue with hdue' | ⟨mark, hmarkx, hhitx, -⟩
      · exact due_of_due hmark hhit (hdatabase t hdue')
      · exact (hhit x mark hmarkx hhitx).2.2 (hold mark hmarkx) ▸ hdue
  · obtain ⟨mark, hmarkx, hhitx⟩ := hx x (.inl rfl)
    obtain ⟨dbMark, hdb, hhitdb⟩ := hx _ (.inr rfl)
    have hdeleted := mark_of_hit hmark hmarkx hhitx
    refine ⟨(h.marks x mark hmarkx).2.1, fun mark' hmark' => ?_, fun t hdue => ?_⟩
    · cases hdeleted.symm.trans hmark'
      rfl
    · exact (due_iff (mark_of_hit hmark hdb hhitdb)).mpr ((due_iff hdeleted).mp hdue)

variable (htarget : ∀ y, Covers y target → (∃ mark, s.catalog.mark y = some mark) ∧ ∀ t, ¬Due s.catalog y t)
  (htold : ∀ x mark, s.catalog.mark x = some mark → hit x mark → time.isSome → ∀ m, s.manager = some m →
    m.subscribed = true ∧ x = target)
include htarget htold

private theorem manager_softDeleted (hold : m.Sound cfg s) (hm : s.manager = some m) (hsent : s.unsent = [])
    (hinbox : m.inbox = []) : m.Sound cfg { s with catalog, unsent := [target], together } := by
  refine { hold with right := fun task htask => ?_, still := fun t y hmem x hcovers hevent => ?_, single := ?_,
                     covered := fun x t hdue => ?_ }
  · obtain ⟨t, x | x⟩ := task
    · exact due_of_due hmark hhit (hold.right _ htask)
    · refine ⟨(hold.right _ htask).1, fun mark' hmark' => ?_⟩
      simp only [hmark] at hmark'
      obtain ⟨mark, hmarkx, -⟩ := map_eq_some_iff.mp hmark'
      exact due_of_due hmark hhit ((hold.right _ htask).2 mark hmarkx)
  · rw [hinbox, nil_append, mem_singleton] at hevent
    obtain ⟨⟨mark, hmark⟩, hnot⟩ := htarget y (hevent ▸ hcovers)
    exact hnot _ ((hold.right _ hmem).2 mark hmark)
  · rw [hinbox]
    exact le_rfl
  · rcases due_or_hit hmark hdue with hdue | ⟨mark, hmark, hx, htime⟩
    · refine (hold.covered x t hdue).imp_right fun ⟨_, hevent⟩ => ?_
      rw [hinbox, hsent] at hevent
      cases hevent
    · obtain ⟨hsubscribed, rfl⟩ := htold x mark hmark hx (htime ▸ rfl) m hm
      exact .inr ⟨hsubscribed, by simp⟩

/-- A deletion gives a time to what was not due before. All that is due now and was not is in one database, and a
manager is told of it if it has a time. -/
theorem softDeleted (h : s.Sound cfg) (hgrace : 0 < cfg.deleteGracePeriod) (hpermit : s.permit = true)
    (horder : ∀ d t tt td mark, Due s.catalog (.table d t) tt → hit (.database d) mark → time = some td →
      tt < td + cfg.deleteGracePeriod) (htogether : ∀ x ∈ together, x ∈ s.together ∨
      ∀ y, Covers y x → ∃ mark, s.catalog.mark y = some mark ∧ hit y mark) :
    Sound cfg { s with catalog, unsent := [target], together } := by
  obtain ⟨hsent, hinbox⟩ := permit_iff.mp hpermit
  have hmanager (m : Manager) (hm : s.manager = some m) :
      m.Sound cfg { s with catalog, unsent := [target], together } :=
    manager_softDeleted hmark hhit htarget htold (h.manager m hm) hm hsent (hinbox m hm)
  have hmarks := fun x hx => together_softDeleted hmark hhit h (htogether x hx)
  refine { h with marks := fun x mark' hmark' => ?_, order := fun d t tt td htt htd => ?_, together := hmarks,
                  unsent := le_rfl, manager := hmanager }
  · rw [hmark] at hmark'
    obtain ⟨mark, hold, rfl⟩ := map_eq_some_iff.mp hmark'
    obtain ⟨hid, hseen, htimed⟩ := h.marks x mark hold
    split_ifs
    · exact ⟨hid, hseen, fun _ => rfl⟩
    · exact ⟨hid, hseen, htimed⟩
  · rcases due_or_hit hmark htd with hold | ⟨mark, hdb, hhitdb, htime⟩
    · rcases due_or_hit hmark htt with hold' | ⟨mark, hmark, hx, -⟩
      · exact h.order d t tt td hold' hold
      · have hd : d = target.dbId := (hhit _ _ hmark hx).1
        exact absurd (hd ▸ hold) ((htarget _ (.inr rfl)).2 td)
    · rcases due_or_hit hmark htt with hold' | ⟨-, -, -, htime'⟩
      · exact horder d t tt td mark hold' hhitdb htime
      · rw [htime, some.injEq] at htime'
        omega

end

theorem softDeleteDatabase (h : s.Sound cfg) (hgrace : 0 < cfg.deleteGracePeriod)
    (hguard : Settled cfg s (.softDeleteDatabase dbName time scope)) (hpermit : s.permit = true)
    {r : SoftDeleteDatabase}
    (hop : Catalog.softDeleteDatabase s.catalog s.now cfg.defaultHardDeleteDuration dbName time scope = .ok r)
    (happly : r.apply s.catalog = .ok catalog) :
    Sound cfg { s with
      catalog, unsent := [.database r.databaseId], together := s.together ++ cascaded s.catalog r.databaseId } := by
  obtain ⟨db, hname, hid, htime⟩ := of_softDeleteDatabase hop
  obtain ⟨hnone, htables⟩ := hguard db hname
  rw [← htime] at htables
  have hdb : s.catalog.databases.getById r.databaseId = some db := hid ▸ h.getById_of_getByName hname
  have hdbMark : s.catalog.mark (.database r.databaseId) = some db.mark := by simp [DatabaseCatalog.mark, hdb]
  have hnotDue (t : Int) : ¬Due s.catalog (.database r.databaseId) t := by
    intro hdue
    obtain ⟨hdeleted, ht⟩ := (due_iff hdbMark).mp hdue
    cases (hnone hdeleted).symm.trans ht
  have htable {tableId : Nat} {mark : Mark} (hold : s.catalog.mark (.table r.databaseId tableId) = some mark) :
      ∃ table ∈ db.tables.repo.values, table.mark = mark := by
    simp only [DatabaseCatalog.mark, hdb, bind_some] at hold
    obtain ⟨table, htable, heq⟩ := map_eq_some_iff.mp hold
    exact ⟨table, IndexMap.mem_values_of_lookup htable, heq⟩
  refine h.softDeleted (mark_softDeleteDatabase happly) ?_ (fun y hy => ?_) ?_ hgrace hpermit ?_ (fun x hx => ?_)
  · rintro x mark hmark (rfl | ⟨hx, hlive⟩)
    · exact ⟨rfl, hnotDue, fun _ => rfl⟩
    · exact ⟨hx,
        fun t hdue => absurd ((due_iff hmark).mp hdue).1 (by simp [hlive]), fun hdeleted => by simp [hlive] at hdeleted⟩
  · obtain rfl : y = .database r.databaseId := hy.elim id id
    exact ⟨⟨_, hdbMark⟩, hnotDue⟩
  · intro x mark hmark hx htimed m hm
    obtain ⟨t, ht⟩ := isSome_iff_exists.mp htimed
    obtain ⟨hsubscribed, hall⟩ := (htables t ht).1 m hm
    refine ⟨hsubscribed, hx.elim id fun hx => ?_⟩
    obtain ⟨hx, hlive⟩ := hx
    cases x with
    | database d => exact congrArg Target.database hx
    | table d tableId =>
      obtain rfl : d = r.databaseId := hx
      obtain ⟨table, hmem, rfl⟩ := htable hmark
      exact absurd (hall table hmem) (by simpa [TableDefinition.mark] using hlive)
  · rintro d t tt td mark ⟨id, hdue⟩ hd ht
    obtain rfl : d = r.databaseId := hd.elim (fun hd => by cases hd; rfl) (·.1)
    obtain ⟨table, hmem, heq⟩ := htable hdue
    exact (htables td ht).2 table hmem (congrArg Mark.deleted heq) tt (congrArg Mark.hardDeleteTime heq)
  · refine (mem_append.mp hx).imp_right fun hx y hy => ?_
    simp only [cascaded, hdb, elim_some, mem_map] at hx
    obtain ⟨tableId, hlive, rfl⟩ := hx
    obtain ⟨⟨id, table⟩, hfilter, rfl⟩ := mem_map.mp hlive
    obtain ⟨hentry, hlive⟩ := mem_filter.mp hfilter
    have htableId : db.tables.getById id = some table := KeyedList.lookup_eq_some.mpr hentry
    rcases hy with rfl | rfl
    · exact ⟨table.mark, by simp [DatabaseCatalog.mark, hdb, htableId],
        .inr ⟨rfl, by simpa [TableDefinition.mark] using hlive⟩⟩
    · exact ⟨_, hdbMark, .inl rfl⟩

theorem softDeleteTable (h : s.Sound cfg) (hgrace : 0 < cfg.deleteGracePeriod) {tableName : String}
    (hguard : Settled cfg s (.softDeleteTable dbName tableName time scope))
    (hpermit : s.permit = true) {r : SoftDeleteTable}
    (hop : Catalog.softDeleteTable s.catalog s.now cfg.defaultHardDeleteDuration dbName tableName time scope = .ok r)
    (happly : DatabaseRecord.onDatabases r.apply s.catalog = .ok catalog) :
    Sound cfg { s with catalog, unsent := [.table r.databaseId r.tableId] } := by
  obtain ⟨db, table, hname, hdbLive, htableName, hlive, hid, htableId, htime⟩ := of_softDeleteTable hop
  have hdb : s.catalog.databases.getById r.databaseId = some db := hid ▸ h.getById_of_getByName hname
  have htable : db.tables.getById r.tableId = some table :=
    htableId ▸ h.getById_table_of_getByName (h.getById_of_getByName hname) htableName
  have htableMark : s.catalog.mark (.table r.databaseId r.tableId) = some table.mark := by
    simp [DatabaseCatalog.mark, hdb, htable]
  -- neither the table nor its database is deleted
  have hcovers (y : Target) (hy : Covers y (.table r.databaseId r.tableId)) :
      ∃ mark, s.catalog.mark y = some mark ∧ mark.deleted = false := by
    rcases hy with rfl | rfl
    · exact ⟨_, htableMark, hlive⟩
    · exact ⟨db.mark, by simp [DatabaseCatalog.mark, hdb, Target.dbId], hdbLive⟩
  have hnotDue {y : Target} (hy : Covers y (.table r.databaseId r.tableId)) (t : Int) : ¬Due s.catalog y t := by
    intro hdue
    obtain ⟨mark, hmark, hlive⟩ := hcovers y hy
    simp [((due_iff hmark).mp hdue).1] at hlive
  refine h.softDeleted (mark_softDeleteTable happly) ?_ (fun y hy => ⟨(hcovers y hy).imp fun _ => And.left, hnotDue hy⟩)
    ?_ hgrace hpermit (by rintro _ _ _ _ _ _ ⟨⟩) fun x hx => .inl hx
  · rintro x mark hmark rfl
    refine ⟨rfl, hnotDue (.inl rfl), fun hdeleted => ?_⟩
    cases htableMark.symm.trans hmark
    cases hlive.symm.trans hdeleted
  · rintro x mark - rfl htimed m hm
    refine ⟨hguard (fun hnone => ?_) m hm, rfl⟩
    cases time <;> simp_all [resolveHardDeleteTime, HardDeletionTime.asTime]

section
variable (h : s.Sound cfg)
include h

/-- A new database or table is not deleted, and nothing that is queued is about it. -/
theorem created (hfresh : target ∉ s.seen)
    (hmark : ∀ x, catalog.mark x = if x = target then some ⟨target.ownId, false, none⟩ else s.catalog.mark x) :
    Sound cfg { s with catalog, seen := s.seen ++ [target] } := by
  have hdue {x : Target} {t : Int} : Due catalog x t ↔ Due s.catalog x t := by
    unfold Due
    by_cases hx : x = target
    · refine iff_of_false (by simp [hmark, hx]) fun ⟨id, hold⟩ => hfresh (hx ▸ (h.marks x _ hold).2.1)
    · simp [hmark, hx]
  have hseen {x : Target} (hx : x ∈ s.seen) : x ∈ s.seen ++ [target] ∧ catalog.mark x = s.catalog.mark x :=
    ⟨mem_append_left _ hx, by rw [hmark, if_neg fun heq : x = target => hfresh (heq ▸ hx)]⟩
  refine { h with marks := fun x mark hmark' => ?_, order := fun d t tt td htt htd => ?_, together := fun x hx => ?_,
                  manager := fun m hm => ?_ }
  · rw [hmark] at hmark'
    split_ifs at hmark' with hx
    · cases hmark'
      exact ⟨hx ▸ rfl, mem_snoc.mpr (.inr hx), nofun⟩
    · exact (h.marks x mark hmark').imp_right (.imp_left (mem_append_left _))
  · exact h.order d t tt td (hdue.mp htt) (hdue.mp htd)
  · obtain ⟨hx, hdeleted, hdatabase⟩ := h.together x hx
    exact ⟨(hseen hx).1, fun mark hmark' => hdeleted mark ((hseen hx).2 ▸ hmark'),
      fun t ht => hdue.mpr (hdatabase t (hdue.mp ht))⟩
  · have hold := h.manager m hm
    refine { hold with right := fun task htask => ?_, covered := fun x t hx => hold.covered x t (hdue.mp hx) }
    obtain ⟨t, x | x⟩ := task
    · exact hdue.mpr (hold.right _ htask)
    · obtain ⟨hx, hdelete⟩ := hold.right _ htask
      exact ⟨(hseen hx).1, fun mark hmark' => hdue.mpr (hdelete mark ((hseen hx).2 ▸ hmark'))⟩

/-- A change of the manager alone. -/
theorem withManager (hm : m.Sound cfg { s with manager := some m }) : Sound cfg { s with manager := some m } :=
  { h with manager := fun _ heq => some.inj heq ▸ hm }

theorem broadcast {unsent : List Target} (hunsent : s.unsent = target :: unsent) :
    Sound cfg { s with unsent, manager := s.manager.map fun m =>
      if m.subscribed then { m with inbox := m.inbox ++ [target] } else m } := by
  have hlength := h.unsent
  rw [hunsent] at hlength
  refine { h with unsent := by simp at hlength ⊢; simp [hlength], manager := fun m' hm' => ?_ }
  obtain ⟨m, hm, rfl⟩ := map_eq_some_iff.mp hm'
  have hm := h.manager m hm
  have hevents : m.inbox ++ s.unsent = (m.inbox ++ [target]) ++ unsent := by rw [hunsent, append_assoc]; rfl
  split_ifs with hsubscribed
  · exact { hm with still := fun t y hmem x hcovers => hevents ▸ hm.still t y hmem x hcovers,
                    single := hevents ▸ hm.single,
                    covered := fun x t hdue => (hm.covered x t hdue).imp_right fun hevent =>
                      ⟨hevent.1, hevents ▸ hevent.2⟩ }
  · have hsub : (m.inbox ++ unsent).Sublist (m.inbox ++ s.unsent) := by
      rw [hunsent]
      exact (sublist_cons_self _ _).append_left _
    exact { hm with still := fun t y hmem x hcovers hevent => hm.still t y hmem x hcovers (hsub.subset hevent),
                    single := hsub.length_le.trans hm.single,
                    covered := fun x t hdue =>
                      .inl ((hm.covered x t hdue).resolve_right fun hevent => hsubscribed hevent.1) }

theorem start (hunsent : s.unsent = []) :
    Sound cfg { s with manager := some ⟨initialTasks cfg s.catalog, false, [], none⟩ } := by
  have hids : ∀ x mark, s.catalog.mark x = some mark → mark.id = x.ownId := fun x mark hmark => (h.marks x mark hmark).1
  refine h.withManager ⟨fun task hmem => ?_, nofun,
    nofun, by simp [hunsent], by simp [hunsent], fun x t hdue => .inl fun task htask => .inl ?_⟩
  · obtain ⟨x, t, hdue, htask⟩ := (mem_initialTasks hids).mp hmem
    exact h.right_of_due hdue htask
  · exact (mem_initialTasks hids).mpr ⟨x, t, hdue, htask⟩

theorem subscribe (hm : s.manager = some m) : Sound cfg { s with manager := some { m with subscribed := true } } := by
  have hm := h.manager m hm
  exact h.withManager { hm with
    covered := fun x t hdue => (hm.covered x t hdue).imp_right fun hevent => ⟨rfl, hevent.2⟩ }

/-- The event is handled by queueing the tasks of what it is about. -/
theorem handle (hm : s.manager = some m) {inbox : List Target} (hinbox : m.inbox = target :: inbox) :
    Sound cfg { s with manager := some ({ m with inbox }.handleEvent cfg s.catalog target) } := by
  have hm := h.manager m hm
  have hsingle := hm.single
  rw [hinbox, cons_append, length_cons, Nat.succ_le_succ_iff, Nat.le_zero, length_eq_zero_iff] at hsingle
  have hnew {task : Int × Task}
      (htask : task ∈ ((s.catalog.mark target).bind Mark.hardDeleteTime).elim [] (tasksFor cfg target)) :
      ∃ t, Due s.catalog target t ∧ task ∈ tasksFor cfg target t := by
    cases htime : (s.catalog.mark target).bind Mark.hardDeleteTime with
    | none =>
      rw [htime] at htask
      cases htask
    | some t =>
      rw [htime] at htask
      obtain ⟨mark, hmark, ht⟩ := bind_eq_some_iff.mp htime
      exact ⟨t, (due_iff hmark).mpr ⟨(h.marks target mark hmark).2.2 (by rw [ht]; rfl), ht⟩, htask⟩
  refine h.withManager
    ⟨fun task hmem => ?_, hm.current, fun t y hcurrent t' x hcovers hmem => ?_, by simp [Manager.handleEvent, hsingle],
    by simp [Manager.handleEvent, hsingle], fun x t hdue => .inl fun task htask => ?_⟩
  · rcases mem_append.mp hmem with hcurrent | htasks
    · exact hm.right task (mem_append_left _ hcurrent)
    · rcases mem_append.mp htasks with htasks | htasks
      · exact hm.right task (mem_append_right _ htasks)
      · obtain ⟨t, hdue, htask⟩ := hnew htasks
        exact h.right_of_due hdue htask
  · rcases mem_append.mp hmem with hmem | hmem
    · exact hm.quiet t y hcurrent t' x hcovers hmem
    · obtain ⟨t'', -, htask⟩ := hnew hmem
      rcases mem_tasksFor.mp htask with ⟨-, heq⟩ | heq <;> cases heq
      have hqueued : (t, Task.delete y) ∈ m.pending := mem_append_left _ (Option.mem_toList.mpr hcurrent)
      exact hm.still t y hqueued target hcovers (by simp [hinbox])
  · rcases hm.covered x t hdue with hcovered | ⟨-, hevent⟩
    · refine (hcovered task htask).imp_left fun hmem => ?_
      exact (mem_append.mp hmem).elim (mem_append_left _) fun htasks => mem_append_right _ (mem_append_left _ htasks)
    · rw [hinbox, cons_append, hsingle, mem_singleton] at hevent
      subst hevent
      obtain ⟨id, hmark⟩ := hdue
      refine .inl (mem_append_right _ (mem_append_right _ ?_))
      simpa [hmark] using htask

/-- The task with the earliest time is taken, so that what a removal covers has been notified. -/
theorem pop (hgrace : 0 < cfg.deleteGracePeriod) (hm : s.manager = some m) {i : Nat}
    (htask : m.tasks[i]? = some task) (hcurrent : m.current = none) (hnow : task.1 ≤ s.now)
    (hfirst : ∀ other ∈ m.tasks, task.1 ≤ other.1) :
    Sound cfg { s with manager := some { m with tasks := m.tasks.eraseIdx i, current := some task } } := by
  have hm := h.manager m hm
  have hperm : ∀ other, other ∈ ({ m with tasks := m.tasks.eraseIdx i, current := some task } : Manager).pending ↔
      other ∈ m.pending := by
    intro other
    obtain ⟨hi, rfl⟩ := List.getElem?_eq_some_iff.mp htask
    have := (getElem_cons_eraseIdx_perm hi).mem_iff (a := other)
    simpa [Manager.pending, hcurrent] using this
  refine h.withManager ⟨fun task hmem => hm.right task ((hperm _).mp hmem), ?_, ?_,
    fun t y hmem => hm.still t y ((hperm _).mp hmem), hm.single, fun x t hdue => ?_⟩
  · intro current heq
    cases heq
    exact hnow
  · intro t y heq t' x hcovers hmem
    cases heq
    have hmem : (t', Task.notifyDelete x) ∈ m.tasks := mem_of_mem_eraseIdx hmem
    obtain ⟨id, hdue⟩ : Due s.catalog x t' := hm.right _ (mem_append_right _ hmem)
    have hle : t ≤ t' := hfirst _ hmem
    have hdelete := (hm.right _ (mem_append_right _ (mem_of_getElem? htask))).2
    have hself (hyx : y = x) : False := by
      subst hyx
      have htime := ((due_iff hdue).mp (hdelete _ hdue)).2
      simp only [some.injEq] at htime
      omega
    rcases hcovers with rfl | rfl
    · exact hself rfl
    · cases x with
      | database d => exact hself rfl
      | table d tableId =>
        obtain ⟨dbMark, hdbMark⟩ := DatabaseCatalog.mark_database_isSome hdue
        have hlt := h.order d tableId t' _ ⟨id, hdue⟩ (hdelete dbMark hdbMark)
        omega
  · refine (hm.covered x t hdue).imp_left fun hcovered other hother => ?_
    exact (hcovered other hother).imp_left (hperm other).mpr

/-- The task at hand is done, and the catalog is as it was. -/
theorem executed (hm : s.manager = some m) (hcurrent : m.current = some task) :
    Sound cfg { s with manager := some { m with current := none }, executed := s.executed ++ [task] } := by
  refine { h with manager := fun m' hm' => ?_ }
  cases hm'
  have hm := h.manager m hm
  have hsub {other : Int × Task} (hother : other ∈ ({ m with current := none } : Manager).pending) :
      other ∈ m.pending :=
    mem_append_right _ hother
  refine ⟨fun task hmem => hm.right task (hsub hmem), nofun, nofun, fun t y hmem => hm.still t y (hsub hmem), hm.single,
    fun x t hdue => ?_⟩
  refine (hm.covered x t hdue).imp_left fun hcovered other hother => ?_
  rcases hcovered other hother with hmem | hmem
  · rcases mem_append.mp hmem with heq | hmem
    · rw [hcurrent, Option.mem_toList] at heq
      exact .inr (mem_append_right _ (by simp [some.inj heq]))
    · exact .inl hmem
  · exact .inr (mem_append_left _ hmem)

theorem handOver (hdue : Due s.catalog target t) (hnow : t ≤ s.now) :
    Sound cfg { s with
      handed := s.handed ++ [⟨target, s.now, s.catalog.mark target, s.catalog.mark (.database target.dbId),
        s.together.contains target⟩] } := by
  refine { h with handed := forall_mem_snoc.mpr ⟨h.handed, hdue.imp fun id hmark => ⟨t, hmark, hnow⟩⟩,
                  handedTogether := forall_mem_snoc.mpr ⟨h.handedTogether, fun htogether => ?_⟩,
                  manager := fun m hm => { h.manager m hm with } }
  exact ((h.together target (contains_iff_mem.mp htogether)).2.2 t hdue).imp fun id hmark => ⟨t, hmark, hnow⟩

end

end State.Sound

/-- A removal takes away marks of what it covers only. -/
theorem mark_hardDelete {c' : DatabaseCatalog} {y : Target} (h : hardDelete c y = some c') :
    (∃ mark, c.mark y = some mark) ∧ ∀ x, c'.mark x = c.mark x ∨ Covers y x ∧ c'.mark x = none := by
  cases y with
  | database d =>
    obtain ⟨r, hr, happly⟩ := bind_eq_some_iff.mp h
    have hr := toOption_eq_some.mp hr
    unfold prepareHardDeleteDatabase at hr
    split at hr
    · cases hr
    · next db hdb =>
      split_ifs at hr
      cases hr
      refine ⟨⟨db.mark, by simp [DatabaseCatalog.mark, hdb]⟩, fun x => ?_⟩
      exact (mark_hardDeleteDatabase (toOption_eq_some.mp happly) x).imp_right fun hx =>
        ⟨.inr (congrArg _ hx.1.symm), hx.2⟩
  | table d tableId =>
    obtain ⟨r, hr, happly⟩ := bind_eq_some_iff.mp h
    have hr := toOption_eq_some.mp hr
    unfold prepareHardDeleteTable at hr
    split at hr
    · cases hr
    · next db hdb =>
      split_ifs at hr
      split at hr <;> cases hr
      next table htable =>
        refine ⟨⟨table.mark, by simp [DatabaseCatalog.mark, hdb, htable]⟩, fun x => ?_⟩
        exact (mark_hardDeleteTable (toOption_eq_some.mp happly) x).imp_right fun hx => ⟨.inl hx.1.symm, hx.2⟩

namespace State.Sound

variable (h : s.Sound cfg)
include h

/-- What is due is removed, after the grace period. -/
theorem removal (hm : s.manager = some m) {target : Target} (hcurrent : m.current = some (t, .delete target))
    (hdelete : hardDelete s.catalog target = some catalog) :
    Sound cfg { s with catalog, removed := s.removed ++ [⟨target, s.now, s.catalog.mark target⟩] } := by
  obtain ⟨⟨mark, hmark⟩, hmarks⟩ := mark_hardDelete hdelete
  have hold {x : Target} {mark : Mark} (hx : catalog.mark x = some mark) : s.catalog.mark x = some mark := by
    rcases hmarks x with heq | ⟨-, hnone⟩
    · exact heq ▸ hx
    · cases hnone.symm.trans hx
  have hdueOld {x : Target} {t : Int} (hdue : Due catalog x t) : Due s.catalog x t := hdue.imp fun _ => hold
  have hdueKept {x : Target} {t : Int} {mark : Mark} (hx : catalog.mark x = some mark) (hdue : Due s.catalog x t) :
      Due catalog x t := (due_iff hx).mpr ((due_iff (hold hx)).mp hdue)
  have hmanager := h.manager m hm
  have hqueued : (t, Task.delete target) ∈ m.pending := mem_append_left _ (Option.mem_toList.mpr hcurrent)
  refine { h with marks := fun x mark hx => h.marks x mark (hold hx),
                  order := fun d t tt td htt htd => h.order d t tt td (hdueOld htt) (hdueOld htd),
                  together := fun x hx => ?_, removed := forall_mem_snoc.mpr ⟨h.removed, ?_⟩,
                  manager := fun m' hm' => ?_ }
  · obtain ⟨hseen, hdeleted, hdatabase⟩ := h.together x hx
    refine ⟨hseen, fun mark hmark => hdeleted mark (hold hmark), fun t hdue => ?_⟩
    -- a table that is still there has its database
    obtain ⟨dbMark, hdbMark⟩ : ∃ dbMark, catalog.mark (.database x.dbId) = some dbMark := by
      obtain ⟨id, hmark⟩ := hdue
      cases x with
      | database d => exact ⟨_, hmark⟩
      | table d tableId => exact DatabaseCatalog.mark_database_isSome hmark
    exact hdueKept hdbMark (hdatabase t (hdueOld hdue))
  · obtain ⟨id, hdue⟩ := (hmanager.right _ hqueued).2 mark hmark
    have hnow : t ≤ s.now := hmanager.current _ hcurrent
    exact ⟨id, t - cfg.deleteGracePeriod, hdue, by simp only; omega⟩
  · cases hm.symm.trans hm'
    refine { hmanager with right := fun task hmem => ?_,
                           covered := fun x t hdue => hmanager.covered x t (hdueOld hdue) }
    obtain ⟨t', x | x⟩ := task
    · obtain ⟨id, hdue⟩ := hmanager.right _ hmem
      rcases hmarks x with heq | ⟨hcovers, -⟩
      · exact ⟨id, heq.trans hdue⟩
      · rcases mem_append.mp hmem with heq | hmem
        · rw [hcurrent, Option.mem_toList] at heq
          cases heq
        · exact absurd hmem (hmanager.quiet t target hcurrent t' x hcovers)
    · obtain ⟨hseen, hdue⟩ := hmanager.right _ hmem
      exact ⟨hseen, fun mark hmark => hdueKept hmark (hdue mark (hold hmark))⟩

theorem execute (hm : s.manager = some m) {task : Task} (hcurrent : m.current = some (t, task))
    {persists : Bool} (hexecute : s.execute m t task persists = some s') : s'.Sound cfg := by
  have hqueued : (t, task) ∈ m.pending := mem_append_left _ (Option.mem_toList.mpr hcurrent)
  have hmanager := h.manager m hm
  cases task with
  | notifyDelete target =>
    cases hexecute
    exact (h.handOver (hmanager.right _ hqueued) (hmanager.current _ hcurrent)).executed hm hcurrent
  | delete target =>
    simp only [State.execute] at hexecute
    split_ifs at hexecute
    · cases hdelete : hardDelete s.catalog target with
      | none =>
        rw [hdelete] at hexecute
        cases hexecute
        exact h.executed hm hcurrent
      | some catalog =>
        rw [hdelete] at hexecute
        cases hexecute
        exact (h.removal hm hcurrent hdelete).executed hm hcurrent
    · cases hexecute
      exact h.executed hm hcurrent

theorem tick (duration : Nat) : Sound cfg { s with now := s.now + duration } := by
  refine { h with manager := fun m hm => { h.manager m hm with current := fun task htask => ?_ } }
  have hle := (h.manager m hm).current task htask
  simp only
  omega

theorem step (hgrace : 0 < cfg.deleteGracePeriod) {a : Action} (hguard : Settled cfg s a)
    (hstep : s.step cfg a = some s') : s'.Sound cfg := by
  cases a
  case tick duration =>
    cases hstep
    exact h.tick duration
  case subscribe =>
    obtain ⟨m, hm, rfl⟩ := map_eq_some_iff.mp hstep
    exact h.subscribe hm
  case handle =>
    obtain ⟨m, hm, hstep⟩ := bind_eq_some_iff.mp hstep
    split at hstep
    · cases hstep
    · next hinbox =>
      cases hstep
      exact h.handle hm hinbox
  case pop i =>
    obtain ⟨m, hm, hstep⟩ := bind_eq_some_iff.mp hstep
    obtain ⟨task, htask, hstep⟩ := bind_eq_some_iff.mp hstep
    split_ifs at hstep with hready
    cases hstep
    exact h.pop hgrace hm htask hready.2.1 hready.2.2.1 hready.2.2.2
  case execute persists =>
    obtain ⟨m, hm, hstep⟩ := bind_eq_some_iff.mp hstep
    obtain ⟨⟨t, task⟩, hcurrent, hstep⟩ := bind_eq_some_iff.mp hstep
    exact h.execute hm hcurrent hstep
  case stop =>
    obtain ⟨m, -, rfl⟩ := map_eq_some_iff.mp hstep
    exact { h with manager := nofun }
  all_goals simp only [State.step] at hstep
  case createDatabase r =>
    split_ifs at hstep with hfresh
    obtain ⟨catalog, hcatalog, rfl⟩ := map_eq_some_iff.mp hstep
    have hnone : s.catalog.mark (.database r.databaseId) = none :=
      Option.eq_none_iff_forall_ne_some.mpr fun mark hmark => hfresh (h.marks _ mark hmark).2.1
    exact h.created hfresh (mark_createDatabase (toOption_eq_some.mp hcatalog) hnone)
  case createTable r =>
    split_ifs at hstep with hfresh
    obtain ⟨catalog, hcatalog, rfl⟩ := map_eq_some_iff.mp hstep
    exact h.created hfresh (mark_createTable (toOption_eq_some.mp hcatalog))
  case softDeleteDatabase dbName time scope =>
    split_ifs at hstep with hpermit
    split at hstep
    · cases hstep
      exact h
    · next hop =>
      obtain ⟨catalog, hcatalog, rfl⟩ := map_eq_some_iff.mp hstep
      exact h.softDeleteDatabase hgrace hguard hpermit hop (toOption_eq_some.mp hcatalog)
  case softDeleteTable dbName tableName time scope =>
    split_ifs at hstep with hpermit
    split at hstep
    · cases hstep
      exact h
    · next hop =>
      obtain ⟨catalog, hcatalog, rfl⟩ := map_eq_some_iff.mp hstep
      exact h.softDeleteTable hgrace hguard hpermit hop (toOption_eq_some.mp hcatalog)
  case broadcast =>
    split at hstep
    · cases hstep
    · next hunsent =>
      cases hstep
      exact h.broadcast hunsent
  case start =>
    split at hstep <;> cases hstep
    exact h.start hguard

end State.Sound

end

structure Initial (s : State) : Prop where
  ids : ∀ x mark, s.catalog.mark x = some mark → mark.id = x.ownId ∧ mark.deleted = false ∧ mark.hardDeleteTime = none
  seen : ∀ x mark, s.catalog.mark x = some mark → x ∈ s.seen
  quiet : s.unsent = [] ∧ s.manager = none
  fresh : s.together = [] ∧ s.handed = [] ∧ s.removed = []

theorem Initial.sound {cfg : Config} {s : State} (h : Initial s) : s.Sound cfg where
  marks x mark hmark :=
    ⟨(h.ids x mark hmark).1, h.seen x mark hmark, fun htimed => by simp [(h.ids x mark hmark).2.2] at htimed⟩
  order d t tt td htt _ := by
    obtain ⟨id, hmark⟩ := htt
    cases (h.ids _ _ hmark).2.1
  together := by simp [h.fresh]
  handed := by simp [h.fresh]
  removed := by simp [h.fresh]
  handedTogether := by simp [h.fresh]
  unsent := by simp [h.quiet]
  manager := by simp [h.quiet]

/-- In every run whose deletions leave the queue right, hard deletions follow the recorded times. -/
theorem hard_deletions_follow {cfg : Config} (hgrace : 0 < cfg.deleteGracePeriod) {s₀ s : State} (hinit : Initial s₀)
    {as : List Action} (hguard : Guarded (State.step cfg) (Settled cfg) s₀ as)
    (hrun : run (State.step cfg) s₀ as = some s) : s.Follows cfg :=
  (invariant (fun h hguard hstep => h.step hgrace hguard hstep) hinit.sound hguard hrun : s.Sound cfg).follows

instance (cfg : Config) (s : State) (a : Action) : Decidable (Settled cfg s a) := by
  cases a <;> dsimp only [Settled] <;> infer_instance

private def daily : Config := ⟨10, true, 100⟩

private def emptyCatalog : State := ⟨⟨.parquet, .new, ⟨.new, .new⟩⟩, 0, [], none, [], [], [], [], []⟩

theorem mark_emptyCatalog : ∀ x, emptyCatalog.catalog.mark x = none
  | .database _ => rfl
  | .table _ _ => rfl

private theorem initial_emptyCatalog : Initial emptyCatalog where
  ids x _ hmark := nomatch (mark_emptyCatalog x).symm.trans hmark
  seen x _ hmark := nomatch (mark_emptyCatalog x).symm.trans hmark
  quiet := ⟨rfl, rfl⟩
  fresh := ⟨rfl, rfl, rfl⟩

private def running : List Action := [.createDatabase ⟨0, "db", .indefinite⟩, .start, .subscribe]

private def deletedAt (dbName : String) (time : HardDeletionTime) : List Action :=
  [.softDeleteDatabase dbName time .dataAndCatalog, .broadcast, .handle]

/-- The time at which a database is to be removed is postponed from 20 to 100, and it is handed over at 20. -/
theorem postponed_deletion_not_postponed :
    ∃ s, run (State.step daily) emptyCatalog (running ++ deletedAt "db" (.timestamp 20) ++
    deletedAt "db-19700101T000000" (.timestamp 100) ++ [.tick 20, .pop 0, .execute true]) = some s ∧
    s.handed = [⟨.database 0, 20, some ⟨0, true, some 100⟩, some ⟨0, true, some 100⟩, false⟩] := by
  decide +kernel

private def removedOnTime : List Action := running ++ deletedAt "db" (.timestamp 20) ++
  [.tick 20, .pop 0, .execute true, .tick 10, .pop 0, .execute true]

theorem deletion_on_time_follows : ∃ s, run (State.step daily) emptyCatalog removedOnTime = some s ∧
    s.handed.length = 1 ∧ s.removed = [⟨.database 0, 30, some ⟨0, true, some 20⟩⟩] ∧ s.Follows daily := by
  exact exists_and_and (by decide +kernel) fun s hrun _ _ =>
    hard_deletions_follow (by decide) initial_emptyCatalog (by decide +kernel) hrun

end VarveDB.Deleter
