import VarveDB.Library.Results

/-! The database that a v1 write goes to and the one that a v1 query reads. -/
namespace VarveDB.V1Api
open Library

structure Unicode where
  toLowercase : String → String
  isAlphanumeric : Char → Bool
  quote : isAlphanumeric '"' = false
  graphemes : String → List String

inductive WriteError where
  | lengthConstraint (name : String)
  | badChars (badCharOffset : Nat) (name : String)
  | empty | nameTooLong | invalidChar | invalidStartChar | invalidRetentionPolicy
  deriving DecidableEq

section Write
variable (u : Unicode) (db : String) (rp : Option String)

inductive RetentionPolicy where
  | unspecified | autogen | named (rp : String)

def RetentionPolicy.deserialize (rp : String) : RetentionPolicy :=
  match u.toLowercase rp with
  | "" | "''" => .unspecified
  | "autogen" | "default" => .autogen
  | s => .named s

def namespaceName (name : String) : Except WriteError String :=
  if name.utf8ByteSize < 1 ∨ 64 < name.utf8ByteSize then .error (.lengthConstraint name)
  else match name.toList.findIdx? fun c => !(u.isAlphanumeric c || c == '/' || c == '_' || c == '-') with
    | some i => .error (.badChars i name)
    | none => .ok name

def writtenName : String :=
  match rp.elim .unspecified (RetentionPolicy.deserialize u) with
  | .unspecified | .autogen => db
  | .named rp => db ++ "/" ++ rp

def parseV1 : Except WriteError String := namespaceName u (writtenName u db rp)

def validateGraphemes (lastChar : Option Char) (separatorFound : Bool) : List String → Except WriteError Unit
  | [] => if lastChar = some '/' then .error .invalidRetentionPolicy else .ok ()
  | grapheme :: graphemes =>
    if 1 < grapheme.utf8ByteSize then .error .invalidChar
    else
      let char := grapheme.front
      if lastChar = none then
        if char.isAlphanum then validateGraphemes (some char) separatorFound graphemes else .error .invalidStartChar
      else if char = '/' then
        if separatorFound then .error .invalidRetentionPolicy else validateGraphemes (some char) true graphemes
      else if char.isAlphanum ∨ char = '_' ∨ char = '-' then validateGraphemes (some char) separatorFound graphemes
      else .error .invalidChar

def validateDbName (name : String) : Except WriteError Unit :=
  if name = "" then .error .empty
  else if 511 < name.utf8ByteSize then .error .nameTooLong
  else validateGraphemes none false (u.graphemes name)

def writtenDatabase : Except WriteError String := do
  let name ← parseV1 u db rp
  validateDbName u name
  .ok name

def plainPolicies : List String := ["", "\'\'", "autogen", "default"]

theorem writtenName_some (db rp : String) : writtenName u db (some rp) =
    if u.toLowercase rp ∈ plainPolicies then db else db ++ "/" ++ u.toLowercase rp := by
  simp only [writtenName, RetentionPolicy.deserialize, Option.elim_some, plainPolicies, List.mem_cons, List.not_mem_nil,
    or_false]
  split <;> rename_i h <;> split at h <;> simp_all

theorem append_policy_ne (db rp : String) : db ++ "/" ++ rp ≠ db := fun h => by
  have hlength := congrArg String.length h
  rw [String.length_append, String.length_append, show "/".length = 1 from rfl] at hlength
  omega

private theorem writtenDatabase_eq_ok {db name : String} {rp : Option String} (h : writtenDatabase u db rp = .ok name) :
    name = writtenName u db rp ∧ name ≠ "" ∧ '"' ∉ name.toList := by
  obtain ⟨n, hparse, h⟩ := bind_eq_ok.mp h
  obtain ⟨⟨⟩, hvalid, ⟨⟩⟩ := bind_eq_ok.mp h
  obtain ⟨-, hchars⟩ := ite_error_eq_ok.mp hparse
  split at hchars
  · cases hchars
  · next hnone =>
    obtain rfl := Except.ok.inj hchars
    refine ⟨rfl, (ite_error_eq_ok.mp hvalid).1, fun hquote => ?_⟩
    have hbad := List.findIdx?_eq_none_iff.mp hnone _ hquote
    simp [u.quote] at hbad

end Write

inductive Error where
  | multiDatabase
  deriving DecidableEq

inductive ExtendedOnClause where
  | database (db : String)
  | databaseRetentionPolicy (db rp : String)
  | allDatabases
  | allDatabasesAndRetentionPolicies

inductive MeasurementSelection where
  | name (database retentionPolicy : Option String)
  | subquery (from_ : List MeasurementSelection)

inductive Statement where
  | showMeasurements (on : Option ExtendedOnClause)
  | showRetentionPolicies (database : Option String)
  | showTagKeys (database : Option String)
  | showTagValues (database : Option String)
  | showFieldKeys (database : Option String)
  | select (from_ : List MeasurementSelection)
  | explain (statement : Statement)
  | createDatabase | delete | dropMeasurement | showDatabases

abbrev Dbrp := Option String × Option String

mutual

def MeasurementSelection.dbrp : MeasurementSelection → Except Error Dbrp
  | .name database retentionPolicy => .ok (database, retentionPolicy)
  | .subquery ms => selectDbrp none ms

def selectDbrp (seen : Option Dbrp) : List MeasurementSelection → Except Error Dbrp
  | [] => .ok (seen.getD (none, none))
  | m :: ms => do
    let pair ← m.dbrp
    if seen.getD pair = pair then selectDbrp (some pair) ms else .error .multiDatabase

end

def Statement.dbrp : Statement → Except Error Dbrp
  | .showMeasurements none => .ok (none, none)
  | .showMeasurements (some (.database db)) => .ok (some db, none)
  | .showMeasurements (some (.databaseRetentionPolicy db rp)) => .ok (some db, some rp)
  | .showMeasurements (some _) => .error .multiDatabase
  | .showRetentionPolicies db | .showTagKeys db | .showTagValues db | .showFieldKeys db => .ok (db, none)
  | .select ms => selectDbrp none ms
  | .explain statement => statement.dbrp
  | .createDatabase | .delete | .dropMeasurement | .showDatabases => .ok (none, none)

inductive MeasurementSelection.Names (pair : Dbrp) : MeasurementSelection → Prop
  | name : Names pair (.name pair.1 pair.2)
  | subquery {ms : List MeasurementSelection} (hne : ms ≠ []) (h : ∀ m ∈ ms, Names pair m) : Names pair (.subquery ms)

def Statement.Names (pair : Dbrp) : Statement → Prop
  | .select ms => ms ≠ [] ∧ ∀ m ∈ ms, m.Names pair
  | .explain statement => statement.Names pair
  | statement => statement.dbrp = .ok pair

section Names
variable {pair : Dbrp} {ms : List MeasurementSelection}

theorem selectDbrp_of_forall {seen : Option Dbrp} (hseen : seen.getD pair = pair) (hne : ms ≠ [] ∨ seen = some pair)
    (h : ∀ m ∈ ms, m.dbrp = .ok pair) : selectDbrp seen ms = .ok pair := by
  induction ms generalizing seen with
  | nil => simp [selectDbrp, hne.resolve_left (absurd rfl)]
  | cons m ms ih =>
    obtain ⟨hm, hms⟩ := List.forall_mem_cons.mp h
    rw [selectDbrp, hm, ok_bind, if_pos hseen]
    exact ih rfl (.inr rfl) hms

theorem MeasurementSelection.Names.dbrp_eq {m : MeasurementSelection} (h : m.Names pair) : m.dbrp = .ok pair := by
  induction h with
  | name => rfl
  | subquery hne _ ih => exact selectDbrp_of_forall rfl (.inl hne) ih

theorem Statement.Names.dbrp_eq {statement : Statement} (h : statement.Names pair) : statement.dbrp = .ok pair := by
  induction statement with
  | select ms => exact selectDbrp_of_forall rfl (.inl h.1) fun m hm => (h.2 m hm).dbrp_eq
  | explain statement ih => exact ih h
  | _ => exact h

end Names

def keywords : List String :=
  ["ALL", "ALTER", "ANALYZE", "AND", "ANY", "AS", "ASC", "BEGIN", "BY", "CARDINALITY", "CREATE", "CONTINUOUS",
    "DATABASE", "DATABASES", "DEFAULT", "DELETE", "DESC", "DESTINATIONS", "DIAGNOSTICS", "DISTINCT", "DROP", "DURATION",
    "END", "EVERY", "EXACT", "EXPLAIN", "FIELD", "FOR", "FROM", "GRANT", "GRANTS", "GROUP", "GROUPS", "IN", "INF",
    "INSERT", "INTO", "KEY", "KEYS", "KILL", "LIMIT", "MEASUREMENT", "MEASUREMENTS", "NAME", "OFFSET", "OR", "ON",
    "ORDER", "PASSWORD", "POLICY", "POLICIES", "PRIVILEGES", "QUERIES", "QUERY", "READ", "REPLICATION", "RESAMPLE",
    "RETENTION", "REVOKE", "SELECT", "SERIES", "SET", "SHOW", "SHARD", "SHARDS", "SLIMIT", "SOFFSET", "STATS",
    "SUBSCRIPTION", "SUBSCRIPTIONS", "TAG", "TO", "USER", "USERS", "VALUES", "WHERE", "WITH", "WRITE"]

def requiresQuotes (s : String) : Bool :=
  match s.toList with
  | [] => true
  | c :: cs => !((c.isAlpha || c == '_') && cs.all (fun c => c.isAlphanum || c == '_') && !keywords.contains s.toUpper)

def displayIdentifier (s : String) : String :=
  if requiresQuotes s then
    String.ofList ('"' :: s.toList.flatMap (fun
      | '\n' => ['\\', 'n']
      | '\\' => ['\\', '\\']
      | '"' => ['\\', '"']
      | c => [c]) ++ ['"'])
  else s

def resolveDbrp : Dbrp → Option String
  | (none, _) => none
  | (some db, none) => some db
  | (some db, some rp) => some (if rp ≠ "autogen" ∧ rp ≠ "default" then db ++ "/" ++ displayIdentifier rp else db)

def Statement.isShowRetentionPolicies : Statement → Bool
  | .showRetentionPolicies _ => true
  | _ => false

/-- `SHOW RETENTION POLICIES` has a branch of its own where the server `lists` policies; that of `SHOW DATABASES`,
which resolves none, is left out. -/
def resolveDatabase (lists : Bool) (database retentionPolicy : Option String) (statement : Statement) :
    Except Error (Option String) := do
  let (db, rp) ← statement.dbrp
  let rp := if lists && statement.isShowRetentionPolicies then rp else rp.or retentionPolicy
  .ok ((resolveDbrp (db, rp)).or (database.filter (· ≠ "")))

/-- A policy that the write takes for the plain database is not read by the query or spelled as it expects;
any other one is read, and is in lower case and needs no quotes. -/
def Agrees (u : Unicode) (reads : Bool) (rp : String) : Prop :=
  if u.toLowercase rp ∈ plainPolicies then reads = true → rp = "autogen" ∨ rp = "default"
  else reads = true ∧ u.toLowercase rp = rp ∧ requiresQuotes rp = false

section
variable {u : Unicode} {db : String}

theorem writtenName_eq_iff {rp : Option String} : writtenName u db rp = db ↔ ∀ s ∈ rp, Agrees u false s := by
  cases rp with
  | none => simp [writtenName]
  | some s => by_cases hs : u.toLowercase s ∈ plainPolicies <;> simp [writtenName_some, Agrees, hs, append_policy_ne]

private theorem resolveDbrp_eq_iff {rp : String} (hquote : '"' ∉ (writtenName u db (some rp)).toList) :
    resolveDbrp (some db, some rp) = some (writtenName u db (some rp)) ↔ Agrees u true rp := by
  rw [writtenName_some] at hquote ⊢
  rw [resolveDbrp, Option.some.injEq, Agrees]
  by_cases hplain : u.toLowercase rp ∈ plainPolicies
  · simp only [hplain, if_true, true_implies]
    split
    · next h => exact iff_of_false (append_policy_ne _ _) fun heq => heq.elim h.1 h.2
    · next h => exact iff_of_true rfl (by tauto)
  · simp only [hplain, if_false, true_and] at hquote ⊢
    split
    · rw [String.append_right_inj, displayIdentifier]
      cases hq : requiresQuotes rp with
      | true => exact iff_of_false (fun h => hquote (by rw [← h]; simp)) (by simp)
      | false => simp [eq_comm]
    · next h =>
      refine iff_of_false (append_policy_ne _ _).symm fun heq => hplain ?_
      rw [not_and_or, not_not, not_not] at h
      rw [heq.1]
      rcases h with rfl | rfl <;> decide

/-- A query resolves to the database of the write exactly if the policy agrees. -/
theorem resolves_to_written_iff {name : String} {rp : Option String} {lists : Bool}
    {database retentionPolicy : Option String} {statement : Statement} {pair : Dbrp}
    (hwrite : writtenDatabase u db rp = .ok name) (hnames : statement.Names pair)
    (hdb : database = some db ∧ pair.1 = none ∨ database = none ∧ pair.1 = some db)
    (hrp : retentionPolicy = rp ∧ pair.2 = none ∨ retentionPolicy = none ∧ pair.2 = rp) :
    resolveDatabase lists database retentionPolicy statement = .ok (some name) ↔
      ∀ s ∈ rp, Agrees u (pair.1.isSome && !(lists && statement.isShowRetentionPolicies)) s := by
  obtain ⟨rfl, hne, hquote⟩ := writtenDatabase_eq_ok u hwrite
  rw [resolveDatabase, hnames.dbrp_eq, ok_bind]
  obtain ⟨d, r⟩ := pair
  rcases hdb with ⟨rfl, rfl⟩ | ⟨rfl, rfl⟩
  · -- only the parameter names the database, and the policy is not read
    have hparam : Option.filter (· ≠ "") (some db) = some (writtenName u db rp) ↔ writtenName u db rp = db := by
      rw [Option.filter_eq_some_iff, Option.some.injEq]
      exact ⟨fun h => h.1.symm, fun h => ⟨h.symm, by simpa using hne⟩⟩
    simpa [resolveDbrp, writtenName_eq_iff] using hparam
  · cases hlists : lists && statement.isShowRetentionPolicies with
    | true =>
      have hnone : r = none := by
        cases statement <;> cases (Bool.and_eq_true_iff.mp hlists).2
        exact (congrArg Prod.snd (Except.ok.inj hnames)).symm
      simp [resolveDbrp, hnone, eq_comm (a := db), writtenName_eq_iff]
    | false =>
      have hused : r.or retentionPolicy = rp := by rcases hrp with ⟨rfl, rfl⟩ | ⟨rfl, rfl⟩ <;> simp
      simp only [Bool.false_eq_true, if_false, hused]
      cases rp with
      | none => simp [resolveDbrp, writtenName]
      | some s => simpa using resolveDbrp_eq_iff hquote

end

private def ascii : Unicode := ⟨String.toLower, Char.isAlphanum, rfl, fun s => s.toList.map fun c => String.ofList [c]⟩

/-- Where both names are request parameters, the query drops the policy. -/
theorem query_drops_policy : writtenDatabase ascii "metrics" (some "weekly") = .ok "metrics/weekly" ∧
    resolveDatabase true (some "metrics") (some "weekly") (.select [.name none none]) = .ok (some "metrics") := by
  decide +kernel

theorem query_reads_lower_case_policy :
    resolveDatabase true none (some "weekly") (.select [.subquery [.name (some "metrics") none]]) =
      .ok (some "metrics/weekly") := by
  have hnames : (Statement.select [.subquery [.name (some "metrics") none]]).Names (some "metrics", none) := by
    refine ⟨by simp, fun m hm => List.mem_singleton.mp hm ▸ .subquery (by simp) fun m hm => ?_⟩
    exact List.mem_singleton.mp hm ▸ .name
  have hwrite : writtenDatabase ascii "metrics" (some "weekly") = .ok "metrics/weekly" := by decide +kernel
  refine (resolves_to_written_iff hwrite hnames (.inr ⟨rfl, rfl⟩) (.inl ⟨rfl, rfl⟩)).mpr ?_
  rintro _ ⟨⟩
  exact (if_neg (by decide +kernel)).mpr (by decide +kernel)

end VarveDB.V1Api
