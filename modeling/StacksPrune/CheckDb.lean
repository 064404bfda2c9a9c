import StacksPrune.HashMap

/-!
# The contract-analysis database

`vm/checker/check_db.rs` keeps the type analysis of every contract in the SQLite table

    type_analysis_table (contract_identifier INTEGER PRIMARY KEY AUTOINCREMENT,
                         contract_name TEXT NOT NULL UNIQUE,
                         analysis TEXT NOT NULL)

and hands the type checker an `AnalysisDatabase`: a savepoint on the connection, through which it
loads contracts, looks up their public functions and maps, and inserts new contracts.
`roll_back()` returns to the savepoint and keeps it open (`ROLLBACK TO`), and `commit()` releases
it (`RELEASE`), which commits the transaction when it is the outermost savepoint.  An
`AnalysisDatabase` dropped without `commit()` is rolled back by rusqlite's `Savepoint`, which runs
`ROLLBACK TO` and no `RELEASE`: the savepoint stays on SQLite's stack and the transaction it began
stays open.  Every later savepoint of the connection has the same name and is nested in it, so no
later `commit()` reaches the database.

The table is modelled by its rows keyed by `contract_name`, which the `UNIQUE` constraint makes a
key; no query reads `contract_identifier`, which is left out.  `ContractAnalysis` is outside the
excerpt: the database uses its JSON text and its two lookups, which are parameters here.  A
`PANIC` of `expect` is `none`.

* `sessions_table`: any sequence of sessions, each committed or dropped, returns; a contract that
  the connection shows keeps its analysis, and every analysis in the table was there before or
  was written by an `insert_contract` of one of the sessions.
* `sessions_refine`: the database implements a registry in which a name is written once and never
  overwritten, `roll_back()` returns to the savepoint's registry, and a dropped session leaves no
  trace: after any sequence of sessions the rows the connection shows are the registry's entries.
  What is committed to the database is the registry after the sessions before the first dropped
  one.
-/

namespace StacksPrune

/-- The errors of `CheckErrors` that the database returns. -/
inductive CheckErrors
  | NoSuchContract (contractName : String)
  | NoSuchPublicFunction (contractName functionName : String)
  | NoSuchMap (mapName : String)
  | ContractAlreadyExists (contractName : String)
deriving DecidableEq

/-- `CheckError::new(err)`: the error with no expressions attached, so only `err` varies. -/
structure CheckError where
  /-- `err`. -/
  err : CheckErrors
deriving DecidableEq

/-- `CheckResult<T>`. -/
abbrev CheckResult (α : Type) := Except CheckError α

/-- What the database uses of `ContractAnalysis` (`vm/checker/typecheck`, outside the excerpt):
its text, read back by `deserialize`, and the lookups of a public function's type and of a map's
key and value types. -/
structure ContractAnalysisOps (ContractAnalysis FunctionType TypeSignature : Type) where
  /-- `ContractAnalysis::serialize`. -/
  serialize : ContractAnalysis → String
  /-- `ContractAnalysis::deserialize`. -/
  deserialize : String → ContractAnalysis
  /-- `get_public_function_type(function_name)`. -/
  getPublicFunctionType : ContractAnalysis → String → Option FunctionType
  /-- `get_map_type(map_name)`. -/
  getMapType : ContractAnalysis → String → Option (TypeSignature × TypeSignature)

/-- The rows of `type_analysis_table`: the `analysis` text of each `contract_name`. -/
abbrev AnalysisTable := HashMap String String

/-- `AnalysisDatabaseConnection`: the connection and the analysis table of its database. -/
structure AnalysisDatabaseConnection where
  /-- The table as committed to the database: what is left when the connection closes. -/
  committed : AnalysisTable
  /-- The table as the connection's statements see it, with the writes of the open
  transaction. -/
  table : AnalysisTable
  /-- The savepoints left open on SQLite's stack.  While there is one, the transaction that the
  outermost began is open. -/
  openSavepoints : Nat
  /-- Outside a transaction the connection sees the committed table. -/
  table_eq : openSavepoints = 0 → table = committed

/-- `AnalysisDatabase`: a savepoint on the connection. -/
structure AnalysisDatabase where
  /-- The table as the savepoint's statements see it. -/
  table : AnalysisTable
  /-- The table when the savepoint was taken, which `ROLLBACK TO` restores. -/
  savedTable : AnalysisTable
  /-- The connection's committed table. -/
  committed : AnalysisTable
  /-- The savepoints open below this one. -/
  outer : Nat

namespace AnalysisDatabaseConnection

/-- `memory()`: `initialize(":memory:")` on a fresh database, where `CREATE TABLE IF NOT EXISTS`
makes the table, empty. -/
def memory : AnalysisDatabaseConnection := ⟨HashMap.empty, HashMap.empty, 0, fun _ => rfl⟩

/-- `begin_save_point()`: `SAVEPOINT` on the table the connection sees, above the savepoints
already open. -/
def beginSavePoint (conn : AnalysisDatabaseConnection) : AnalysisDatabase :=
  ⟨conn.table, conn.table, conn.committed, conn.openSavepoints⟩

end AnalysisDatabaseConnection

namespace AnalysisDatabase

variable {ContractAnalysis FunctionType TypeSignature : Type}
  (ops : ContractAnalysisOps ContractAnalysis FunctionType TypeSignature)

/-- `roll_back()`: `ROLLBACK TO` the savepoint, which stays open. -/
def rollBack (db : AnalysisDatabase) : AnalysisDatabase := { db with table := db.savedTable }

/-- `commit()`: `RELEASE` the savepoint; the connection keeps what it wrote.  Releasing the
outermost savepoint commits the transaction. -/
def commit (db : AnalysisDatabase) : AnalysisDatabaseConnection :=
  if h : db.outer = 0 then ⟨db.table, db.table, 0, fun _ => rfl⟩
  else ⟨db.committed, db.table, db.outer, fun h' => absurd h' h⟩

/-- Dropping an `AnalysisDatabase` without `commit()`: rusqlite's `Savepoint` runs `ROLLBACK TO`
when it is dropped, and no `RELEASE`.  The connection sees the table it had, and the savepoint
stays open. -/
def drop (db : AnalysisDatabase) : AnalysisDatabaseConnection :=
  ⟨db.committed, db.savedTable, db.outer + 1, fun h => absurd h (Nat.succ_ne_zero _)⟩

@[simp] lemma commit_table (db : AnalysisDatabase) : db.commit.table = db.table := by
  unfold commit
  split <;> rfl

/-- A `commit()` leaves the savepoints below open, and commits the table to the database when
there is none. -/
lemma commit_open (db : AnalysisDatabase) :
    db.commit.openSavepoints = db.outer ∧
      db.commit.committed = if db.outer = 0 then db.table else db.committed := by
  unfold commit
  split_ifs with h
  exacts [⟨h.symm, rfl⟩, ⟨rfl, rfl⟩]

/-- `execute` on the statement of `insert_contract`,
`INSERT INTO type_analysis_table (contract_name, analysis) VALUES (?, ?)`: a new row, or `none`
for the panic of `expect` when the `UNIQUE` constraint rejects the name. -/
def execute (db : AnalysisDatabase) (contractName analysis : String) : Option AnalysisDatabase :=
  if db.table.containsKey contractName then none
  else some { db with table := db.table.insert contractName analysis }

/-- `query_row` on the statement of `load_contract`,
`SELECT analysis FROM type_analysis_table WHERE contract_name = ?`: the analysis of the row of
that name, if there is one. -/
def queryRow (db : AnalysisDatabase) (contractName : String) : Option String :=
  db.table.get contractName

/-- `load_contract(contract_name)`. -/
def loadContract (db : AnalysisDatabase) (contractName : String) : Option ContractAnalysis :=
  match db.queryRow contractName with
  | some contract => some (ops.deserialize contract)
  | none => none

/-- `get_public_function_type(contract_name, function_name)`. -/
def getPublicFunctionType (db : AnalysisDatabase) (contractName functionName : String) :
    CheckResult FunctionType :=
  match db.loadContract ops contractName with
  | none => .error ⟨.NoSuchContract contractName⟩
  | some contract =>
    match ops.getPublicFunctionType contract functionName with
    | none => .error ⟨.NoSuchPublicFunction contractName functionName⟩
    | some t => .ok t

/-- `get_map_type(contract_name, map_name)`. -/
def getMapType (db : AnalysisDatabase) (contractName mapName : String) :
    CheckResult (TypeSignature × TypeSignature) :=
  match db.loadContract ops contractName with
  | none => .error ⟨.NoSuchContract contractName⟩
  | some contract =>
    match ops.getMapType contract mapName with
    | none => .error ⟨.NoSuchMap mapName⟩
    | some t => .ok t

/-- `insert_contract(contract_name, contract)`: the result and the database after the call, or
`none` if it panics. -/
def insertContract (db : AnalysisDatabase) (contractName : String) (contract : ContractAnalysis) :
    Option (CheckResult Unit × AnalysisDatabase) :=
  if (db.loadContract ops contractName).isSome then
    some (.error ⟨.ContractAlreadyExists contractName⟩, db)
  else
    (db.execute contractName (ops.serialize contract)).map fun db => (.ok (), db)

/-! ### One call -/

@[simp] lemma loadContract_isSome (db : AnalysisDatabase) (contractName : String) :
    (db.loadContract ops contractName).isSome = (db.table.get contractName).isSome := by
  unfold loadContract queryRow
  split <;> simp_all

/-- `insert_contract` never reaches the panic of `execute`: it inserts only a name that
`load_contract` did not find, which the `UNIQUE` constraint accepts.  It fails, naming the
contract and leaving the database as it was, exactly when the name is taken. -/
lemma insertContract_eq (db : AnalysisDatabase) (contractName : String)
    (contract : ContractAnalysis) :
    db.insertContract ops contractName contract =
      if (db.table.get contractName).isSome then
        some (.error ⟨.ContractAlreadyExists contractName⟩, db)
      else
        some (.ok (), { db with table := db.table.insert contractName (ops.serialize contract) }) := by
  unfold insertContract execute HashMap.containsKey
  rw [loadContract_isSome]
  split_ifs <;> rfl

/-- What `load_contract` returns after a successful `insert_contract`: the text of the contract,
read back, under its name, and what it returned before under every other name. -/
lemma loadContract_insertContract {db db' : AnalysisDatabase} {contractName : String}
    {contract : ContractAnalysis}
    (h : db.insertContract ops contractName contract = some (.ok (), db')) (name : String) :
    db'.loadContract ops name = if name = contractName
      then some (ops.deserialize (ops.serialize contract)) else db.loadContract ops name := by
  rw [insertContract_eq] at h
  split_ifs at h
  · cases h
  · cases h
    unfold loadContract queryRow
    by_cases hn : name = contractName <;> simp [hn]

/-- `get_public_function_type` reports a missing contract before a missing function. -/
example : (AnalysisDatabaseConnection.memory.beginSavePoint.getPublicFunctionType
    ⟨id, id, fun _ _ => (none : Option Unit), fun _ _ => (none : Option (Unit × Unit))⟩ "c" "f") =
      .error ⟨.NoSuchContract "c"⟩ := rfl

/-! ### Sessions -/

/-- A call that changes an `AnalysisDatabase`.  The type checker's other calls only read it. -/
inductive DbOp (ContractAnalysis : Type)
  | insertContract (contractName : String) (contract : ContractAnalysis)
  | rollBack

/-- The database after one call, or `none` if it panics. -/
def applyOp (db : AnalysisDatabase) : DbOp ContractAnalysis → Option AnalysisDatabase
  | .insertContract contractName contract =>
    (db.insertContract ops contractName contract).map Prod.snd
  | .rollBack => some db.rollBack

/-- The database after a sequence of calls, or `none` if one panics. -/
def run : AnalysisDatabase → List (DbOp ContractAnalysis) → Option AnalysisDatabase
  | db, [] => some db
  | db, op :: l => (db.applyOp ops op).bind fun db' => run db' l

/-- A call returns, and changes only the table the savepoint sees. -/
lemma applyOp_eq_some (db : AnalysisDatabase) (op : DbOp ContractAnalysis) :
    ∃ t, db.applyOp ops op = some ⟨t, db.savedTable, db.committed, db.outer⟩ := by
  cases op with
  | insertContract contractName contract =>
    simp only [applyOp, insertContract_eq]
    split_ifs <;> exact ⟨_, rfl⟩
  | rollBack => exact ⟨_, rfl⟩

lemma run_eq_some (db : AnalysisDatabase) (l : List (DbOp ContractAnalysis)) :
    ∃ t, run ops db l = some ⟨t, db.savedTable, db.committed, db.outer⟩ := by
  induction l generalizing db with
  | nil => exact ⟨db.table, rfl⟩
  | cons op l ih =>
    obtain ⟨t₁, h₁⟩ := applyOp_eq_some ops db op
    obtain ⟨t, h⟩ := ih ⟨t₁, db.savedTable, db.committed, db.outer⟩
    exact ⟨t, by simp only [run, h₁, Option.some_bind, h]⟩

end AnalysisDatabase

open AnalysisDatabase

/-- How a session ends: `commit()`, or dropping the `AnalysisDatabase`. -/
inductive SessionEnd
  | commit
  | drop
deriving DecidableEq

/-- The connection after the savepoint `db` ends as `e` says. -/
def AnalysisDatabase.finish (db : AnalysisDatabase) : SessionEnd → AnalysisDatabaseConnection
  | .commit => db.commit
  | .drop => db.drop

variable {ContractAnalysis FunctionType TypeSignature : Type}
  (ops : ContractAnalysisOps ContractAnalysis FunctionType TypeSignature)

/-- A session on a connection: `begin_save_point()`, the calls, and the end.  The connection after
it, or `none` if a call panics. -/
def session (conn : AnalysisDatabaseConnection) (l : List (DbOp ContractAnalysis))
    (e : SessionEnd) : Option AnalysisDatabaseConnection :=
  (run ops conn.beginSavePoint l).map fun db => db.finish e

/-- Sessions one after another on a connection, or `none` if one panics. -/
def sessions : AnalysisDatabaseConnection → List (List (DbOp ContractAnalysis) × SessionEnd) →
    Option AnalysisDatabaseConnection
  | conn, [] => some conn
  | conn, (l, e) :: ss => (session ops conn l e).bind fun conn' => sessions conn' ss

/-! ### What a session keeps and what it writes -/

/-- The table of a savepoint taken on `T`, during a session whose calls are among `L`: the
savepoint is on `T`, every row of `T` is still there, and every other row was written by an
`insert_contract` of `L`. -/
structure SessionInv (T : AnalysisTable) (L : List (DbOp ContractAnalysis))
    (db : AnalysisDatabase) : Prop where
  saved : db.savedTable = T
  keeps : ∀ n a, T.get n = some a → db.table.get n = some a
  written : ∀ n a, db.table.get n = some a →
    T.get n = some a ∨ ∃ c, DbOp.insertContract n c ∈ L ∧ ops.serialize c = a

variable {ops}

lemma SessionInv.begin (conn : AnalysisDatabaseConnection) (L : List (DbOp ContractAnalysis)) :
    SessionInv ops conn.table L conn.beginSavePoint :=
  ⟨rfl, fun _ _ h => h, fun _ _ h => .inl h⟩

/-- Each call of `L` keeps the invariant. -/
lemma SessionInv.applyOp {T : AnalysisTable} {L : List (DbOp ContractAnalysis)}
    {db db' : AnalysisDatabase} {op : DbOp ContractAnalysis} (hi : SessionInv ops T L db)
    (hop : op ∈ L) (h : db.applyOp ops op = some db') : SessionInv ops T L db' := by
  cases op with
  | rollBack =>
    cases h
    exact ⟨hi.saved, fun n a hn => by simpa [rollBack, hi.saved] using hn,
      fun n a hn => .inl (by simpa [rollBack, hi.saved] using hn)⟩
  | insertContract name c =>
    simp only [AnalysisDatabase.applyOp, insertContract_eq] at h
    split_ifs at h with hget
    · cases h
      exact hi
    · cases h
      refine ⟨hi.saved, fun n a hn => ?_, fun n a hn => ?_⟩
      · have hne : n ≠ name := fun he => by
          subst he
          simp [hi.keeps n a hn] at hget
        simpa [HashMap.get_insert, hne] using hi.keeps n a hn
      · simp only [HashMap.get_insert] at hn
        split_ifs at hn with he
        · cases hn
          exact .inr ⟨c, he ▸ hop, rfl⟩
        · exact hi.written n a hn

/-- A run of calls of `L` returns and keeps the invariant. -/
lemma SessionInv.run {T : AnalysisTable} {L : List (DbOp ContractAnalysis)}
    (l : List (DbOp ContractAnalysis)) :
    ∀ db : AnalysisDatabase, (∀ op ∈ l, op ∈ L) → SessionInv ops T L db →
      ∃ db', AnalysisDatabase.run ops db l = some db' ∧ SessionInv ops T L db' := by
  induction l with
  | nil => exact fun db _ hi => ⟨db, rfl, hi⟩
  | cons op l ih =>
    intro db hl hi
    obtain ⟨t₁, h₁⟩ := applyOp_eq_some ops db op
    obtain ⟨db', h', hi'⟩ := ih _ (fun o ho => hl o (List.mem_cons_of_mem op ho))
      (hi.applyOp (hl op (List.mem_cons_self op l)) h₁)
    exact ⟨db', by simp only [AnalysisDatabase.run, h₁, Option.some_bind, h'], hi'⟩

variable (ops)

/-- One session returns; the connection keeps every row it showed, and every new row was
written by one of the session's `insert_contract` calls. -/
lemma session_table (conn : AnalysisDatabaseConnection) (l : List (DbOp ContractAnalysis))
    (e : SessionEnd) :
    ∃ conn', session ops conn l e = some conn' ∧
      (∀ n a, conn.table.get n = some a → conn'.table.get n = some a) ∧
      ∀ n a, conn'.table.get n = some a →
        conn.table.get n = some a ∨ ∃ c, DbOp.insertContract n c ∈ l ∧ ops.serialize c = a := by
  obtain ⟨db, h, hi⟩ := SessionInv.run l _ (fun _ h => h) (SessionInv.begin conn l)
  have hs : ∀ e, session ops conn l e = some (db.finish e) := fun e => by
    unfold session
    rw [h]
    rfl
  cases e with
  | commit =>
    refine ⟨db.commit, hs .commit, ?_, ?_⟩ <;> simp only [commit_table]
    exacts [hi.keeps, hi.written]
  | drop =>
    refine ⟨db.drop, hs .drop, fun n a hn => ?_, fun n a hn => .inl ?_⟩ <;>
      simpa [AnalysisDatabase.drop, hi.saved] using hn

/-- Any sequence of sessions on a connection, each committed or dropped, returns: no call
panics.  A contract that the connection shows keeps its analysis, through later roll-backs and
dropped sessions alike, and every analysis the connection shows was there at the start or was
written by an `insert_contract` of one of the sessions. -/
theorem sessions_table (conn : AnalysisDatabaseConnection)
    (ss : List (List (DbOp ContractAnalysis) × SessionEnd)) :
    ∃ conn', sessions ops conn ss = some conn' ∧
      (∀ n a, conn.table.get n = some a → conn'.table.get n = some a) ∧
      ∀ n a, conn'.table.get n = some a → conn.table.get n = some a ∨
        ∃ s ∈ ss, ∃ c, DbOp.insertContract n c ∈ s.1 ∧ ops.serialize c = a := by
  induction ss generalizing conn with
  | nil => exact ⟨conn, rfl, fun _ _ h => h, fun _ _ h => .inl h⟩
  | cons s ss ih =>
    obtain ⟨l, e⟩ := s
    obtain ⟨conn₁, h₁, hk₁, hw₁⟩ := session_table ops conn l e
    obtain ⟨conn', h', hk', hw'⟩ := ih conn₁
    refine ⟨conn', by simp only [sessions, h₁, Option.some_bind, h'],
      fun n a hn => hk' n a (hk₁ n a hn), fun n a hn => ?_⟩
    rcases hw' n a hn with hn₁ | ⟨s, hs, c, hc, rfl⟩
    · rcases hw₁ n a hn₁ with h | ⟨c, hc, rfl⟩
      · exact .inl h
      · exact .inr ⟨(l, e), List.mem_cons_self _ _, c, hc, rfl⟩
    · exact .inr ⟨s, List.mem_cons_of_mem _ hs, c, hc, rfl⟩

/-! ### The registry the database implements -/

/-- What the analysis database is for: a registry of analyses by contract name, in which a name
is written once and never overwritten, with a savepoint to return to and sessions that are kept
or discarded whole. -/
abbrev Registry := String → Option String

namespace Registry

/-- Registering `analysis` under `contractName`: the first analysis of a name stays. -/
def register (r : Registry) (contractName analysis : String) : Registry :=
  fun n => if n = contractName then (r n).or (some analysis) else r n

/-- A call on the registry `r`, whose savepoint holds `saved`. -/
def applyOp (saved r : Registry) : DbOp ContractAnalysis → Registry
  | .insertContract contractName contract => register r contractName (ops.serialize contract)
  | .rollBack => saved

/-- A session: committed, the registry its calls leave; dropped, the registry it began on. -/
def session (r : Registry) (l : List (DbOp ContractAnalysis)) : SessionEnd → Registry
  | .commit => l.foldl (applyOp ops r) r
  | .drop => r

/-- Sessions one after another. -/
def sessions : Registry → List (List (DbOp ContractAnalysis) × SessionEnd) → Registry
  | r, [] => r
  | r, (l, e) :: ss => sessions (session ops r l e) ss

end Registry

variable {ops}

/-- One call moves the table's rows as the registry moves. -/
lemma applyOp_get {db db' : AnalysisDatabase} {op : DbOp ContractAnalysis}
    (h : db.applyOp ops op = some db') :
    db'.table.get = Registry.applyOp ops db.savedTable.get db.table.get op := by
  cases op with
  | rollBack => cases h; rfl
  | insertContract name c =>
    simp only [AnalysisDatabase.applyOp, insertContract_eq] at h
    funext n
    simp only [Registry.applyOp, Registry.register]
    split_ifs at h with hget <;> cases h
    · split_ifs with hn
      · obtain ⟨a, ha⟩ := Option.isSome_iff_exists.1 (hn ▸ hget)
        rw [ha, Option.or_some]
      · rfl
    · rw [HashMap.get_insert]
      split_ifs with hn
      · rw [hn, Option.not_isSome_iff_eq_none.1 hget, Option.none_or]
      · rfl

lemma run_get {db db' : AnalysisDatabase} {l : List (DbOp ContractAnalysis)}
    (h : AnalysisDatabase.run ops db l = some db') :
    db'.table.get = l.foldl (Registry.applyOp ops db.savedTable.get) db.table.get := by
  induction l generalizing db with
  | nil => cases h; rfl
  | cons op l ih =>
    obtain ⟨db₁, h₁, h⟩ := Option.bind_eq_some.1 h
    obtain ⟨t, h₂⟩ := applyOp_eq_some ops db op
    obtain rfl := Option.some.inj (h₂.symm.trans h₁)
    rw [ih h, applyOp_get h₂, List.foldl_cons]

/-- A session is its run of calls, which changes only the table the savepoint sees, and then its
end. -/
lemma session_eq_some {conn conn' : AnalysisDatabaseConnection} {l : List (DbOp ContractAnalysis)}
    {e : SessionEnd} (h : session ops conn l e = some conn') :
    ∃ t, AnalysisDatabase.run ops conn.beginSavePoint l =
        some ⟨t, conn.table, conn.committed, conn.openSavepoints⟩ ∧
      conn' = AnalysisDatabase.finish ⟨t, conn.table, conn.committed, conn.openSavepoints⟩ e := by
  obtain ⟨t, ht⟩ := run_eq_some ops conn.beginSavePoint l
  refine ⟨t, ht, ?_⟩
  unfold session at h
  rw [ht] at h
  exact (Option.some.inj h).symm

/-- The rows a session leaves the connection showing are the registry's after the session. -/
lemma session_get {conn conn' : AnalysisDatabaseConnection} {l : List (DbOp ContractAnalysis)}
    {e : SessionEnd} (h : session ops conn l e = some conn') :
    conn'.table.get = Registry.session ops conn.table.get l e := by
  obtain ⟨t, ht, rfl⟩ := session_eq_some h
  cases e with
  | commit =>
    show (AnalysisDatabase.commit _).table.get = _
    rw [commit_table]
    exact run_get ht
  | drop => rfl

/-- A dropped session leaves its savepoint open and commits nothing. -/
lemma session_drop {conn conn' : AnalysisDatabaseConnection} {l : List (DbOp ContractAnalysis)}
    (h : session ops conn l .drop = some conn') :
    conn'.openSavepoints = conn.openSavepoints + 1 ∧ conn'.committed = conn.committed := by
  obtain ⟨t, -, rfl⟩ := session_eq_some h
  exact ⟨rfl, rfl⟩

/-- A committed session leaves the savepoints below it open, and commits nothing while there is
one. -/
lemma session_commit {conn conn' : AnalysisDatabaseConnection} {l : List (DbOp ContractAnalysis)}
    (h : session ops conn l .commit = some conn') :
    conn'.openSavepoints = conn.openSavepoints ∧
      (conn.openSavepoints ≠ 0 → conn'.committed = conn.committed) := by
  obtain ⟨t, -, rfl⟩ := session_eq_some h
  obtain ⟨h₁, h₂⟩ := commit_open ⟨t, conn.table, conn.committed, conn.openSavepoints⟩
  exact ⟨h₁, fun h0 => h₂.trans (if_neg h0)⟩

variable (ops)

lemma session_isSome (conn : AnalysisDatabaseConnection) (l : List (DbOp ContractAnalysis))
    (e : SessionEnd) : ∃ conn', session ops conn l e = some conn' := by
  obtain ⟨t, ht⟩ := run_eq_some ops conn.beginSavePoint l
  exact ⟨_, congrArg (Option.map _) ht⟩

lemma sessions_isSome (conn : AnalysisDatabaseConnection)
    (ss : List (List (DbOp ContractAnalysis) × SessionEnd)) :
    ∃ conn', sessions ops conn ss = some conn' := by
  induction ss generalizing conn with
  | nil => exact ⟨conn, rfl⟩
  | cons s ss ih =>
    obtain ⟨conn₁, h₁⟩ := session_isSome ops conn s.1 s.2
    obtain ⟨conn', h'⟩ := ih conn₁
    exact ⟨conn', by simp only [sessions, h₁, Option.some_bind, h']⟩

variable {ops}

lemma sessions_cons {conn conn' : AnalysisDatabaseConnection} {l : List (DbOp ContractAnalysis)}
    {e : SessionEnd} {ss : List (List (DbOp ContractAnalysis) × SessionEnd)}
    (h : sessions ops conn ((l, e) :: ss) = some conn') :
    ∃ conn₁, session ops conn l e = some conn₁ ∧ sessions ops conn₁ ss = some conn' :=
  Option.bind_eq_some.1 h

/-- After any sequence of sessions the rows the connection shows are the registry's entries. -/
lemma sessions_get {conn conn' : AnalysisDatabaseConnection}
    {ss : List (List (DbOp ContractAnalysis) × SessionEnd)}
    (h : sessions ops conn ss = some conn') :
    conn'.table.get = Registry.sessions ops conn.table.get ss := by
  induction ss generalizing conn with
  | nil => cases h; rfl
  | cons s ss ih =>
    obtain ⟨conn₁, h₁, h⟩ := sessions_cons h
    rw [ih h, session_get h₁]
    rfl

/-- Once a savepoint is left open, it stays open and nothing more is committed. -/
lemma sessions_of_open {conn conn' : AnalysisDatabaseConnection}
    {ss : List (List (DbOp ContractAnalysis) × SessionEnd)} (h0 : conn.openSavepoints ≠ 0)
    (h : sessions ops conn ss = some conn') :
    conn'.openSavepoints ≠ 0 ∧ conn'.committed = conn.committed := by
  induction ss generalizing conn with
  | nil => cases h; exact ⟨h0, rfl⟩
  | cons s ss ih =>
    obtain ⟨l, e⟩ := s
    obtain ⟨conn₁, h₁, h⟩ := sessions_cons h
    have hstep : conn₁.openSavepoints ≠ 0 ∧ conn₁.committed = conn.committed := by
      cases e with
      | commit =>
        obtain ⟨hd, hc⟩ := session_commit h₁
        exact ⟨hd ▸ h0, hc h0⟩
      | drop =>
        obtain ⟨hd, hc⟩ := session_drop h₁
        exact ⟨hd ▸ Nat.succ_ne_zero _, hc⟩
    obtain ⟨hd', hc'⟩ := ih hstep.1 h
    exact ⟨hd', hc'.trans hstep.2⟩

/-- From a connection with no savepoint open, what is committed after any sequence of sessions is
the registry after the sessions before the first dropped one. -/
lemma sessions_committed {conn conn' : AnalysisDatabaseConnection}
    {ss : List (List (DbOp ContractAnalysis) × SessionEnd)} (h0 : conn.openSavepoints = 0)
    (h : sessions ops conn ss = some conn') :
    conn'.committed.get =
      Registry.sessions ops conn.table.get (ss.takeWhile fun s => s.2 == .commit) := by
  induction ss generalizing conn with
  | nil => cases h; rw [AnalysisDatabaseConnection.table_eq _ h0]; rfl
  | cons s ss ih =>
    obtain ⟨l, e⟩ := s
    obtain ⟨conn₁, h₁, h'⟩ := sessions_cons h
    cases e with
    | commit =>
      obtain ⟨hd, -⟩ := session_commit h₁
      rw [ih (hd.trans h0) h', session_get h₁]
      rfl
    | drop =>
      obtain ⟨hd, hc⟩ := session_drop h₁
      rw [(sessions_of_open (by omega) h').2, hc, AnalysisDatabaseConnection.table_eq _ h0]
      rfl

variable (ops)

/-- The savepoint database implements the registry: any sequence of sessions on a connection
with no savepoint open, each a `begin_save_point()`, `insert_contract` and `roll_back()` calls,
and `commit()` or a drop, returns, and the rows the connection shows are the registry's entries
after the same sessions.  So `insert_contract` registers a name at most once, `roll_back()`
returns to the registry of the savepoint, and a dropped session leaves no trace in what the
connection shows.  What is committed to the database is the registry after the sessions before
the first dropped one: a dropped session leaves its savepoint and transaction open, and the
commits of later sessions release only their own savepoints. -/
theorem sessions_refine (conn : AnalysisDatabaseConnection) (h_closed : conn.openSavepoints = 0)
    (ss : List (List (DbOp ContractAnalysis) × SessionEnd)) :
    ∃ conn', sessions ops conn ss = some conn' ∧
      conn'.table.get = Registry.sessions ops conn.table.get ss ∧
      conn'.committed.get =
        Registry.sessions ops conn.table.get (ss.takeWhile fun s => s.2 == .commit) := by
  obtain ⟨conn', h⟩ := sessions_isSome ops conn ss
  exact ⟨conn', h, sessions_get h, sessions_committed h_closed h⟩

/-- Analyses that are their own text, with no public function and no map. -/
def textOps : ContractAnalysisOps String Unit Unit :=
  ⟨id, id, fun _ _ => none, fun _ _ => none⟩

/-- A dropped session and then a committed one, on a fresh in-memory connection. -/
theorem sessions_refine_memory :
    AnalysisDatabaseConnection.memory.openSavepoints = 0 ∧
      ∃ conn', sessions textOps AnalysisDatabaseConnection.memory
          [([.insertContract "c" "a"], .drop), ([.insertContract "d" "b"], .commit)] = some conn' ∧
        conn'.table.get = Registry.sessions textOps AnalysisDatabaseConnection.memory.table.get
          [([.insertContract "c" "a"], .drop), ([.insertContract "d" "b"], .commit)] ∧
        conn'.committed.get = Registry.sessions textOps
          AnalysisDatabaseConnection.memory.table.get
          ([([.insertContract "c" "a"], .drop), ([.insertContract "d" "b"], .commit)].takeWhile
            fun s => s.2 == .commit) :=
  ⟨rfl, sessions_refine textOps _ rfl _⟩

/-- The commit after the dropped session is lost: the connection shows `d`, the database does not
hold it. -/
example : (sessions textOps AnalysisDatabaseConnection.memory
    [([.insertContract "c" "a"], .drop), ([.insertContract "d" "b"], .commit)]).map
      (fun conn => (conn.table.get "d", conn.committed.get "d")) = some (some "b", none) := rfl

/-- A second `insert_contract` of a name in a committed session leaves the first analysis. -/
example : (sessions textOps AnalysisDatabaseConnection.memory
    [([.insertContract "c" "a1", .insertContract "c" "a2"], .commit)]).map
      (fun conn => conn.table.get "c") = some (some "a1") := rfl

end StacksPrune
