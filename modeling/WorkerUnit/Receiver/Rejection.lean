import WorkerUnit.Receiver.InstanceDataParser

/-!
# What a rejected instance packet leaves behind

The version is registered, and the one before it dropped or marked, before any
SQL has succeeded, and `dropTable` undoes nothing of this. Whether an accepted packet
has a table depends on what SQLite makes of the statements, into which the packet's
texts are pasted.
-/

namespace WorkerUnit

namespace InstanceStore

variable {rc : SqliteCalls} {store : InstanceStore} {instanceName : Text} {rand : ℕ → ℕ}

theorem deleteInstanceModels_eq (db : SqliteDatabaseAccess) (discarded : List InstanceModel) :
    deleteInstanceModels rc db discarded =
      db.execAll rc (discarded.map fun m => .dropTable m.aliasName) := by
  rw [deleteInstanceModels, SqliteDatabaseAccess.execAll, List.foldl_map]
  rfl

/-- The new version is in no list that was there before. -/
theorem addInstance_ne (store : InstanceStore) (instanceName : Text) (rand : ℕ → ℕ) :
    (store.instanceList.addInstance instanceName rand).instanceList ≠
      store.instanceList.instanceList := by
  intro h
  have hmem : InstanceModel.new store.instanceList.allocated instanceName
      (newAlias instanceName rand) ∈
        (store.instanceList.addInstance instanceName rand).instanceList :=
    List.mem_append_right _ (List.mem_singleton_self _)
  rw [h] at hmem
  exact (store.instanceList.fresh _ hmem).ne rfl

end InstanceStore

/-- An error leaves the lists and the tables as they were; with a success the new
name has a table and an instance. -/
def InstanceStore.NoTrace (store store' : InstanceStore) (tableId : Text) : ReceiverStatus → Prop
  | .error => store'.instanceList.instanceList = store.instanceList.instanceList ∧
      store'.database.tables = store.database.tables ∧
      store'.globalInstanceList = store.globalInstanceList
  | .success => tableId ∈ store'.database.tables ∧
      ∃ inst ∈ store'.globalInstanceList, inst.instanceId = tableId

namespace InstanceDataParser

/-- The statements that the text makes of its rows from a place on. -/
def rowStatements (tableId : Text) (colHeaders : List Text) (columns : ℕ) :
    ℕ → Option Text → Option (List SqlStatement)
  | 0, _ => some []
  | _, none => some []
  | _, some [] => some []
  | fuel + 1, some (c :: rest) => do
    let (values, place) ← nextCells columns (some (c :: rest))
    let statements ← rowStatements tableId colHeaders columns fuel place
    return .insertInto tableId colHeaders values :: statements

/-- From call `k` on, a statement that is refused is passed once more. -/
def tries (rc : SqliteCalls) : ℕ → List SqlStatement → List SqlStatement
  | _, [] => []
  | k, s :: statements =>
    if rc k then s :: tries rc (k + 1) statements else s :: s :: tries rc (k + 2) statements

section Packet

variable (rc : SqliteCalls) (rand : ℕ → ℕ) (before : Char) (store : InstanceStore)

/-- The call that is to create the table comes after one for each version that is
deleted. -/
def createCall (instanceid : Text) : ℕ :=
  store.database.calls + (store.discarded instanceid).length

/-- What is passed to SQLite as long as it creates or verifies the table. -/
def passed (instanceid : Text) (colHeaders : List Text) (rows : List SqlStatement) :
    List SqlStatement :=
  ((store.discarded instanceid).map fun m => .dropTable m.aliasName) ++
    .createTable (newAlias instanceid rand) colHeaders ::
      if rc (createCall store instanceid) then tries rc (createCall store instanceid + 1) rows
      else .desc (newAlias instanceid rand) :: tries rc (createCall store instanceid + 2) rows

/-- The statements that are made of the packet's texts. -/
def statements (instanceid bodyData : Text) : Option (List SqlStatement) := do
  let columns ← countColumns before bodyData
  let (colHeaders, place) ← createSqlCmds columns bodyData
  let rows ← rowStatements (newAlias instanceid rand) colHeaders columns bodyData.length place
  return passed rc rand store instanceid colHeaders rows

/-- A field of the packet is missing; or SQLite accepts the `CREATE TABLE` or the `DESC`
after it, and what it makes of the packet's texts leaves a table of the new name. -/
def Clean (packet : InstanceDataPacket) : Prop :=
  ∀ instanceid bodyData algoType, packet = ⟨some instanceid, some bodyData, some algoType⟩ →
    (rc (createCall store instanceid) = true ∨ rc (createCall store instanceid + 1) = true) ∧
    ∃ texts, statements rc rand before store instanceid bodyData = some texts ∧
      newAlias instanceid rand ∈ (store.database.execAll rc texts).tables

/-- Every text of the packet is the one statement that it looks like. -/
def PlainPacket (packet : InstanceDataPacket) : Prop :=
  ∀ instanceid bodyData algoType, packet = ⟨some instanceid, some bodyData, some algoType⟩ →
    ∀ texts, statements rc rand before store instanceid bodyData = some texts →
      ∀ s ∈ texts, s.Plain

/-- A field of the packet is missing, or the table is created, or it was there before and
is verified, without being the table of a version that is deleted. -/
def CreatedOrFound (packet : InstanceDataPacket) : Prop :=
  ∀ instanceid bodyData algoType, packet = ⟨some instanceid, some bodyData, some algoType⟩ →
    rc (createCall store instanceid) = true ∨
    (rc (createCall store instanceid + 1) = true ∧
      newAlias instanceid rand ∈ store.database.tables ∧
      ∀ k m, (store.discarded instanceid)[k]? = some m → rc (store.database.calls + k) = true →
        ¬ SameTable m.aliasName (newAlias instanceid rand))

end Packet

variable {rc : SqliteCalls} {db db' : SqliteDatabaseAccess} {tableId : Text}
  {colHeaders : List Text} {columns rows rows' fuel : ℕ} {place : Option Text}

theorem insertRow_snd (s : SqlStatement) :
    (insertRow rc db s).2 = db.execAll rc (if rc db.calls then [s] else [s, s]) := by
  cases hrc : rc db.calls <;>
    simp [insertRow, SqliteDatabaseAccess.writeValue, SqliteDatabaseAccess.exec_fst,
      SqliteDatabaseAccess.execAll, hrc]

/-- The loop over the rows passes their statements. -/
theorem insertRows_eq_some
    (h : insertRows rc tableId colHeaders columns fuel db rows place = some (rows', db')) :
    ∃ statements, rowStatements tableId colHeaders columns fuel place = some statements ∧
      db' = db.execAll rc (tries rc db.calls statements) := by
  induction fuel generalizing db rows place with
  | zero =>
    cases h
    exact ⟨[], rfl, rfl⟩
  | succ fuel ih =>
    match place with
    | none =>
      cases h
      exact ⟨[], rfl, rfl⟩
    | some [] =>
      cases h
      exact ⟨[], rfl, rfl⟩
    | some (c :: rest) =>
      simp only [insertRows, Option.bind_eq_bind, Option.bind_eq_some_iff] at h
      obtain ⟨⟨values, next⟩, hcells, h⟩ := h
      obtain ⟨statements, hrows, hdb⟩ := ih h
      refine ⟨.insertInto tableId colHeaders values :: statements, ?_, ?_⟩
      · simp [rowStatements, hcells, hrows]
      · rw [insertRow_snd, SqliteDatabaseAccess.execAll_calls] at hdb
        rw [hdb, tries, ← SqliteDatabaseAccess.execAll_append]
        cases rc db.calls <;> simp

/-- When SQLite accepts the creation or the verification, the rows' statements follow. -/
theorem insertIntoTable_eq_some {data : Text} {result : Option ℕ}
    (h : insertIntoTable rc db tableId colHeaders columns data place = some (result, db')) :
    (result = none ∧ ¬ (rc db.calls = true ∨ rc (db.calls + 1) = true)) ∨
    (result ≠ none ∧ (rc db.calls = true ∨ rc (db.calls + 1) = true) ∧
      ∃ rows, rowStatements tableId colHeaders columns data.length place = some rows ∧
        db' = db.execAll rc (.createTable tableId colHeaders ::
          if rc db.calls then tries rc (db.calls + 1) rows
          else .desc tableId :: tries rc (db.calls + 2) rows)) := by
  simp only [insertIntoTable, SqliteDatabaseAccess.writeValue, SqliteDatabaseAccess.readValue,
    SqliteDatabaseAccess.exec_fst] at h
  cases hcreate : rc db.calls with
  | true =>
    simp only [hcreate, if_true, Option.map_eq_some_iff] at h
    obtain ⟨⟨rows, db₂⟩, hrows, heq⟩ := h
    cases heq
    obtain ⟨statements, hstatements, hdb⟩ := insertRows_eq_some hrows
    rw [SqliteDatabaseAccess.exec_calls] at hdb
    exact .inr ⟨Option.some_ne_none _, .inl rfl, statements, hstatements, hdb⟩
  | false =>
    simp only [hcreate, Bool.false_eq_true, if_false, SqliteDatabaseAccess.exec_fst,
      SqliteDatabaseAccess.exec_calls] at h
    split_ifs at h with hdesc
    · obtain ⟨⟨rows, db₂⟩, hrows, heq⟩ := Option.map_eq_some_iff.mp h
      cases heq
      obtain ⟨statements, hstatements, hdb⟩ := insertRows_eq_some hrows
      rw [SqliteDatabaseAccess.exec_calls, SqliteDatabaseAccess.exec_calls] at hdb
      exact .inr ⟨Option.some_ne_none _, .inr hdesc, statements, hstatements, hdb⟩
    · cases h
      exact .inl ⟨rfl, by simpa using hdesc⟩

section Plain

/-- Statements that change no table. -/
theorem execAll_tables_eq {statements : List SqlStatement}
    (h : ∀ s ∈ statements, ∀ tables, rc.effect s tables = tables) (db : SqliteDatabaseAccess) :
    (db.execAll rc statements).tables = db.tables := by
  induction statements generalizing db with
  | nil => rfl
  | cons s statements ih =>
    rw [SqliteDatabaseAccess.execAll, List.foldl_cons, ← SqliteDatabaseAccess.execAll,
      ih fun s hs => h s (List.mem_cons_of_mem _ hs)]
    unfold SqliteDatabaseAccess.exec
    split_ifs
    · exact h s (List.mem_cons_self ..) _
    · rfl

theorem mem_of_mem_tries {s : SqlStatement} {statements : List SqlStatement} {k : ℕ}
    (h : s ∈ tries rc k statements) : s ∈ statements := by
  induction statements generalizing k with
  | nil => exact h
  | cons first statements ih =>
    rw [tries] at h
    split_ifs at h
    · rcases List.mem_cons.mp h with rfl | h
      · exact List.mem_cons_self ..
      · exact List.mem_cons_of_mem _ (ih h)
    · rcases List.mem_cons.mp h with rfl | h
      · exact List.mem_cons_self ..
      · rcases List.mem_cons.mp h with rfl | h
        · exact List.mem_cons_self ..
        · exact List.mem_cons_of_mem _ (ih h)

/-- The statements of the rows are insertions. -/
theorem mem_rowStatements {statements : List SqlStatement}
    (h : rowStatements tableId colHeaders columns fuel place = some statements) :
    ∀ s ∈ statements, ∃ values, s = .insertInto tableId colHeaders values := by
  induction fuel generalizing place statements with
  | zero =>
    cases h
    simp
  | succ fuel ih =>
    match place with
    | none =>
      cases h
      simp
    | some [] =>
      cases h
      simp
    | some (c :: rest) =>
      simp only [rowStatements, Option.bind_eq_bind, Option.bind_eq_some_iff] at h
      obtain ⟨⟨values, next⟩, _, behind, hbehind, heq⟩ := h
      cases heq
      intro s hs
      rcases List.mem_cons.mp hs with rfl | hs
      · exact ⟨values, rfl⟩
      · exact ih hbehind s hs

/-- Insertions of plain rows change no table. -/
theorem execAll_tries (hrc : rc.Documented) {statements : List SqlStatement}
    (hrows : rowStatements tableId colHeaders columns fuel place = some statements) {k : ℕ}
    (hplain : ∀ s ∈ tries rc k statements, s.Plain) (db : SqliteDatabaseAccess) :
    (db.execAll rc (tries rc k statements)).tables = db.tables := by
  apply execAll_tables_eq
  intro s hs tables
  obtain ⟨values, rfl⟩ := mem_rowStatements hrows s (mem_of_mem_tries hs)
  exact hrc.insertInto _ _ _ _ (hplain _ hs)

/-- A table is still there when no call that dropped it succeeded. -/
theorem mem_execAll_dropTable (hrc : rc.Documented) {name : Text} (hname : PlainName name)
    {discarded : List InstanceModel} (hplain : ∀ m ∈ discarded, PlainName m.aliasName)
    (db : SqliteDatabaseAccess) :
    name ∈ (db.execAll rc (discarded.map fun m => .dropTable m.aliasName)).tables ↔
      name ∈ db.tables ∧ ∀ k m, discarded[k]? = some m → rc (db.calls + k) = true →
        ¬ SameTable m.aliasName name := by
  induction discarded generalizing db with
  | nil => simp [SqliteDatabaseAccess.execAll]
  | cons m discarded ih =>
    have hfirst : name ∈ (db.exec rc (.dropTable m.aliasName)).2.tables ↔
        name ∈ db.tables ∧ (rc db.calls = true → ¬ SameTable m.aliasName name) := by
      have hdrop := hrc.dropTable m.aliasName name db.tables (hplain m (List.mem_cons_self ..))
        hname
      cases hok : rc db.calls <;> simp [SqliteDatabaseAccess.exec, hok, hdrop]
    rw [List.map_cons, SqliteDatabaseAccess.execAll, List.foldl_cons,
      ← SqliteDatabaseAccess.execAll, ih fun m hm => hplain m (List.mem_cons_of_mem _ hm), hfirst,
      SqliteDatabaseAccess.exec_calls, and_assoc]
    refine and_congr_right fun _ => ⟨?_, ?_⟩
    · rintro ⟨hhead, htail⟩ k x hx hk
      cases k with
      | zero =>
        cases hx
        exact hhead hk
      | succ k =>
        apply htail k x hx
        rw [← hk]
        congr 1
        omega
    · intro h
      refine ⟨h 0 m rfl, fun k x hx hk => h (k + 1) x hx ?_⟩
      rw [← hk]
      congr 1
      omega

end Plain

variable {rand : ℕ → ℕ} {before : Char} {store store' : InstanceStore}
  {instanceid bodyData tableID : Text} {packet : InstanceDataPacket} {status : ReceiverStatus}

/-- The discarded versions are deleted first. -/
theorem addInstance_database (store : InstanceStore) (instanceid : Text) (rand : ℕ → ℕ) :
    (store.addInstance rc instanceid rand).2.database =
        store.database.execAll rc
          ((store.discarded instanceid).map fun m => .dropTable m.aliasName) ∧
      (store.addInstance rc instanceid rand).2.database.calls = createCall store instanceid := by
  have hdatabase : (store.addInstance rc instanceid rand).2.database =
      store.database.execAll rc
        ((store.discarded instanceid).map fun m => .dropTable m.aliasName) :=
    InstanceStore.deleteInstanceModels_eq _ _
  refine ⟨hdatabase, ?_⟩
  rw [hdatabase, SqliteDatabaseAccess.execAll_calls, List.length_map]
  rfl

/-- A call that returns has been refused twice, or its database is what SQLite makes of the
packet's statements. -/
theorem processInstancePacket_statements {algoType : ℤ}
    (h : processInstancePacket rc rand before store
      ⟨some instanceid, some bodyData, some algoType⟩ tableID = some (status, tableId, store')) :
    tableId = newAlias instanceid rand ∧
      store'.instanceList = store.instanceList.addInstance instanceid rand ∧
      ((status = .error ∧ ¬ (rc (createCall store instanceid) = true ∨
          rc (createCall store instanceid + 1) = true)) ∨
        (status = .success ∧ (rc (createCall store instanceid) = true ∨
            rc (createCall store instanceid + 1) = true) ∧
          (∃ inst ∈ store'.globalInstanceList, inst.instanceId = tableId) ∧
          ∃ columns colHeaders fuel place rows,
            rowStatements tableId colHeaders columns fuel place = some rows ∧
            statements rc rand before store instanceid bodyData =
              some (passed rc rand store instanceid colHeaders rows) ∧
            store'.database =
              store.database.execAll rc (passed rc rand store instanceid colHeaders rows))) := by
  obtain ⟨columns, colHeaders, place, result, db, hcolumns, hheader, hinsert, rfl, hlist, hend⟩ :=
    processInstancePacket_eq_some h
  obtain ⟨hdatabase, hcalls⟩ := @addInstance_database rc store instanceid rand
  refine ⟨rfl, hlist, ?_⟩
  have hinserted := insertIntoTable_eq_some hinsert
  rw [hcalls] at hinserted
  rcases hend with ⟨rfl, rfl⟩ | ⟨hresult, rfl, rfl, hinst⟩
  · refine .inl ⟨rfl, ?_⟩
    rcases hinserted with ⟨_, hrefused⟩ | ⟨hne, _⟩
    · exact hrefused
    · exact absurd rfl hne
  · rcases hinserted with ⟨hnone, _⟩ | ⟨_, haccepted, rows, hrows, hdb⟩
    · exact absurd hnone hresult
    refine .inr ⟨rfl, haccepted, hinst, columns, colHeaders, bodyData.length, place, rows, hrows,
      ?_, ?_⟩
    · simp [statements, hcolumns, hheader, hrows]
    · rw [hdb, hdatabase, ← SqliteDatabaseAccess.execAll_append]
      rfl

/-- What SQLite makes of plain statements. -/
theorem mem_execAll_passed (hrc : rc.Documented) {rows : List SqlStatement}
    (hrows : rowStatements (newAlias instanceid rand) colHeaders columns fuel place = some rows)
    (hplain : ∀ s ∈ passed rc rand store instanceid colHeaders rows, s.Plain)
    (haccepted : rc (createCall store instanceid) = true ∨
      rc (createCall store instanceid + 1) = true) :
    newAlias instanceid rand ∈ (store.database.execAll rc
        (passed rc rand store instanceid colHeaders rows)).tables ↔
      rc (createCall store instanceid) = true ∨
      (rc (createCall store instanceid + 1) = true ∧
        newAlias instanceid rand ∈ store.database.tables ∧
        ∀ k m, (store.discarded instanceid)[k]? = some m → rc (store.database.calls + k) = true →
          ¬ SameTable m.aliasName (newAlias instanceid rand)) := by
  obtain ⟨hdrops, hcreate, hrest⟩ : (∀ m ∈ store.discarded instanceid, PlainName m.aliasName) ∧
      (SqlStatement.createTable (newAlias instanceid rand) colHeaders).Plain ∧
      ∀ s ∈ (if rc (createCall store instanceid) then
          tries rc (createCall store instanceid + 1) rows
        else .desc (newAlias instanceid rand) ::
          tries rc (createCall store instanceid + 2) rows), s.Plain := by
    simp only [passed, List.forall_mem_append, List.forall_mem_map, List.forall_mem_cons] at hplain
    exact hplain
  have hcalls : (store.database.execAll rc
      ((store.discarded instanceid).map fun m => .dropTable m.aliasName)).calls =
        createCall store instanceid := by
    rw [SqliteDatabaseAccess.execAll_calls, List.length_map]
    rfl
  have hmem := mem_execAll_dropTable hrc hcreate.1 hdrops store.database
  rw [passed, SqliteDatabaseAccess.execAll_append, SqliteDatabaseAccess.execAll, List.foldl_cons,
    ← SqliteDatabaseAccess.execAll, ← hmem]
  generalize store.database.execAll rc _ = db at hcalls
  rw [← hcalls] at hrest haccepted ⊢
  cases hok : rc db.calls with
  | true =>
    simp only [hok, if_true] at hrest ⊢
    rw [execAll_tries hrc hrows hrest]
    simp only [SqliteDatabaseAccess.exec, hok, if_true, true_or, iff_true]
    exact hrc.createTable _ _ _ hcreate
  | false =>
    have hdesc : rc (db.calls + 1) = true := by simpa [hok] using haccepted
    simp only [hok, Bool.false_eq_true, if_false, List.forall_mem_cons] at hrest ⊢
    rw [SqliteDatabaseAccess.execAll, List.foldl_cons, ← SqliteDatabaseAccess.execAll,
      execAll_tries hrc hrows hrest.2]
    simp only [SqliteDatabaseAccess.exec, hok, hdesc, Bool.false_eq_true, if_false, if_true,
      hrc.desc _ _ hcreate.1, false_or, true_and]

/-- Every call that returns keeps the promise exactly when a field was missing, or SQLite
accepts the creation or the verification and what it makes of the packet's texts leaves a
table of the new name. With plain texts this means that the table is created, or was there
and is verified. -/
theorem noTrace_iff_clean
    (h : processInstancePacket rc rand before store packet tableID =
      some (status, tableId, store')) :
    (store.NoTrace store' tableId status ↔ Clean rc rand before store packet) ∧
      (rc.Documented → PlainPacket rc rand before store packet →
        (Clean rc rand before store packet ↔ CreatedOrFound rc rand store packet)) := by
  by_cases hfields : ∃ instanceid bodyData algoType,
      packet = ⟨some instanceid, some bodyData, some algoType⟩
  · obtain ⟨instanceid, bodyData, algoType, rfl⟩ := hfields
    obtain ⟨rfl, hlist, ⟨rfl, hrefused⟩ | ⟨rfl, haccepted, hinst, columns, colHeaders, fuel, place,
      rows, hrows, htexts, hdatabase⟩⟩ := processInstancePacket_statements h
    · have hunclean : ¬ Clean rc rand before store
          ⟨some instanceid, some bodyData, some algoType⟩ := fun hclean =>
        hrefused (hclean _ _ _ rfl).1
      refine ⟨iff_of_false (fun htrace => ?_) hunclean, fun _ _ => iff_of_false hunclean ?_⟩
      · apply store.addInstance_ne instanceid rand
        rw [← hlist]
        exact htrace.1
      · intro hmade
        exact hrefused ((hmade _ _ _ rfl).imp_right And.left)
    · have hclean : Clean rc rand before store ⟨some instanceid, some bodyData, some algoType⟩ ↔
          newAlias instanceid rand ∈ (store.database.execAll rc
            (passed rc rand store instanceid colHeaders rows)).tables := by
        constructor
        · intro hclean
          obtain ⟨_, texts, htexts', hmem⟩ := hclean _ _ _ rfl
          cases htexts.symm.trans htexts'
          exact hmem
        · rintro hmem _ _ _ heq
          cases heq
          exact ⟨haccepted, _, htexts, hmem⟩
      refine ⟨?_, fun hrc hplain => ?_⟩
      · rw [hclean, ← hdatabase]
        exact and_iff_left hinst
      · rw [hclean, mem_execAll_passed hrc hrows (hplain _ _ _ rfl _ htexts) haccepted]
        constructor
        · rintro hmade _ _ _ heq
          cases heq
          exact hmade
        · intro hmade
          exact hmade _ _ _ rfl
  · have hmissing : ∀ instanceid bodyData algoType,
        packet ≠ ⟨some instanceid, some bodyData, some algoType⟩ :=
      fun instanceid bodyData algoType heq => hfields ⟨_, _, _, heq⟩
    have hclean : Clean rc rand before store packet := fun _ _ _ heq =>
      absurd heq (hmissing _ _ _)
    rw [processInstancePacket_of_missing hfields] at h
    cases h
    exact ⟨iff_of_true ⟨rfl, rfl, rfl⟩ hclean,
      fun _ _ => iff_of_true hclean fun _ _ _ heq => absurd heq (hmissing _ _ _)⟩

/-- No version, no table and no instance. -/
def emptyStore : InstanceStore := ⟨.init, ⟨∅, 0⟩, []⟩

theorem noTrace_accepted :
    ∃ tableId store', processInstancePacket (.plain fun _ => true) (fun _ => 0) '\x00' emptyStore
      ⟨some ['a'], some "x\n1\n".toList, some 0⟩ [] = some (.success, tableId, store') ∧
      emptyStore.NoTrace store' tableId .success := by
  obtain ⟨tableId, store', h⟩ : ∃ tableId store', processInstancePacket (.plain fun _ => true)
      (fun _ => 0) '\x00' emptyStore ⟨some ['a'], some "x\n1\n".toList, some 0⟩ [] =
        some (.success, tableId, store') := ⟨_, _, rfl⟩
  have hplain : PlainPacket (.plain fun _ => true) (fun _ => 0) '\x00' emptyStore
      ⟨some ['a'], some "x\n1\n".toList, some 0⟩ := by
    rintro _ _ _ heq texts htexts
    cases heq
    cases htexts
    decide
  have hmade : CreatedOrFound (.plain fun _ => true) (fun _ => 0) emptyStore
      ⟨some ['a'], some "x\n1\n".toList, some 0⟩ := by
    rintro _ _ _ heq
    cases heq
    exact .inl rfl
  obtain ⟨hiff, hdocumented⟩ := noTrace_iff_clean h
  have hclean := hdocumented (SqliteCalls.documented_plain _) hplain
  exact ⟨tableId, store', h, hiff.mpr (hclean.mpr hmade)⟩

/-- A header that names a column twice: no statement succeeds. -/
theorem not_noTrace_rejected :
    ∃ tableId store', processInstancePacket (.plain fun _ => false) (fun _ => 0) '\x00' emptyStore
      ⟨some ['a'], some "x,x\n".toList, some 0⟩ [] = some (.error, tableId, store') ∧
      ¬ emptyStore.NoTrace store' tableId .error := by
  refine ⟨_, _, rfl, fun htrace => ?_⟩
  exact absurd htrace.1 (by decide)

end InstanceDataParser

end WorkerUnit
