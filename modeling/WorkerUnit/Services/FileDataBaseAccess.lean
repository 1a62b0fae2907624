import WorkerUnit.Include.Text
import WorkerUnit.Library.CircularList
import WorkerUnit.Library.FirstOccurrences
import WorkerUnit.Library.Records

/-!
# Flat files

`services/file_database_access.cpp`. The disk maps file names to contents. A
handle reads the whole file when it is constructed and keeps its lines in
memory; only `commitChanges`, which the destructor calls, writes to the disk. A
result `none` stands for an access past the end of a container.
-/

namespace WorkerUnit

open Records

abbrev Disk := Text → Option Text

inductive FileAccessType where
  | readFile | rwFile
  deriving DecidableEq, Repr

/-- The error codes of `FileAccessErrors` that the model uses. -/
def accessDenied : ℤ := -1
def invalidAccessMode : ℤ := -2
def duplicateCleanupDone : ℤ := -3
def rowIndexOverflow : ℤ := -4
def columnIndexOverflow : ℤ := -5
def rowIndexUnderflow : ℤ := -6
def columnIndexUnderflow : ℤ := -7

/-- An `int` that is compared with a container's size is converted to `size_t`. -/
def toSizeT (i : ℤ) : ℕ := if i < 0 then (2 ^ 64 + i).toNat else i.toNat

theorem toSizeT_of_nonneg {i : ℤ} (h : 0 ≤ i) : toSizeT i = i.toNat := if_neg h.not_gt

@[simp] theorem toSizeT_natCast (i : ℕ) : toSizeT i = i := by
  rw [toSizeT_of_nonneg (by omega), Int.toNat_natCast]

/-- A negative `int` is larger than any number of rows. -/
theorem lt_toSizeT_of_neg {i : ℤ} {n : ℕ} (hneg : i < 0) (hint : -2 ^ 31 ≤ i)
    (hn : n ≤ 2 ^ 63) : n < toSizeT i := by
  rw [toSizeT, if_pos hneg]
  omega

/-- `adv_tokenizer`. -/
def advTokenizer (s : Text) (del : Char) : List Text := s.splitOn del

/-- `split_string_by_newline`, and the loop that reads a file. -/
def splitStringByNewline (s : Text) : List Text := records '\n' s

structure FileDataBaseAccess where
  accessMode : FileAccessType
  readWriteData : List Text
  readData : List Text
  fileName : Text
  dataModified : Bool
  fileDeleted : Bool
  deriving DecidableEq

/-- The path of the file behind a table; the stream takes the name as a C string. -/
def csvName (fileName : Text) : Text := cStr (fileName ++ ['.', 'c', 's', 'v'])

/-- The lines of a table's file. -/
def fileLines (disk : Disk) (tableID : Text) : List Text :=
  splitStringByNewline ((disk (csvName tableID)).getD [])

def cellOnDisk (disk : Disk) (tableID : Text) (row column : ℕ) : Option Text :=
  (fileLines disk tableID)[row]?.bind fun line => (advTokenizer line ',')[column]?

/-- A disk with the file of one table. -/
def diskOf (tableID : Text) (lines : List Text) : Disk :=
  Function.update (fun _ => none) (csvName tableID) (some (unrecords '\n' lines))

namespace FileDataBaseAccess

/-- The constructor. The stream opens no missing file for writing, since it adds
the mode `in` to every mode it is given. -/
def openFile (disk : Disk) (fileName : Text) (accessMacro : FileAccessType) :
    FileDataBaseAccess :=
  let lines := fileLines disk fileName
  match accessMacro with
  | .readFile => ⟨.readFile, [], lines, csvName fileName, false, false⟩
  | .rwFile => ⟨.rwFile, lines, [], csvName fileName, false, false⟩

def writeBlob (f : FileDataBaseAccess) (data : Text) : ℤ × FileDataBaseAccess :=
  if f.fileDeleted then (accessDenied, f)
  else if f.accessMode = .readFile then (invalidAccessMode, f)
  else (0, { f with readWriteData := splitStringByNewline data, dataModified := true })

def getBlob (f : FileDataBaseAccess) : Text :=
  if f.fileDeleted then []
  else if f.accessMode = .readFile then unrecords '\n' f.readData
  else unrecords '\n' f.readWriteData

def getTotalRows (f : FileDataBaseAccess) : ℤ :=
  if f.fileDeleted then -1
  else if f.accessMode = .readFile then f.readData.length
  else f.readWriteData.length

def getTotalColumns (f : FileDataBaseAccess) : Option ℤ :=
  if f.fileDeleted then some accessDenied
  else
    let data := if f.accessMode = .readFile then f.readData.head? else f.readWriteData.head?
    data.map fun data => (data.count ',' : ℤ) + 1

/-- A row past the end is an access violation in read mode, and reads as an
empty line in read/write mode. -/
def getRowValueList (f : FileDataBaseAccess) (rowIndex : ℤ) : Option (List Text) :=
  if f.fileDeleted then some []
  else if rowIndex < 0 then some []
  else
    let data := if f.accessMode = .readFile then f.readData[rowIndex.toNat]?
      else some ((f.readWriteData[rowIndex.toNat]?).getD [])
    data.map fun data => advTokenizer data ','

def getColumnNamesList (f : FileDataBaseAccess) : Option (List Text) :=
  if f.fileDeleted then some []
  else
    let data := if f.accessMode = .readFile then f.readData.head? else f.readWriteData.head?
    data.map fun data => advTokenizer data ','

/-- The checks look at the rows of a read/write handle, in either mode. -/
def getRowValue (f : FileDataBaseAccess) (rowIndex columnIndex : ℤ) : Option Text :=
  if f.fileDeleted then some []
  else if toSizeT rowIndex > f.readWriteData.length then some []
  else f.getTotalColumns.bind fun totalColumns =>
    if columnIndex > totalColumns then some []
    else if rowIndex < 0 then some []
    else if columnIndex < 0 then some []
    else
      let data := if f.accessMode = .readFile then f.readData[rowIndex.toNat]?
        else some ((f.readWriteData[rowIndex.toNat]?).getD [])
      data.bind fun data => (advTokenizer data ',')[columnIndex.toNat]?

/-- The new row replaces the old one in memory; `dataModified` stays as it is. -/
def writeRowValueList (f : FileDataBaseAccess) (valueList : List Text) (rowIndex : ℤ) :
    Option (ℤ × FileDataBaseAccess) :=
  if f.fileDeleted then some (accessDenied, f)
  else if f.accessMode = .readFile then some (invalidAccessMode, f)
  else if toSizeT rowIndex > f.readWriteData.length then some (rowIndexOverflow, f)
  else if rowIndex < 0 then some (rowIndexUnderflow, f)
  else match valueList with
    | [] => none
    | value :: values =>
      let rowString := value ++ values.flatMap fun v => ',' :: v
      if rowIndex.toNat < f.readWriteData.length then
        some (0, { f with readWriteData := f.readWriteData.set rowIndex.toNat rowString })
      else none

/-- `regexReplace` stands for `std::regex_replace`, `none` when it throws. The
new row is inserted at the iterator that `erase` has invalidated: `reinsert` is
what becomes of the rows then, `none` when the program breaks off. -/
def writeRowValue (regexReplace : Text → Text → Text → Option Text)
    (reinsert : List Text → ℕ → Text → Option (List Text)) (f : FileDataBaseAccess)
    (value : Text) (rowIndex columnIndex : ℤ) : Option (ℤ × FileDataBaseAccess) :=
  if f.fileDeleted then some (accessDenied, f)
  else if f.accessMode = .readFile then some (invalidAccessMode, f)
  else if toSizeT rowIndex > f.readWriteData.length then some (rowIndexOverflow, f)
  else f.getTotalColumns.bind fun totalColumns =>
    if columnIndex > totalColumns then some (columnIndexOverflow, f)
    else if rowIndex < 0 then some (rowIndexUnderflow, f)
    else if columnIndex < 0 then some (columnIndexUnderflow, f)
    else
      let data := (f.readWriteData[rowIndex.toNat]?).getD []
      (advTokenizer data ',')[columnIndex.toNat]?.bind fun feild =>
        (regexReplace data feild value).bind fun data =>
          if rowIndex.toNat < f.readWriteData.length then
            (reinsert f.readWriteData rowIndex.toNat data).map fun rows =>
              (0, { f with readWriteData := rows, dataModified := true })
          else none

/-- One round of the loop of `deleteDuplicateRecords`: a copy of the row is erased by
`erase(iteratorString--)`, another row stays. -/
def duplicateRound (compareString : Text) :
    CircularList.Cursor Text → Option (Bool × CircularList.Cursor Text) :=
  CircularList.visitRound fun row => if row = compareString then none else some row

/-- The later copies of a row are erased. -/
def deleteDuplicateRecords (f : FileDataBaseAccess) (rowIndex : ℤ) : ℤ × FileDataBaseAccess :=
  if f.fileDeleted then (accessDenied, f)
  else if f.accessMode = .readFile then (invalidAccessMode, f)
  else if f.readWriteData.length ≤ toSizeT rowIndex then (duplicateCleanupDone, f)
  else if rowIndex < 0 then (rowIndexUnderflow, f)
  else match f.readWriteData.drop rowIndex.toNat with
    | [] => (0, f)
    | compareString :: later =>
      (0, { f with
        readWriteData := f.readWriteData.take rowIndex.toNat ++
          compareString :: later.filter (· ≠ compareString)
        dataModified := f.dataModified || later.any (· = compareString) })

def commitChanges (f : FileDataBaseAccess) (disk : Disk) : Disk :=
  if f.accessMode = .rwFile ∧ f.dataModified then
    Function.update disk f.fileName (some (unrecords '\n' f.readWriteData))
  else disk

/-- The destructor. -/
def closeFile (f : FileDataBaseAccess) (disk : Disk) : Disk :=
  if f.fileDeleted then disk else f.commitChanges disk

variable {f g : FileDataBaseAccess} {disk : Disk}

theorem length_advTokenizer (s : Text) (del : Char) :
    (advTokenizer s del).length = s.count del + 1 := by
  induction s with
  | nil => rfl
  | cons c s ih =>
    rw [advTokenizer] at ih ⊢
    rw [List.splitOn_cons_eq_if_modifyHead, List.count_cons]
    split_ifs with hc <;> simp [ih]

/-- A handle without changes leaves the disk alone. -/
theorem closeFile_of_not_modified (h : f.dataModified = false) : f.closeFile disk = disk := by
  simp [closeFile, commitChanges, h]

@[simp] theorem openFile_dataModified (fileName : Text) (accessMacro : FileAccessType) :
    (openFile disk fileName accessMacro).dataModified = false := by
  cases accessMacro <;> rfl

/-- A read handle gives the cells of the lines it has read. -/
theorem getRowValueList_readFile (disk : Disk) (tableID : Text) (r : ℕ) :
    (openFile disk tableID .readFile).getRowValueList r =
      (fileLines disk tableID)[r]?.map fun line => advTokenizer line ',' := by
  simp [getRowValueList, openFile]

/-- A row written by `writeRowValueList` replaces its line in memory and nothing
else: the handle is not marked for the commit. -/
theorem writeRowValueList_frame {valueList : List Text} {rowIndex rc : ℤ}
    (h : f.writeRowValueList valueList rowIndex = some (rc, g)) :
    ∃ data, g = { f with readWriteData := data } ∧ data.length = f.readWriteData.length ∧
      ∀ r : ℕ, (r : ℤ) ≠ rowIndex → data[r]? = f.readWriteData[r]? := by
  have hsame : f = g → ∃ data, g = { f with readWriteData := data } ∧
      data.length = f.readWriteData.length ∧
      ∀ r : ℕ, (r : ℤ) ≠ rowIndex → data[r]? = f.readWriteData[r]? :=
    fun hfg => ⟨f.readWriteData, hfg ▸ rfl, rfl, fun _ _ => rfl⟩
  cases valueList with
  | nil =>
    unfold writeRowValueList at h
    split_ifs at h <;> exact hsame (by cases h; rfl)
  | cons value values =>
    unfold writeRowValueList at h
    dsimp only at h
    split_ifs at h with hdeleted hmode hover hunder hin
    · exact hsame (by cases h; rfl)
    · exact hsame (by cases h; rfl)
    · exact hsame (by cases h; rfl)
    · exact hsame (by cases h; rfl)
    · cases h
      refine ⟨_, rfl, List.length_set, ?_⟩
      intro r hr
      apply List.getElem?_set_ne
      omega

/-- The lines of a text that is written and committed are those of the text. -/
theorem fileLines_writeBlob (tableID data : Text) :
    fileLines (((openFile disk tableID .rwFile).writeBlob data).2.closeFile disk) tableID =
      splitStringByNewline data := by
  have hdisk : ((openFile disk tableID .rwFile).writeBlob data).2.closeFile disk =
      Function.update disk (csvName tableID)
        (some (unrecords '\n' (splitStringByNewline data))) := by
    simp [openFile, writeBlob, closeFile, commitChanges]
  rw [hdisk, fileLines, Function.update_self, Option.getD_some, splitStringByNewline,
    splitStringByNewline, records_unrecords_records]

/-- A read/write handle that has not been deleted. -/
def Writable (f : FileDataBaseAccess) : Prop := f.accessMode = .rwFile ∧ f.fileDeleted = false

theorem writable_openFile (tableID : Text) : (openFile disk tableID .rwFile).Writable :=
  ⟨rfl, rfl⟩

theorem getRowValueList_of_writable (hf : f.Writable) (r : ℕ) :
    f.getRowValueList r = some (advTokenizer (f.readWriteData[r]?.getD []) ',') := by
  simp [getRowValueList, hf.1, hf.2]

theorem writeRowValueList_isSome (hf : f.Writable) {valueList : List Text}
    (hvalues : valueList ≠ []) {r : ℕ} (hr : r < f.readWriteData.length) :
    ∃ g, f.writeRowValueList valueList r = some (0, g) := by
  obtain ⟨value, values, rfl⟩ := List.exists_cons_of_ne_nil hvalues
  have hunder : ¬ (r : ℤ) < 0 := by omega
  simp [writeRowValueList, hf.1, hf.2, hr.not_gt, hunder, hr]

theorem deleteDuplicateRecords_done (hf : f.Writable) {k : ℕ} (hk : f.readWriteData.length ≤ k) :
    f.deleteDuplicateRecords k = (duplicateCleanupDone, f) := by
  simp [deleteDuplicateRecords, hf.1, hf.2, hk]

/-- The copies of a row behind it are erased. -/
theorem deleteDuplicateRecords_row (hf : f.Writable) {front later : List Text} {line : Text}
    (hdata : f.readWriteData = front ++ line :: later) :
    f.deleteDuplicateRecords front.length =
      (0, { f with
        readWriteData := front ++ line :: later.filter (· ≠ line)
        dataModified := f.dataModified || later.any (· = line) }) := by
  have hunder : ¬ (front.length : ℤ) < 0 := by omega
  simp [deleteDuplicateRecords, hf.1, hf.2, hunder, hdata]

/-- The loop over the rows behind the first copy ends with the rows that are kept, having
been at each of them once, and sets the flag when it was at a copy. -/
theorem deleteDuplicateRecords_loop (hf : f.Writable) {front later : List Text} {line : Text}
    (hdata : f.readWriteData = front ++ line :: later) :
    Loop.Ends (duplicateRound line) id
        ⟨f.readWriteData, CircularList.next f.readWriteData.length (some front.length), []⟩
        ⟨(f.deleteDuplicateRecords front.length).2.readWriteData, none, later⟩ ∧
      (f.deleteDuplicateRecords front.length).2.dataModified =
        (f.dataModified || later.any (· = line)) := by
  have hkept : later.filterMap (fun row => if row = line then none else some row) =
      later.filter (· ≠ line) := by
    rw [← List.filterMap_eq_filter]
    congr 1
    funext row
    by_cases hrow : row = line <;> simp [Option.guard, hrow]
  have hends := CircularList.ends_from
    (f := fun row => if row = line then none else some row) (front ++ [line]) later []
  rw [deleteDuplicateRecords_row hf hdata, hdata]
  simp only [List.append_assoc, List.singleton_append, List.nil_append, hkept,
    List.length_append, List.length_singleton] at hends
  exact ⟨by simpa [duplicateRound, CircularList.next] using hends, rfl⟩

/-- A row of the list, with what is in front of it and behind it. -/
theorem exists_split_at {rows : List Text} {k : ℕ} (hk : k < rows.length) :
    ∃ front line later, rows = front ++ line :: later ∧ front.length = k := by
  refine ⟨rows.take k, rows[k], rows.drop (k + 1), ?_, ?_⟩
  · rw [← List.drop_eq_getElem_cons hk, List.take_append_drop]
  · rw [List.length_take, min_eq_left hk.le]

/-- Nothing is erased from lines that are all different. -/
theorem deleteDuplicateRecords_of_nodup (hf : f.Writable) (hnodup : f.readWriteData.Nodup) (k : ℕ) :
    (f.deleteDuplicateRecords k).2 = f := by
  by_cases hk : f.readWriteData.length ≤ k
  · rw [deleteDuplicateRecords_done hf hk]
  · obtain ⟨front, line, later, hdata, hlength⟩ := exists_split_at (not_le.mp hk)
    have hline : line ∉ later := by
      rw [hdata] at hnodup
      exact (List.nodup_cons.mp (List.nodup_append.mp hnodup).2.1).1
    have hany : later.any (· = line) = false := by
      apply List.any_eq_false.mpr
      intro x hx
      simpa using fun he : x = line => hline (he ▸ hx)
    rw [← hlength, deleteDuplicateRecords_row hf hdata, List.filter_ne_of_notMem hline, hany,
      ← hdata]
    simp

end FileDataBaseAccess

end WorkerUnit
