import WorkerUnit.Library.InputStream
import WorkerUnit.Library.Loop
import WorkerUnit.Services.CellReplacement

/-!
# Rows and their values

The two `getline` loops of `services/file_database_access.cpp`, and that each
ends with the split of its text. A row is split at its commas and joined again,
and a text at its newlines.
-/

namespace WorkerUnit

open Records Replace

/-- The variables of a loop that reads a stream into a container. -/
structure Reading where
  ss : InputStream Char
  word : Text
  result : List Text

namespace Reading

def start (s : Text) : Reading := ⟨.ofList s, [], []⟩

/-- One round of the loop of `adv_tokenizer`, which reads until `eof` is set. -/
def advTokenizerRound (del : Char) (t : Reading) : Option (Bool × Reading) :=
  if t.ss.eof then some (true, t)
  else
    let (word, ss) := t.ss.getline del t.word
    some (false, ⟨ss, word, t.result ++ [word]⟩)

/-- One round of the loop of `split_string_by_newline`, and of the constructor,
which reads until a read fails. -/
def splitStringByNewlineRound (t : Reading) : Option (Bool × Reading) :=
  let (line, ss) := t.ss.getline '\n' t.word
  if ss.fail then some (true, ⟨ss, line, t.result⟩)
  else some (false, ⟨ss, line, t.result ++ [line]⟩)

/-- The loop of `adv_tokenizer` ends with these words. -/
def Tokenizes (del : Char) (s : Text) (words : List Text) : Prop :=
  ∃ t, Loop.Ends (advTokenizerRound del) id (start s) t ∧ t.result = words

/-- The loop of `split_string_by_newline` ends with these lines. -/
def SplitsLines (s : Text) (lines : List Text) : Prop :=
  ∃ t, Loop.Ends splitStringByNewlineRound id (start s) t ∧ t.result = lines

theorem ends_advTokenizerRound (del : Char) (s word : Text) (result : List Text) :
    ∃ t, Loop.Ends (advTokenizerRound del) id ⟨.ofList s, word, result⟩ t ∧
      t.result = result ++ advTokenizer s del := by
  induction s using induction_on_records del generalizing word result with
  | last s hs =>
    have hread : advTokenizerRound del ⟨.ofList s, word, result⟩ =
        some (false, ⟨⟨[], true, s.isEmpty⟩, s, result ++ [s]⟩) := by
      simp only [advTokenizerRound, InputStream.getline_ofList_last hs]
      rfl
    refine ⟨_, .of_continue hread rfl (.of_stop rfl rfl), ?_⟩
    rw [advTokenizer, List.splitOn_eq_singleton hs]
  | record r s hr ih =>
    have hread : advTokenizerRound del ⟨.ofList (r ++ del :: s), word, result⟩ =
        some (false, ⟨.ofList s, r, result ++ [r]⟩) := by
      simp only [advTokenizerRound, InputStream.getline_ofList_append hr]
      rfl
    obtain ⟨t, hend, hresult⟩ := ih r (result ++ [r])
    refine ⟨t, .of_continue hread rfl hend, ?_⟩
    rw [hresult, advTokenizer, advTokenizer, List.splitOn_append_cons_self_of_not_mem hr,
      List.append_assoc, List.singleton_append]

theorem ends_splitStringByNewlineRound (s word : Text) (result : List Text) :
    ∃ t, Loop.Ends splitStringByNewlineRound id ⟨.ofList s, word, result⟩ t ∧
      t.result = result ++ splitStringByNewline s := by
  induction s using induction_on_records '\n' generalizing word result with
  | last s hs =>
    cases s with
    | nil => exact ⟨_, .of_stop rfl rfl, by simp [splitStringByNewline, records]⟩
    | cons c s =>
      have hread : splitStringByNewlineRound ⟨.ofList (c :: s), word, result⟩ =
          some (false, ⟨⟨[], true, false⟩, c :: s, result ++ [c :: s]⟩) := by
        simp only [splitStringByNewlineRound, InputStream.getline_ofList_last hs]
        rfl
      refine ⟨_, .of_continue hread rfl (.of_stop rfl rfl), ?_⟩
      simp [splitStringByNewline, records_of_notMem hs]
  | record r s hr ih =>
    have hread : splitStringByNewlineRound ⟨.ofList (r ++ '\n' :: s), word, result⟩ =
        some (false, ⟨.ofList s, r, result ++ [r]⟩) := by
      simp only [splitStringByNewlineRound, InputStream.getline_ofList_append hr]
      rfl
    obtain ⟨t, hend, hresult⟩ := ih r (result ++ [r])
    refine ⟨t, .of_continue hread rfl hend, ?_⟩
    rw [hresult, splitStringByNewline, splitStringByNewline, records_append r s hr,
      List.append_assoc, List.singleton_append]

/-- The tokenizer ends with the fields of its text, and with nothing else. -/
theorem tokenizes_iff {del : Char} {s : Text} {words : List Text} :
    Tokenizes del s words ↔ words = advTokenizer s del := by
  obtain ⟨t, hend, hresult⟩ := ends_advTokenizerRound del s [] []
  constructor
  · rintro ⟨u, hu, rfl⟩
    rw [hu.unique hend, hresult, List.nil_append]
  · rintro rfl
    exact ⟨t, hend, hresult⟩

theorem splitsLines_iff {s : Text} {lines : List Text} :
    SplitsLines s lines ↔ lines = splitStringByNewline s := by
  obtain ⟨t, hend, hresult⟩ := ends_splitStringByNewlineRound s [] []
  constructor
  · rintro ⟨u, hu, rfl⟩
    rw [hu.unique hend, hresult, List.nil_append]
  · rintro rfl
    exact ⟨t, hend, hresult⟩

end Reading

namespace FileDataBaseAccess

open Reading

theorem intercalate_advTokenizer (s : Text) (del : Char) :
    [del].intercalate (advTokenizer s del) = s := List.intercalate_splitOn del

/-- The columns are the fields of the first row. -/
theorem getTotalColumns_eq_length {f : FileDataBaseAccess} (hf : f.fileDeleted = false)
    (hrows : f.rows ≠ []) :
    ∃ columnNames, f.getColumnNamesList = some columnNames ∧
      f.getTotalColumns = some (columnNames.length : ℤ) := by
  obtain ⟨header, rest, hdata⟩ := List.exists_cons_of_ne_nil hrows
  have hfront : (if f.accessMode = .readFile then f.readData.head? else f.readWriteData.head?) =
      some header := by
    rw [← apply_ite List.head?, ← rows, hdata, List.head?_cons]
  refine ⟨advTokenizer header ',', ?_, ?_⟩
  · simp [getColumnNamesList, hf, hfront]
  · simp [getTotalColumns, hf, hfront, length_advTokenizer]

/-- Every row is split at its commas and joined to itself again, values without
commas are read back from their row, and the columns of a file with a row are
counted as they are split. -/
theorem rowCodec :
    (∀ s : Text, ∃ words, (∀ other, Tokenizes ',' s other ↔ other = words) ∧ words ≠ [] ∧
      (∀ word ∈ words, ',' ∉ word) ∧ RowCall.rowString words = s) ∧
    (∀ valueList : List Text, valueList ≠ [] → (∀ value ∈ valueList, ',' ∉ value) →
      ∀ words, Tokenizes ',' (RowCall.rowString valueList) words ↔ words = valueList) ∧
    (∀ f : FileDataBaseAccess, f.fileDeleted = false → f.rows ≠ [] →
      ∃ columnNames, f.getColumnNamesList = some columnNames ∧
        f.getTotalColumns = some (columnNames.length : ℤ)) := by
  refine ⟨fun s => ?_, fun valueList hvalues hcomma words => ?_, fun f hf hrows => ?_⟩
  · refine ⟨advTokenizer s ',', fun other => tokenizes_iff, List.splitOn_ne_nil _ _, ?_, ?_⟩
    · exact fun word hword => sep_notMem_of_mem_splitOn hword
    · rw [rowString_eq_intercalate, intercalate_advTokenizer]
  · rw [tokenizes_iff, advTokenizer_rowString hvalues hcomma]
  · exact getTotalColumns_eq_length hf hrows

/-- A row that ends with a comma ends with an empty field. -/
example : advTokenizer ['a', ',', ',', 'b', ','] ',' = [['a'], [], ['b'], []] := by decide

section Blob

variable {f : FileDataBaseAccess} {tableID : Text}

theorem writeBlob_eq (hf : f.Writable) (data : Text) :
    f.writeBlob data =
      (0, { f with readWriteData := splitStringByNewline data, dataModified := true }) := by
  simp [writeBlob, hf.1, hf.2]

theorem openOn_writeBlob (hf : f.Writable) (hname : f.fileName = csvName tableID) (data : Text) :
    OpenOn tableID (f.writeBlob data).2 := by
  rw [writeBlob_eq hf]
  exact ⟨hf, hname, not_mem_records data⟩

/-- The rows of a written text reach the file. -/
theorem reachesFile_writeBlob (hf : f.Writable) (hname : f.fileName = csvName tableID)
    (data : Text) (disk : Disk) : (f.writeBlob data).2.ReachesFile tableID disk := by
  rw [(openOn_writeBlob hf hname data).reachesFile_iff, writeBlob_eq hf]
  exact .inl rfl

theorem getBlob_of_writable (hf : f.Writable) : f.getBlob = unrecords '\n' f.readWriteData := by
  simp [getBlob, hf.1, hf.2]

theorem getTotalRows_of_writable (hf : f.Writable) :
    f.getTotalRows = f.readWriteData.length := by
  simp [getTotalRows, hf.1, hf.2]

/-- A text that is written is read back with at most a last newline added, and
split into its lines; rows without newlines are restored from their text, in
memory and from the file. -/
theorem blobCodec (hf : f.Writable) (hname : f.fileName = csvName tableID) :
    (∀ data : Text, ∃ g, f.writeBlob data = (0, g) ∧
      (∀ lines, SplitsLines data lines ↔ lines = g.readWriteData) ∧
      g.getBlob = (if data = [] ∨ data.getLast? = some '\n' then data else data ++ ['\n']) ∧
      g.getTotalRows =
        data.count '\n' + (if data = [] ∨ data.getLast? = some '\n' then 0 else 1) ∧
      (∀ row ∈ g.readWriteData, '\n' ∉ row) ∧
      (g.writeBlob g.getBlob).2.readWriteData = g.readWriteData) ∧
    (∀ rows : List Text, (∀ row ∈ rows, '\n' ∉ row) →
      ∃ g, f.writeBlob (rows.flatMap fun row => row ++ ['\n']) = (0, g) ∧
        g.readWriteData = rows ∧ ∀ disk accessMacro,
          (openFile (g.commitChanges disk) tableID accessMacro).rows = rows) := by
  constructor
  · intro data
    set g := (f.writeBlob data).2 with hg
    have hwrite := writeBlob_eq hf data
    have hdata : g.readWriteData = records '\n' data := by rw [hg, hwrite]; rfl
    have hwritable : g.Writable := (openOn_writeBlob hf hname data).writable
    have hblob : g.getBlob = unrecords '\n' (records '\n' data) := by
      rw [getBlob_of_writable hwritable, hdata]
    refine ⟨g, by rw [hg, hwrite], fun lines => ?_, ?_, ?_, ?_, ?_⟩
    · rw [splitsLines_iff, hdata, splitStringByNewline]
    · rw [hblob, unrecords_records]
      rfl
    · rw [getTotalRows_of_writable hwritable, hdata, length_records]
      push_cast
      rfl
    · rw [hdata]
      exact not_mem_records data
    · rw [writeBlob_eq hwritable, hblob, hdata, splitStringByNewline, records_unrecords_records]
  · intro rows hrows
    have hrestored : splitStringByNewline (rows.flatMap fun row => row ++ ['\n']) = rows :=
      records_unrecords rows hrows
    refine ⟨_, writeBlob_eq hf _, hrestored, fun disk accessMacro => ?_⟩
    have hreaches := reachesFile_writeBlob hf hname (rows.flatMap fun row => row ++ ['\n']) disk
    have hfile := (hreaches accessMacro).1
    rw [writeBlob_eq hf] at hfile
    rw [hfile, FileDataBaseAccess.rows, if_neg (by simp [hf.1]), hrestored]

/-- Two rows, the first one empty, on a table without a file. -/
theorem blobCodec_emptyRow :
    ∃ g, (openFile (fun _ => none) ['t'] .rwFile).writeBlob ['\n', 'a', '\n'] = (0, g) ∧
      g.readWriteData = [[], ['a']] := by
  obtain ⟨g, hwrite, hdata, _⟩ := (blobCodec (f := openFile (fun _ => none) ['t'] .rwFile)
    (writable_openFile ['t']) rfl).2 [[], ['a']] (by decide)
  exact ⟨g, hwrite, hdata⟩

end Blob

end FileDataBaseAccess

end WorkerUnit
