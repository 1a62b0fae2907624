import WorkerUnit.Algorithm.SplitRows
import WorkerUnit.Instance.Versions

/-!
# The metadata of a user table

`processDataPacket` with the `int`s it counts in. The name of the instance is looked
up before the text is split, and the header is taken off the number of rows before
that number becomes unsigned. An `int` that overflows has no result.
-/

namespace WorkerUnit

open FileDataBaseAccess Records

/-- The value of a signed operation, when it has one. -/
def checkedInt (i : ℤ) : Option ℤ := if -2 ^ 31 ≤ i ∧ i < 2 ^ 31 then some i else none

theorem checkedInt_eq_some_iff {i j : ℤ} :
    checkedInt i = some j ↔ (-2 ^ 31 ≤ i ∧ i < 2 ^ 31) ∧ i = j := by
  unfold checkedInt
  split_ifs with h
  · simp only [Option.some.injEq, h, and_self, true_and]
  · simp only [h, false_and]

theorem checkedInt_natCast (i : ℕ) :
    checkedInt i = if i < 2 ^ 31 then some (i : ℤ) else none := by
  unfold checkedInt
  split_ifs <;> first | rfl | omega

/-- The loop of `getTotalColumns`. -/
def countCommas : Text → ℤ → ℤ → Option ℤ
  | [], _, totalColumns => some totalColumns
  | c :: data, i, totalColumns =>
    (if c = ',' then checkedInt (totalColumns + 1) else some totalColumns).bind
      fun totalColumns => (checkedInt (i + 1)).bind fun i => countCommas data i totalColumns

/-- The index overflows before the number of commas can. -/
theorem countCommas_eq (data : Text) {i totalColumns : ℕ} (hi : i < 2 ^ 31)
    (htotal : totalColumns ≤ i) :
    countCommas data i totalColumns =
      if i + data.length < 2 ^ 31 then some ((totalColumns + data.count ',' : ℕ) : ℤ)
      else none := by
  induction data generalizing i totalColumns with
  | nil => rw [List.length_nil, Nat.add_zero, if_pos hi]; rfl
  | cons c data ih =>
    have hindex : checkedInt ((i : ℤ) + 1) =
        if i + 1 < 2 ^ 31 then some ((i + 1 : ℕ) : ℤ) else none := checkedInt_natCast (i + 1)
    by_cases hnext : i + 1 < 2 ^ 31
    · rw [if_pos hnext] at hindex
      by_cases hc : c = ','
      · have hcount : checkedInt ((totalColumns : ℤ) + 1) = some ((totalColumns + 1 : ℕ) : ℤ) :=
          (checkedInt_natCast (totalColumns + 1)).trans
            (if_pos (lt_of_le_of_lt (Nat.succ_le_succ htotal) hnext))
        rw [countCommas, if_pos hc, hcount, Option.bind_some, hindex, Option.bind_some,
          ih hnext (by omega), hc, List.count_cons_self, List.length_cons]
        grind
      · rw [countCommas, if_neg hc, Option.bind_some, hindex, Option.bind_some,
          ih hnext (by omega), List.count_cons_of_ne hc, List.length_cons]
        grind
    · rw [if_neg hnext] at hindex
      have hover : ¬ i + (data.length + 1) < 2 ^ 31 := fun h => hnext (by omega)
      rw [countCommas, hindex, List.length_cons, if_neg hover]
      exact Option.bind_fun_none _

/-- `getTotalColumns`. A text without lines has no front line. -/
def FileDataBaseAccess.getTotalColumnsInt (f : FileDataBaseAccess) : Option ℤ :=
  if f.fileDeleted then some accessDenied
  else
    let data := if f.accessMode = .readFile then f.readData.head? else f.readWriteData.head?
    data.bind fun data => (countCommas data 0 0).bind fun totalColumns =>
      checkedInt (totalColumns + 1)

/-- `getTotalRows`. The size of the list is converted to an `int`. -/
def FileDataBaseAccess.getTotalRowsInt (f : FileDataBaseAccess) : ℤ := wrapInt f.getTotalRows

/-- What `processDataPacket` leaves behind; `counts` are the members `rows` and
`columns` when they are assigned. -/
structure PacketResult where
  status : ReceiverStatus
  counts : Option (ℤ × ℤ)
  tableData : Option TableData
  instances : DataBaseInstanceList
  disk : Disk

namespace UserDataParser

/-- The subtraction is one of `int`s, and the differences are then unsigned. -/
def constructDataObjectsInt (packet : UserDataPacket) (algoType : Text) (rows columns : ℤ) :
    Option TableData :=
  (checkedInt (rows - 1)).map fun lines =>
    ⟨⟨toSizeT lines, toSizeT columns⟩, packet.tableid, packet.priority, algoType⟩

/-- A packet with a field that does not convert, or whose file cannot be opened, is
`none`: both are noticed before the reference is counted. -/
def processDataPacketInt (d : DataBaseInstanceList) (disk : Disk) :
    Option UserDataPacket → Option PacketResult
  | none => some ⟨.error, none, none, d, disk⟩
  | some packet =>
    let fileDataBaseAccess := openFile disk packet.tableid .rwFile
    let d := d.incrimentRefrence packet.instancetype
    let algoType := d.getInstanceAliasName packet.instancetype
    if algoType.isEmpty then some ⟨.error, none, none, d, disk⟩
    else
      let fileDataBaseAccess := (fileDataBaseAccess.writeBlob packet.data).2
      fileDataBaseAccess.getTotalColumnsInt.bind fun columns =>
        let rows := fileDataBaseAccess.getTotalRowsInt
        (constructDataObjectsInt packet algoType rows columns).map fun tableData =>
          ⟨.success, some (rows, columns), some tableData, d, fileDataBaseAccess.closeFile disk⟩

end UserDataParser

/-- The lines of a text; an end of line at the end of the text starts no line. -/
def lineCount (data : Text) : ℕ := data.count '\n' + if Terminated '\n' data then 0 else 1

def firstLine (data : Text) : Text := data.takeWhile (· ≠ '\n')

/-- A success makes a table with the counts of the text, and these are the numbers that
were counted; an error makes none, and counts no reference. -/
structure MetadataLaw (d : DataBaseInstanceList) (packet : Option UserDataPacket)
    (result : PacketResult) : Prop where
  success : result.status = .success → ∃ sent tableData, packet = some sent ∧
    result.tableData = some tableData ∧
    result.counts =
      some ((lineCount sent.data : ℤ), ((advTokenizer (firstLine sent.data) ',').length : ℤ)) ∧
    tableData.metadata.rows + 1 = lineCount sent.data ∧
    tableData.metadata.columns = (advTokenizer (firstLine sent.data) ',').length
  error : result.status = .error → result.tableData = none ∧ result.instances = d

/-- The numbers of lines, of characters and of cells that an `int` can hold. -/
structure FitsInt (data : Text) : Prop where
  lines : lineCount data < 2 ^ 31
  characters : (firstLine data).length < 2 ^ 31
  cells : (firstLine data).count ',' + 1 < 2 ^ 31

theorem length_splitStringByNewline (data : Text) :
    (splitStringByNewline data).length = lineCount data := length_records data

/-- The first line ends at the first newline. -/
theorem firstLine_append {line : Text} (h : '\n' ∉ line) (text : Text) :
    firstLine (line ++ '\n' :: text) = line := by
  have hkeep : ∀ c ∈ line, decide (c ≠ '\n') = true :=
    fun c hc => decide_eq_true fun heq => h (heq ▸ hc)
  rw [firstLine, List.takeWhile_append_of_pos hkeep]
  simp

theorem head?_splitStringByNewline (data : Text) :
    (splitStringByNewline data).head? = if data = [] then none else some (firstLine data) := by
  induction data using induction_on_records '\n' with
  | last text h =>
    have htake : firstLine text = text := by
      rw [firstLine, List.takeWhile_eq_self_iff]
      intro c hc
      exact decide_eq_true fun heq => h (heq ▸ hc)
    rw [splitStringByNewline, records_of_notMem h, htake]
    split_ifs <;> rfl
  | record r text h _ =>
    rw [splitStringByNewline, records_append r text h, firstLine_append h, if_neg (by simp)]
    rfl

namespace FileDataBaseAccess

variable {disk : Disk} {tableid data : Text}

theorem getTotalColumnsInt_writeBlob :
    ((openFile disk tableid .rwFile).writeBlob data).2.getTotalColumnsInt =
      if data ≠ [] ∧ (firstLine data).length < 2 ^ 31 ∧ (firstLine data).count ',' + 1 < 2 ^ 31
      then some (((firstLine data).count ',' + 1 : ℕ) : ℤ) else none := by
  have hcount : countCommas (firstLine data) (0 : ℕ) (0 : ℕ) = _ :=
    countCommas_eq (firstLine data) (by omega) le_rfl
  simp only [Nat.cast_zero, Nat.zero_add] at hcount
  have hfront : ((openFile disk tableid .rwFile).writeBlob data).2.getTotalColumnsInt =
      (splitStringByNewline data).head?.bind fun data =>
        (countCommas data 0 0).bind fun totalColumns => checkedInt (totalColumns + 1) := rfl
  rw [hfront, head?_splitStringByNewline]
  by_cases hdata : data = []
  · rw [if_pos hdata, if_neg (fun h => h.1 hdata), Option.bind_none]
  · rw [if_neg hdata, Option.bind_some, hcount]
    by_cases hlength : (firstLine data).length < 2 ^ 31
    · have hlast : checkedInt (((firstLine data).count ',' : ℤ) + 1) = _ :=
        checkedInt_natCast ((firstLine data).count ',' + 1)
      rw [if_pos hlength, Option.bind_some, hlast]
      simp only [ne_eq, hdata, not_false_eq_true, hlength, true_and]
    · rw [if_neg hlength, if_neg (fun h => hlength h.2.1), Option.bind_none]

theorem getTotalRows_writeBlob :
    ((openFile disk tableid .rwFile).writeBlob data).2.getTotalRows = lineCount data := by
  rw [← length_splitStringByNewline]
  rfl

theorem getTotalRowsInt_writeBlob :
    ((openFile disk tableid .rwFile).writeBlob data).2.getTotalRowsInt =
      wrapInt (lineCount data) := by
  rw [getTotalRowsInt, getTotalRows_writeBlob]

end FileDataBaseAccess

/-- Nothing is counted for a name without a version, and the name then has no alias. -/
theorem DataBaseInstanceList.isEmpty_alias_iff {d : DataBaseInstanceList} {instanceName : Text} :
    ((d.incrimentRefrence instanceName).getInstanceAliasName instanceName).isEmpty = true ↔
      ∀ m ∈ d.instanceList, m.actualName ≠ instanceName := by
  constructor
  · intro hempty m hm hname
    obtain ⟨oldest, holdest, _, _, hread⟩ := exists_oldest ⟨m, hm, hname⟩
    obtain ⟨rand, halias⟩ := d.named oldest holdest
    rw [incrimentRefrence, hread, halias] at hempty
    simp [newAlias] at hempty
  · intro hnone
    have hfind : (d.instanceList.find? fun m => m.actualName == instanceName) = none :=
      List.find?_eq_none.mpr fun m hm => by simpa using hnone m hm
    rw [incrimentRefrence, getInstanceAliasName_changeCount, getInstanceAliasName, hfind]
    rfl

theorem DataBaseInstanceList.incrimentRefrence_of_unknown {d : DataBaseInstanceList}
    {instanceName : Text} (hnone : ∀ m ∈ d.instanceList, m.actualName ≠ instanceName) :
    d.incrimentRefrence instanceName = d := by
  apply changeCount_of_none
  rw [List.find?_eq_none]
  intro m hm
  simp [isCurrent, hnone m hm]

theorem wrapInt_lineCount_iff (data : Text) :
    wrapInt (lineCount data) = lineCount data ↔ lineCount data < 2 ^ 31 := by
  refine ⟨fun heq => ?_, wrapInt_natCast⟩
  have hlt := wrapInt_lt (lineCount data)
  rw [heq] at hlt
  exact_mod_cast hlt

/-- The header is taken off the number of lines. -/
theorem checkedInt_lineCount_pred {data : Text} (hpos : 0 < lineCount data)
    (hlines : lineCount data < 2 ^ 31) :
    checkedInt ((lineCount data : ℤ) - 1) = some ((lineCount data - 1 : ℕ) : ℤ) := by
  rw [← Nat.cast_pred hpos, checkedInt_natCast, if_pos (by omega)]

theorem lineCount_pos {data : Text} (h : data ≠ []) : 0 < lineCount data := by
  rw [← length_splitStringByNewline, List.length_pos_iff]
  intro hnil
  have hhead := head?_splitStringByNewline data
  rw [hnil, if_neg h] at hhead
  cases hhead

namespace UserDataParser

variable {d : DataBaseInstanceList} {packet : UserDataPacket}

theorem processDataPacketInt_of_unknown (disk : Disk)
    (h : ∀ m ∈ d.instanceList, m.actualName ≠ packet.instancetype) :
    processDataPacketInt d disk (some packet) = some ⟨.error, none, none, d, disk⟩ := by
  rw [processDataPacketInt]
  dsimp only
  rw [if_pos (DataBaseInstanceList.isEmpty_alias_iff.mpr h),
    DataBaseInstanceList.incrimentRefrence_of_unknown h]

/-- The counts of a text whose instance has a version. -/
theorem processDataPacketInt_of_known (disk : Disk)
    (h : ¬ ∀ m ∈ d.instanceList, m.actualName ≠ packet.instancetype) :
    ∃ algoType instances disk', processDataPacketInt d disk (some packet) =
      if packet.data ≠ [] ∧ (firstLine packet.data).length < 2 ^ 31 ∧
          (firstLine packet.data).count ',' + 1 < 2 ^ 31 then
        (checkedInt (wrapInt (lineCount packet.data) - 1)).map fun lines =>
          ⟨.success, some (wrapInt (lineCount packet.data),
              ((firstLine packet.data).count ',' + 1 : ℕ)),
            some ⟨⟨toSizeT lines, (firstLine packet.data).count ',' + 1⟩, packet.tableid,
              packet.priority, algoType⟩, instances, disk'⟩
      else none := by
  refine ⟨(d.incrimentRefrence packet.instancetype).getInstanceAliasName packet.instancetype,
    d.incrimentRefrence packet.instancetype,
    ((openFile disk packet.tableid .rwFile).writeBlob packet.data).2.closeFile disk, ?_⟩
  rw [processDataPacketInt]
  dsimp only
  rw [if_neg (fun hempty => h (DataBaseInstanceList.isEmpty_alias_iff.mp hempty)),
    getTotalColumnsInt_writeBlob, getTotalRowsInt_writeBlob]
  split_ifs
  · rw [Option.bind_some, constructDataObjectsInt, Option.map_map, toSizeT_natCast]
    rfl
  · rfl

/-- The law of a text whose instance has a version. -/
theorem metadataLaw_of_known (disk : Disk)
    (h : ¬ ∀ m ∈ d.instanceList, m.actualName ≠ packet.instancetype) :
    (∃ result, processDataPacketInt d disk (some packet) = some result ∧
      MetadataLaw d (some packet) result) ↔ packet.data ≠ [] ∧ FitsInt packet.data := by
  obtain ⟨algoType, instances, disk', hpacket⟩ := processDataPacketInt_of_known disk h
  rw [hpacket]
  constructor
  · rintro ⟨result, hresult, law⟩
    split_ifs at hresult with hfits
    obtain ⟨hdata, hcharacters, hcells⟩ := hfits
    obtain ⟨lines, _, rfl⟩ := Option.map_eq_some_iff.mp hresult
    obtain ⟨_, _, hsent, _, hcounts, _⟩ := law.success rfl
    cases hsent
    have hrows : wrapInt (lineCount packet.data) = lineCount packet.data :=
      (Prod.mk.inj (Option.some.inj hcounts)).1
    exact ⟨hdata, (wrapInt_lineCount_iff _).mp hrows, hcharacters, hcells⟩
  · rintro ⟨hdata, hlines, hcharacters, hcells⟩
    have hpos := lineCount_pos hdata
    rw [if_pos ⟨hdata, hcharacters, hcells⟩, wrapInt_natCast hlines,
      checkedInt_lineCount_pred hpos hlines, Option.map_some, toSizeT_natCast]
    refine ⟨_, rfl, fun _ => ⟨packet, _, rfl, rfl, ?_, Nat.sub_add_cancel hpos, ?_⟩, nofun⟩
    · rw [length_advTokenizer]
    · exact (length_advTokenizer _ _).symm

end UserDataParser

open UserDataParser

/-- The metadata are those of the text, or the packet is refused and nothing is
counted, exactly when the packet does not convert, or the instance has no version, or
the text is not empty and its lines and the cells of its header fit in an `int`. -/
theorem metadataLaw_iff (d : DataBaseInstanceList) (disk : Disk)
    (packet : Option UserDataPacket) :
    (∃ result, processDataPacketInt d disk packet = some result ∧
      MetadataLaw d packet result) ↔
    ∀ sent, packet = some sent → (∀ m ∈ d.instanceList, m.actualName ≠ sent.instancetype) ∨
      (sent.data ≠ [] ∧ FitsInt sent.data) := by
  cases packet with
  | none => exact ⟨fun _ => nofun, fun _ => ⟨_, rfl, nofun, fun _ => ⟨rfl, rfl⟩⟩⟩
  | some sent =>
    have hsent : (∀ other, some sent = some other →
        (∀ m ∈ d.instanceList, m.actualName ≠ other.instancetype) ∨
          (other.data ≠ [] ∧ FitsInt other.data)) ↔
        (∀ m ∈ d.instanceList, m.actualName ≠ sent.instancetype) ∨
          (sent.data ≠ [] ∧ FitsInt sent.data) :=
      ⟨fun h => h sent rfl, fun h other heq => Option.some.inj heq ▸ h⟩
    rw [hsent]
    by_cases hunknown : ∀ m ∈ d.instanceList, m.actualName ≠ sent.instancetype
    · have hresult := processDataPacketInt_of_unknown disk hunknown
      exact ⟨fun _ => .inl hunknown,
        fun _ => ⟨_, hresult, nofun, fun _ => ⟨rfl, rfl⟩⟩⟩
    · rw [metadataLaw_of_known disk hunknown]
      exact ⟨.inr, fun h => h.resolve_left hunknown⟩

/-- An empty text for an instance that has a version has no front line. -/
theorem not_metadataLaw_empty :
    ¬ ∃ result, processDataPacketInt (DataBaseInstanceList.init.addInstance ['s'] fun _ => 0)
        (fun _ => none) (some ⟨['t'], [], ['s'], .lowPriority⟩) = some result ∧
      MetadataLaw (DataBaseInstanceList.init.addInstance ['s'] fun _ => 0)
        (some ⟨['t'], [], ['s'], .lowPriority⟩) result := by
  rintro ⟨result, hresult, _⟩
  cases hresult

end WorkerUnit
