import UbkiUploader.Db

/-!
# What the store's helpers change

Each helper touches one table, and of that table the rows its `WHERE` names.
-/

namespace UbkiUploader.Db

variable {db : Db}

-- ---------------------------------------------------------------------------
-- Files
-- ---------------------------------------------------------------------------

@[simp] theorem insertFileRow_records : (db.insertFileRow n s b l t).records = db.records := rfl
@[simp] theorem recomputeFileStatus_records :
    (db.recomputeFileStatus f t).records = db.records := rfl
@[simp] theorem markArchived_records : (db.markArchived f t).records = db.records := rfl
@[simp] theorem insertRun_records : (db.insertRun a st b c d e f t).records = db.records := rfl
@[simp] theorem insertRun_files : (db.insertRun a st b c d e f t).files = db.files := rfl
@[simp] theorem metaSet_records : (db.metaSet k v).records = db.records := rfl
@[simp] theorem metaSet_files : (db.metaSet k v).files = db.files := rfl

theorem mem_files_insertFileRow : f ∈ (db.insertFileRow n s b l t).files.rows ↔
    f ∈ db.files.rows ∨ f = newFile n s b l t db.files.nextKey := by
  simp [insertFileRow, Table.mem_insert]

theorem mem_files_insertFile : f ∈ (db.insertFile n s b l u t).files.rows ↔
    f ∈ db.files.rows ∨ f = newFile n s b l.length t db.files.nextKey := by
  simp [insertFile, insertFileRow, Table.mem_insert]

theorem mem_files_recompute : f ∈ (db.recomputeFileStatus k t).files.rows ↔
    ∃ g ∈ db.files.rows, (if g.id = k then setStatus (db.fileStatus k) t g else g) = f := by
  simp [recomputeFileStatus]

theorem mem_files_markArchived : f ∈ (db.markArchived k t).files.rows ↔
    ∃ g ∈ db.files.rows, (if g.id = k then setArchived t g else g) = f := by
  simp [markArchived]

-- ---------------------------------------------------------------------------
-- Records
-- ---------------------------------------------------------------------------

@[simp] theorem updateRecordResult_files : (db.updateRecordResult i res t).files = db.files := rfl
@[simp] theorem resetRecords_files : (db.resetRecords target).1.files = db.files := rfl

attribute [simp] apply_id resetRow_id setStatus_id setArchived_id newFile_id newRecord_id

@[simp] theorem apply_fileId (res : RecordResult) : (res.apply t r).fileId = r.fileId := rfl
@[simp] theorem apply_status (res : RecordResult) : (res.apply t r).status = res.status := rfl

theorem mem_updateRecordResult : r ∈ (db.updateRecordResult i res t).records.rows ↔
    ∃ s ∈ db.records.rows, (if s.id = i then res.apply t s else s) = r := by
  simp [updateRecordResult]

theorem mem_resetRecords : r ∈ (db.resetRecords target).1.records.rows ↔
    ∃ s ∈ db.records.rows, (if target.resets s then resetRow s else s) = r := by
  simp [resetRecords]

theorem find?_updateRecordResult :
    (db.updateRecordResult i res t).records.find? k =
      if k = i then (db.records.find? k).map (res.apply t) else db.records.find? k := by
  simp only [updateRecordResult, Table.find?_update]
  cases h : db.records.find? k with
  | none => simp
  | some r =>
    obtain rfl : r.id = k := (Table.find?_eq_some_iff.mp h).2
    simp only [Option.map_some, decide_eq_true_eq]
    split
    · rfl
    · rfl

/-- A row of `insert_file` is an old one, or a pending one under a new id. -/
theorem mem_insertRecordRows (h : r ∈ (insertRecordRows fileId uuid4 now k lines t).rows) :
    r ∈ t.rows ∨ (t.nextKey ≤ r.id ∧
      ∃ lineNo, lineNo < k + lines.length ∧ ∃ rawLine ∈ lines,
        r = newRecord (uuid4 lineNo) fileId lineNo rawLine now r.id) := by
  induction lines generalizing k t with
  | nil => exact .inl h
  | cons line lines ih =>
    rcases ih h with h | ⟨hid, lineNo, hlt, rawLine, hmem, hr⟩
    · rcases Table.mem_insert.mp h with h | h
      · exact .inl h
      · refine .inr ⟨by rw [h]; exact Nat.le_refl _, k, by simp, line, by simp, ?_⟩
        rw [h, newRecord_id]
    · rw [Table.nextKey_insert] at hid
      exact .inr ⟨by omega, lineNo, by simp; omega, rawLine, by simp [hmem], hr⟩

/-- The rows of `insert_file`, in the order of the lines. -/
theorem insertRecordRows_rows : ∃ records : List RecordRow,
    (insertRecordRows fileId uuid4 now k lines t).rows = t.rows ++ records ∧
      List.Forall₂ (fun line r => r = newRecord (uuid4 line.2) fileId line.2 line.1 now r.id)
        (lines.zipIdx k) records := by
  induction lines generalizing k t with
  | nil => exact ⟨[], by simp [insertRecordRows], .nil⟩
  | cons line lines ih =>
    obtain ⟨records, hrows, hrecords⟩ := ih
    refine ⟨newRecord (uuid4 k) fileId k line now t.nextKey :: records, ?_, .cons rfl hrecords⟩
    rw [insertRecordRows, hrows, Table.insert, List.append_assoc]
    rfl

theorem nextKey_insertRecordRows :
    (insertRecordRows fileId uuid4 now k lines t).nextKey = t.nextKey + lines.length := by
  induction lines generalizing k t with
  | nil => rfl
  | cons line lines ih =>
    rw [insertRecordRows, ih, Table.nextKey_insert, List.length_cons]
    omega

theorem mem_insertRecordRows_of_mem (h : r ∈ t.rows) :
    r ∈ (insertRecordRows fileId uuid4 now k lines t).rows := by
  induction lines generalizing k t with
  | nil => exact h
  | cons line lines ih => exact ih (Table.mem_insert.mpr (.inl h))

theorem mem_sendableRecords {r : SendableRow} :
    r ∈ db.sendableRecords cap ↔ r.toRecordRow ∈ db.records.rows ∧
    sendable cap r.toRecordRow ∧
      ∃ f, db.files.find? r.fileId = some f ∧ f.filename = r.filename := by
  simp only [sendableRecords, List.mem_insertionSort, List.mem_filterMap, Option.bind_eq_some_iff]
  constructor
  · rintro ⟨row, hrow, f, hf, h⟩
    split at h
    · rename_i hs
      cases h
      exact ⟨hrow, hs, f, hf, rfl⟩
    · cases h
  · rintro ⟨hrow, hs, f, hf, hname⟩
    exact ⟨r.toRecordRow, hrow, f, hf, by simp [hs, hname]⟩

theorem sendableRecords_nodup (db : Db) (cap : Nat) :
    ((db.sendableRecords cap).map (·.id)).Nodup := by
  unfold sendableRecords
  rw [((List.perm_insertionSort before _).map _).nodup_iff]
  refine List.Nodup.sublist ?_ db.records.nodup
  induction db.records.rows with
  | nil => simp
  | cons row rows ih =>
    rw [List.filterMap_cons]
    split
    · exact ih.cons _
    · rename_i r hr
      obtain ⟨f, -, h⟩ := Option.bind_eq_some_iff.mp hr
      split at h
      · cases h; exact ih.cons_cons _
      · cases h

theorem find?_of_mem_sendableRecords {r : SendableRow} (h : r ∈ db.sendableRecords cap) :
    db.records.find? r.id = some r.toRecordRow :=
  Table.find?_key (mem_sendableRecords.mp h).1

end UbkiUploader.Db
