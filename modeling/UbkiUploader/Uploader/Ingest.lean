import UbkiUploader.Lib.Transaction
import UbkiUploader.Uploader.FileStatus

/-!
# Ingesting a file, statement by statement

`insert_file` commits at its end. An exception inside it leaves its statements
pending on the connection, and the handler of `_run_locked` inserts the run's row
on the same connection and commits.
-/

namespace UbkiUploader

open Db (ResetTarget)

/-- The arguments of `insert_file`, and what it reads of the world. -/
structure NewFile where
  filename : Text
  sha256 : Text
  sizeBytes : Nat
  lines : List Text
  uuid4 : Nat → Text
  now : Timestamp

/-- Where `insert_file` can raise. -/
inductive FaultPoint
  /-- `INSERT INTO files` -/
  | filesInsert
  /-- The list of records, after as many of its elements. -/
  | buildRecord (built : Nat)
  /-- `executemany`, after as many of its rows. -/
  | recordInsert (inserted : Nat)
  | commit
  deriving DecidableEq, Repr

def NewFile.insertRow (f : NewFile) (db : Db) : Db :=
  db.insertFileRow f.filename f.sha256 f.sizeBytes f.lines.length f.now

def NewFile.insertRecords (f : NewFile) (fileId : Nat) (lines : List Text) (db : Db) : Db :=
  { db with records := Db.insertRecordRows fileId f.uuid4 f.now 1 lines db.records }

/-- `insert_file` on a connection, raising at a point or not at all. -/
def insertFileOn (conn : Conn Db) (f : NewFile) : Option FaultPoint → Conn Db
  | some .filesInsert => conn
  | some (.buildRecord _) => conn.exec f.insertRow
  | some (.recordInsert inserted) =>
    (conn.exec f.insertRow).exec
      (f.insertRecords conn.working.files.nextKey (f.lines.take inserted))
  | some .commit =>
    (conn.exec f.insertRow).exec (f.insertRecords conn.working.files.nextKey f.lines)
  | none =>
    ((conn.exec f.insertRow).exec (f.insertRecords conn.working.files.nextKey f.lines)).commit

structure ErrorRow where
  startedAt : Timestamp
  summary : RunSummary
  error : Text
  now : Timestamp

/-- The exception handler's `insert_run`. -/
def handleOn (conn : Conn Db) (row : ErrorRow) : Conn Db :=
  (conn.exec fun db => db.insertRun row.startedAt .error row.summary.filesSeen
    row.summary.recordsSent row.summary.recordsFailed row.summary.recordsRejected
    (some row.error) row.now).commit

/-- The database after `insert_file` raised at a point and the handler was done. -/
def afterFault (db : Db) (f : NewFile) (point : FaultPoint) (row : ErrorRow) : Db :=
  (handleOn (insertFileOn (.connect db) f (some point)) row).durable

/-- Raising nowhere, `insert_file` is the `insertFile` of the store. -/
theorem insertFileOn_none (db : Db) (f : NewFile) :
    (insertFileOn (.connect db) f none).durable =
      db.insertFile f.filename f.sha256 f.sizeBytes f.lines f.uuid4 f.now := rfl

def FaultPoint.pending (lines : List Text) : FaultPoint → Nat
  | .filesInsert => 0
  | .buildRecord _ => 0
  | .recordInsert inserted => min inserted lines.length
  | .commit => lines.length

/-- Nothing is pending, or the whole file is. -/
def FaultPoint.Whole (lines : List Text) (point : FaultPoint) : Prop :=
  point = .filesInsert ∨ point.pending lines = lines.length

/-- Past its first statement, the handler makes the row and the pending records
durable. -/
theorem afterFault_eq (db : Db) (f : NewFile) (row : ErrorRow) (h : point ≠ .filesInsert) :
    (afterFault db f point row).files = (f.insertRow db).files ∧
    (afterFault db f point row).records =
      (f.insertRecords db.files.nextKey (f.lines.take (point.pending f.lines)) db).records := by
  cases point with
  | filesInsert => exact absurd rfl h
  | buildRecord built => exact ⟨rfl, rfl⟩
  | recordInsert inserted =>
    refine ⟨rfl, ?_⟩
    simp only [FaultPoint.pending]
    rw [← List.take_eq_take_min]
    rfl
  | commit =>
    refine ⟨rfl, ?_⟩
    simp only [FaultPoint.pending, List.take_length]
    rfl

theorem afterFault_filesInsert (db : Db) (f : NewFile) (row : ErrorRow) :
    (afterFault db f .filesInsert row).files = db.files ∧
    (afterFault db f .filesInsert row).records = db.records := ⟨rfl, rfl⟩

/-- The next pass takes the file for a new one exactly when the first statement
raised. -/
theorem getFileByIdentity_afterFault (db : Db) (f : NewFile) (point : FaultPoint) (row : ErrorRow)
    (h : db.getFileByIdentity f.filename f.sha256 = none) :
    (afterFault db f point row).getFileByIdentity f.filename f.sha256 = none ↔
      point = .filesInsert := by
  constructor
  · intro hnone
    by_contra hne
    rw [Db.getFileByIdentity, (afterFault_eq db f row hne).1, List.find?_eq_none] at hnone
    have := hnone _ (Db.mem_files_insertFileRow.mpr (.inr rfl))
    simp [Db.newFile] at this
  · rintro rfl
    rw [Db.getFileByIdentity, (afterFault_filesInsert db f row).1]
    exact h

-- ---------------------------------------------------------------------------
-- Complete files
-- ---------------------------------------------------------------------------

def lineNos (db : Db) (fileId : Nat) : List Nat :=
  (db.records.rows.filter (·.fileId = fileId)).map (·.lineNo)

/-- Every file has the records of its lines, and every record has a file. -/
structure Complete (db : Db) : Prop where
  lines : ∀ f ∈ db.files.rows, lineNos db f.id = List.range' 1 f.linesTotal
  files : ∀ r ∈ db.records.rows, ∃ f ∈ db.files.rows, f.id = r.fileId

variable {db db' : Db}

theorem lineNos_insertRecordRows {t : Table RecordRow.id} :
    ((Db.insertRecordRows fileId uuid4 now n lines t).rows.filter (·.fileId = fileId)).map
        (·.lineNo) =
      (t.rows.filter (·.fileId = fileId)).map (·.lineNo) ++ List.range' n lines.length := by
  induction lines generalizing n t with
  | nil => simp [Db.insertRecordRows]
  | cons line lines ih =>
    rw [Db.insertRecordRows, ih, List.length_cons, List.range'_succ]
    simp [Table.insert, Db.newRecord]

theorem Complete.lineNos_nextKey (h : Complete db) : lineNos db db.files.nextKey = [] := by
  rw [lineNos, List.map_eq_nil_iff, List.filter_eq_nil_iff]
  intro r hr
  obtain ⟨f, hf, hid⟩ := h.files r hr
  have := Table.key_lt_nextKey hf
  simp only [decide_eq_true_eq]
  omega

/-- A file with as many records as it has lines is complete, and with fewer is
not. -/
theorem Complete.insert (h : Complete db) (f : NewFile) (lines : List Text)
    (hfiles : db'.files = (f.insertRow db).files)
    (hrecords : db'.records = (f.insertRecords db.files.nextKey lines db).records) :
    Complete db' ↔ lines.length = f.lines.length := by
  have hnew : lineNos db' db.files.nextKey = List.range' 1 lines.length := by
    simp only [lineNos, hrecords, NewFile.insertRecords, lineNos_insertRecordRows]
    rw [← lineNos, h.lineNos_nextKey, List.nil_append]
  have hrow : ∀ g, g ∈ db'.files.rows ↔ g ∈ db.files.rows ∨
      g = Db.newFile f.filename f.sha256 f.sizeBytes f.lines.length f.now db.files.nextKey := by
    intro g
    rw [hfiles]
    exact Db.mem_files_insertFileRow
  constructor
  · intro h'
    have := h'.lines _ ((hrow _).mpr (.inr rfl))
    rw [Db.newFile_id, hnew] at this
    simpa [Db.newFile] using congrArg List.length this
  · intro hlen
    constructor
    · intro g hg
      rcases (hrow g).mp hg with hg | rfl
      · have hne : g.id ≠ db.files.nextKey := Nat.ne_of_lt (Table.key_lt_nextKey hg)
        rw [← h.lines g hg]
        simp only [lineNos, hrecords, NewFile.insertRecords, statuses_insert hne]
      · rw [Db.newFile_id, hnew, hlen]
        rfl
    · intro r hr
      rw [hrecords] at hr
      rcases Db.mem_insertRecordRows hr with hr | ⟨-, lineNo, -, rawLine, -, hr⟩
      · obtain ⟨g, hg, hid⟩ := h.files r hr
        exact ⟨g, (hrow g).mpr (.inl hg), hid⟩
      · refine ⟨_, (hrow _).mpr (.inr rfl), ?_⟩
        rw [hr]
        rfl

theorem Complete.keep (h : Complete db)
    (hfiles : db'.files.rows.map (fun f => (f.id, f.linesTotal)) =
      db.files.rows.map fun f => (f.id, f.linesTotal))
    (hrecords : db'.records.rows.map (fun r => (r.fileId, r.lineNo)) =
      db.records.rows.map fun r => (r.fileId, r.lineNo)) : Complete db' := by
  have hnos (d : Db) (k : Nat) : lineNos d k =
      ((d.records.rows.map fun r => (r.fileId, r.lineNo)).filter (·.1 = k)).map (·.2) := by
    rw [lineNos, List.filter_map, List.map_map]
    rfl
  have hfile {d d' : Db} (heq : d'.files.rows.map (fun f => (f.id, f.linesTotal)) =
      d.files.rows.map fun f => (f.id, f.linesTotal)) (g : FileRow) (hg : g ∈ d'.files.rows) :
      ∃ f ∈ d.files.rows, f.id = g.id ∧ f.linesTotal = g.linesTotal := by
    have := List.mem_map_of_mem (f := fun f : FileRow => (f.id, f.linesTotal)) hg
    rw [heq] at this
    obtain ⟨f, hf, hfg⟩ := List.mem_map.mp this
    exact ⟨f, hf, congrArg Prod.fst hfg, congrArg Prod.snd hfg⟩
  constructor
  · intro g hg
    obtain ⟨f, hf, hid, htotal⟩ := hfile hfiles g hg
    rw [hnos, hrecords, ← hnos, ← hid, ← htotal]
    exact h.lines f hf
  · intro r hr
    have := List.mem_map_of_mem (f := fun r : RecordRow => (r.fileId, r.lineNo)) hr
    rw [hrecords] at this
    obtain ⟨r₀, hr₀, heq⟩ := List.mem_map.mp this
    obtain ⟨f, hf, hid⟩ := h.files r₀ hr₀
    obtain ⟨g, hg, hgid, -⟩ := hfile hfiles.symm f hf
    exact ⟨g, hg, by rw [hgid, hid]; exact congrArg Prod.fst heq⟩

/-- Every effect of a pass keeps files complete: it ingests a whole file, or
changes other columns. -/
theorem Complete.effect (h : Complete db) (e : Effect) : Complete (e.onDb db) := by
  cases e with
  | insertFile filename sha256 sizeBytes lines uuid4 now =>
    let f : NewFile := ⟨filename, sha256, sizeBytes, lines, uuid4, now⟩
    exact (h.insert f lines (rfl : (db.insertFile ..).files = _) rfl).mpr rfl
  | saveSession => exact h.keep rfl rfl
  | commit c _ => exact h.keep rfl (Table.map_update (Db.apply_id c.result.row) _ fun _ => rfl)
  | recompute => exact h.keep (Table.map_update (fun _ => Db.setStatus_id _) _ fun _ => rfl) rfl
  | toArchive => exact h
  | markArchived =>
    exact h.keep (Table.map_update (fun _ => Db.setArchived_id _) _ fun _ => rfl) rfl
  | insertRun => exact h.keep rfl rfl

theorem Complete.replay (h : Complete db) (fx : List Effect) : Complete (replayDb fx db) := by
  induction fx generalizing db with
  | nil => exact h
  | cons e fx ih => exact ih (h.effect e)

theorem Complete.reset (h : Complete db) (target : ResetTarget) :
    Complete (db.resetRecords target).1 :=
  h.keep rfl (Table.map_update Db.resetRow_id _ fun _ => rfl)

theorem Complete.retry (h : Complete db) (target : ResetTarget) (now : Timestamp) :
    Complete (retry db target now).2 := by
  cases target with
  | file fileId =>
    simp only [UbkiUploader.retry, retryFile]
    split
    · exact h
    · exact (h.reset _).effect (.recompute _ _)
  | record recordId =>
    simp only [UbkiUploader.retry, retryRecord]
    split
    · exact h
    · split
      · exact h.reset _
      · exact (h.reset _).effect (.recompute _ _)

/-- What a fault leaves is complete exactly when nothing or everything was
pending. -/
theorem complete_afterFault (h : Complete db) (f : NewFile) (point : FaultPoint) (row : ErrorRow) :
    Complete (afterFault db f point row) ↔ point.Whole f.lines := by
  by_cases hpoint : point = .filesInsert
  · subst hpoint
    obtain ⟨hfiles, hrecords⟩ := afterFault_filesInsert db f row
    exact iff_of_true (h.keep (by rw [hfiles]) (by rw [hrecords])) (.inl rfl)
  · obtain ⟨hfiles, hrecords⟩ := afterFault_eq db f row hpoint
    have hle : point.pending f.lines ≤ f.lines.length := by
      cases point <;> simp [FaultPoint.pending]
    rw [h.insert f _ hfiles hrecords, List.length_take, Nat.min_eq_left hle]
    simp [FaultPoint.Whole, hpoint]

-- ---------------------------------------------------------------------------
-- Histories with faults
-- ---------------------------------------------------------------------------

inductive Happening
  | deed (d : Deed)
  /-- A pass in which an `insert_file` raises, after `ingested` files. -/
  | fault (s : Site) (ingested : Nat) (point : FaultPoint) (row : ErrorRow)

def ingested (s : Site) (host : Host) : List Effect :=
  (ingestNewFiles s (scanFolder s host.inbox) { host, summary := {} }).1.log

def happen (host : Host) : Happening → Option Host
  | .deed d => deed host d
  | .fault s n point row =>
    match (ingested s host)[n]? with
    | some (.insertFile filename sha256 sizeBytes lines uuid4 now) =>
      let db := replayDb ((ingested s host).take n) host.db
      let new : NewFile := ⟨filename, sha256, sizeBytes, lines, uuid4, now⟩
      some { host with db := afterFault db new point row }
    | _ => none

/-- No fault strikes where a file is half done. -/
def WholeFaults (host : Host) : Happening → Prop
  | .deed _ => True
  | .fault s n point _ => ∀ filename sha256 sizeBytes lines uuid4 now,
      (ingested s host)[n]? = some (.insertFile filename sha256 sizeBytes lines uuid4 now) →
      point.Whole lines

theorem Complete.deed {host host' : Host} (h : Complete host.db) (hd : deed host d = some host') :
    Complete host'.db := by
  cases d with
  | deliver inbox =>
    cases hd
    exact h
  | pass s sched dryRun =>
    obtain ⟨⟨ending, out⟩, hrun, rfl⟩ := Option.map_eq_some_iff.mp hd
    have hhost : out.host = out.log.foldl Effect.apply host := by
      by_cases hend : ending = .finished
      · subst hend
        obtain ⟨r, p, ins, recs, arcs, hfin⟩ := runLocked_finished hrun
        exact hfin.host
      · exact (runLocked_unfinished hrun hend).1
    rw [hhost, foldl_apply_db]
    exact h.replay _
  | cutPass s sched n handled =>
    obtain ⟨⟨ending, out⟩, hrun, rfl⟩ := Option.map_eq_some_iff.mp hd
    rw [foldl_apply_db]
    exact h.replay _
  | retry target now =>
    cases hd
    exact h.retry target now
  | cutRetry target =>
    cases hd
    exact h.reset target

theorem Complete.happen {host host' : Host} {a : Happening} (h : Complete host.db)
    (hw : WholeFaults host a) (hd : happen host a = some host') : Complete host'.db := by
  cases a with
  | deed d => exact h.deed hd
  | fault s n point row =>
    simp only [UbkiUploader.happen] at hd
    split at hd
    · rename_i heq
      cases hd
      exact (complete_afterFault (h.replay _) _ point row).mpr (hw _ _ _ _ _ _ heq)
    · cases hd

/-- When an exception leaves `insert_file`, the handler's commit makes what is
pending durable. The file is as if never seen exactly when the first statement
raised, its rows are complete exactly when nothing or everything was pending, and
without other faults every reachable database is complete. -/
theorem insertFile_faults (db : Db) (f : NewFile) (point : FaultPoint) (row : ErrorRow)
    (hnew : db.getFileByIdentity f.filename f.sha256 = none) :
    (((afterFault db f point row).getFileByIdentity f.filename f.sha256 = none ∧
      (afterFault db f point row).records = db.records) ↔ point = .filesInsert) ∧
    (Complete db → (Complete (afterFault db f point row) ↔ point.Whole f.lines)) ∧
    ∀ (history : List Happening) (host : Host), Machine.run happen {} history = some host →
      Machine.Along happen WholeFaults {} history → Complete host.db := by
  refine ⟨?_, fun h => complete_afterFault h f point row, fun history host hrun hwhole => ?_⟩
  · rw [getFileByIdentity_afterFault db f point row hnew]
    refine and_iff_left_of_imp ?_
    rintro rfl
    exact (afterFault_filesInsert db f row).2
  · have h0 : Complete ({} : Host).db := ⟨by simp [Table.empty], by simp [Table.empty]⟩
    exact Machine.run_along (fun host => Complete host.db) h0 (fun _ _ _ h hw hd => h.happen hw hd)
      hwhole hrun

-- ---------------------------------------------------------------------------
-- One file of one line
-- ---------------------------------------------------------------------------

def oneLine : NewFile where
  filename := Text.lit "a.txt"
  sha256 := Text.lit "0123456789"
  sizeBytes := 3
  lines := [Text.lit "\x7b\x7d"]
  uuid4 := Text.ofNat
  now := 1

def noUuid : ErrorRow where
  startedAt := 0
  summary := { filesSeen := 1, filesNew := 1 }
  error := Text.lit "uuid4"
  now := 2

/-- Its file is delivered, and the second attempt to ingest it succeeds: the disk
had been full at the first. -/
def diskFull : List Happening :=
  [.deed (.deliver (AList.singleton oneLine.filename (ByteArray.mk #[0x7b, 0x7d, 0x0a]))),
   .fault (answering accepted) 0 .filesInsert noUuid,
   .deed (.pass (answering accepted) { first := [[0]], resend := [], recompute := [1] } false)]

theorem insertFile_faults_diskFull :
    (afterFault {} oneLine .filesInsert noUuid).getFileByIdentity oneLine.filename
      oneLine.sha256 = none ∧
    ¬Complete (afterFault {} oneLine (.buildRecord 0) noUuid) ∧
    ∃ host, Machine.run happen {} diskFull = some host ∧ host.db.records.rows.length = 1 ∧
      Complete host.db := by
  obtain ⟨hnew, -, hruns⟩ := insertFile_faults {} oneLine .filesInsert noUuid rfl
  obtain ⟨-, hcomplete, -⟩ := insertFile_faults {} oneLine (.buildRecord 0) noUuid rfl
  refine ⟨(hnew.mpr rfl).1, ?_, ?_⟩
  · rw [hcomplete ⟨by simp [Table.empty], by simp [Table.empty]⟩]
    simp [FaultPoint.Whole, FaultPoint.pending, oneLine]
  · have hruns' : (Machine.run happen {} diskFull).map (·.db.records.rows.length) = some 1 := by
      decide
    obtain ⟨host, hrun, hlen⟩ := Option.map_eq_some_iff.mp hruns'
    refine ⟨host, hrun, hlen, hruns diskFull host hrun ?_⟩
    simp [diskFull, Machine.Along, WholeFaults, FaultPoint.Whole]

/-- The list of records could not be built: the file's row stays, the next pass
finds it, has nothing to send, and archives the file as sent. -/
theorem insertFile_fault_lost :
    (Machine.run happen {}
      [.deed (.deliver (AList.singleton oneLine.filename (ByteArray.mk #[0x7b, 0x7d, 0x0a]))),
       .fault (answering accepted) 0 (.buildRecord 0) noUuid,
       .deed
       (.pass (answering accepted) { first := [], resend := [], recompute := [1] } false)]).map
      (fun host => (host.db.files.rows.map fun f => (f.linesTotal, f.status, f.archivedAt.isSome),
        host.db.records.rows)) =
    some ([(1, .sent, true)], []) := by decide

end UbkiUploader
