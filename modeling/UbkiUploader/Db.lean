import UbkiUploader.Lib.Table
import UbkiUploader.Lib.Text

/-!
# The store (app/db.py)

The tables, and one definition for each helper that the service calls. Every helper commits
before it returns, so a definition here maps one durable state to the next;
`UbkiUploader.Uploader.Ingest` takes `insertFile` apart into its statements, where the commit
is the last of them.
-/

namespace UbkiUploader

abbrev Timestamp := Nat

inductive RecordStatus
  | pending
  | sent
  | failed
  | rejected
  deriving DecidableEq, Repr

/-- `PARTIAL` is `partly` here; the source's word is reserved in Lean. -/
inductive FileStatus
  | pending
  | partly
  | sent
  | failed
  | rejected
  deriving DecidableEq, Repr

inductive RunStatus
  | success
  | aborted
  | error
  deriving DecidableEq, Repr

structure FileRow where
  id : Nat
  filename : Text
  sha256 : Text
  sizeBytes : Nat
  linesTotal : Nat
  status : FileStatus
  createdAt : Timestamp
  completedAt : Option Timestamp := none
  archivedAt : Option Timestamp := none
  deriving DecidableEq, Repr

structure RecordRow where
  id : Nat
  uuid : Text
  fileId : Nat
  lineNo : Nat
  rawLine : Text
  status : RecordStatus
  attempts : Nat := 0
  lastError : Option Text := none
  ubkiResponse : Option Text := none
  warnCodes : Option Text := none
  createdAt : Timestamp
  sentAt : Option Timestamp := none
  deriving DecidableEq, Repr

structure RunRow where
  id : Nat
  startedAt : Timestamp
  finishedAt : Timestamp
  status : RunStatus
  filesSeen : Nat
  recordsSent : Nat
  recordsFailed : Nat
  recordsRejected : Nat
  error : Option Text
  deriving DecidableEq, Repr

structure EnrichedRow where
  id : Nat
  filename : Text
  sha256 : Text
  linesTotal : Nat
  linesEnriched : Nat
  linesQuarantined : Nat
  createdAt : Timestamp
  deriving DecidableEq, Repr

structure Db where
  files : Table FileRow.id := .empty
  records : Table RecordRow.id := .empty
  runs : Table RunRow.id := .empty
  metaRows : List (Text × Text) := []
  enrichedFiles : Table EnrichedRow.id := .empty
  deriving DecidableEq

namespace Db

-- ---------------------------------------------------------------------------
-- Files
-- ---------------------------------------------------------------------------

def getFileByIdentity (db : Db) (filename sha256 : Text) : Option FileRow :=
  db.files.rows.find? fun f => f.filename = filename ∧ f.sha256 = sha256

def newFile (filename sha256 : Text) (sizeBytes linesTotal : Nat) (now : Timestamp) (id : Nat) :
    FileRow :=
  { id, filename, sha256, sizeBytes, linesTotal, status := .pending, createdAt := now }

theorem newFile_id (k : Nat) : (newFile n s b l t k).id = k := rfl

/-- First statement of `insert_file`; its `lastrowid` is `db.files.nextKey`. -/
def insertFileRow (db : Db) (filename sha256 : Text) (sizeBytes linesTotal : Nat)
    (now : Timestamp) : Db :=
  { db with files := db.files.insert (newFile filename sha256 sizeBytes linesTotal now) newFile_id }

def newRecord (uuid : Text) (fileId lineNo : Nat) (rawLine : Text) (now : Timestamp) (id : Nat) :
    RecordRow :=
  { id, uuid, fileId, lineNo, rawLine, status := .pending, createdAt := now }

theorem newRecord_id (k : Nat) : (newRecord u f n l t k).id = k := rfl

/-- Second statement of `insert_file`, an `executemany` over the lines numbered
from `lineNo`. -/
def insertRecordRows (fileId : Nat) (uuid4 : Nat → Text) (now : Timestamp) :
    Nat → List Text → Table RecordRow.id → Table RecordRow.id
  | _, [], records => records
  | lineNo, rawLine :: lines, records =>
    insertRecordRows fileId uuid4 now (lineNo + 1) lines
      (records.insert (newRecord (uuid4 lineNo) fileId lineNo rawLine now) newRecord_id)

def insertFile (db : Db) (filename sha256 : Text) (sizeBytes : Nat) (lines : List Text)
    (uuid4 : Nat → Text) (now : Timestamp) : Db :=
  { db.insertFileRow filename sha256 sizeBytes lines.length now with
    records := insertRecordRows db.files.nextKey uuid4 now 1 lines db.records }

def statuses (db : Db) (fileId : Nat) : List RecordStatus :=
  (db.records.rows.filter (·.fileId = fileId)).map (·.status)

/-- The status `recompute_file_status` reads off a set of record statuses. No
record at all counts as sent: nothing is left to transmit. -/
def aggregate (statuses : List RecordStatus) : FileStatus :=
  if statuses ⊆ [.sent] then .sent
  else if statuses ≠ [] ∧ statuses ⊆ [.pending] then .pending
  else if .failed ∈ statuses then .failed
  else if statuses ⊆ [.rejected, .sent] then .rejected
  else .partly

def fileStatus (db : Db) (fileId : Nat) : FileStatus := aggregate (db.statuses fileId)

/-- What `recompute_file_status` sets; a file once completed keeps its date. -/
def setStatus (status : FileStatus) (now : Timestamp) (f : FileRow) : FileRow :=
  let completed := if status = .sent ∨ status = .rejected then some now else none
  { f with status, completedAt := f.completedAt <|> completed }

theorem setStatus_id (f : FileRow) : (setStatus st t f).id = f.id := rfl

def recomputeFileStatus (db : Db) (fileId : Nat) (now : Timestamp) : Db :=
  { db with files := db.files.update (·.id = fileId) (setStatus (db.fileStatus fileId) now)
              setStatus_id }

def setArchived (now : Timestamp) (f : FileRow) : FileRow := { f with archivedAt := some now }

theorem setArchived_id (f : FileRow) : (setArchived t f).id = f.id := rfl

def markArchived (db : Db) (fileId : Nat) (now : Timestamp) : Db :=
  { db with files := db.files.update (·.id = fileId) (setArchived now) setArchived_id }

-- ---------------------------------------------------------------------------
-- Records
-- ---------------------------------------------------------------------------

/-- A row of `sendable_records`: the record and its file's name. -/
structure SendableRow extends RecordRow where
  filename : Text
  deriving DecidableEq, Repr

/-- The `WHERE` of `sendable_records`. -/
def sendable (retryCap : Nat) (r : RecordRow) : Bool :=
  r.status = .pending || (r.status = .failed && r.attempts < retryCap)

/-- The `ORDER BY` of `sendable_records`. -/
def before (a b : SendableRow) : Prop :=
  a.fileId < b.fileId ∨ (a.fileId = b.fileId ∧ a.lineNo ≤ b.lineNo)

instance (a b : SendableRow) : Decidable (before a b) := by unfold before; infer_instance

def sendableRecords (db : Db) (retryCap : Nat) : List SendableRow :=
  (db.records.rows.filterMap fun r =>
    (db.files.find? r.fileId).bind fun f =>
      if sendable retryCap r then some { r with filename := f.filename } else none).insertionSort
    before

/-- What `update_record_result` sets in a row. -/
structure RecordResult where
  status : RecordStatus
  lastError : Option Text
  ubkiResponse : Option Text
  warnCodes : Option Text
  countAttempt : Bool
  deriving DecidableEq, Repr

def RecordResult.apply (res : RecordResult) (now : Timestamp) (r : RecordRow) : RecordRow :=
  { r with
    status := res.status
    attempts := r.attempts + if res.countAttempt then 1 else 0
    lastError := res.lastError
    ubkiResponse := res.ubkiResponse
    warnCodes := res.warnCodes
    sentAt := if res.status = .sent then some now else none }

theorem apply_id (res : RecordResult) (r : RecordRow) : (res.apply t r).id = r.id := rfl

def updateRecordResult (db : Db) (recordId : Nat) (res : RecordResult) (now : Timestamp) : Db :=
  { db with records := db.records.update (·.id = recordId) (res.apply now) (apply_id res) }

/-- The two ways to call `reset_records`. -/
inductive ResetTarget
  | file (id : Nat)
  | record (id : Nat)
  deriving DecidableEq, Repr

def ResetTarget.covers : ResetTarget → RecordRow → Bool
  | .file id, r => r.fileId = id
  | .record id, r => r.id = id

/-- Whether `reset_records` changes a row. -/
def ResetTarget.resets (target : ResetTarget) (r : RecordRow) : Bool :=
  target.covers r && (r.status = .failed || r.status = .rejected)

def resetRow (r : RecordRow) : RecordRow :=
  { r with status := .pending, attempts := 0, lastError := none, warnCodes := none }

theorem resetRow_id (r : RecordRow) : (resetRow r).id = r.id := rfl

/-- failed/rejected go back to pending; the number of rows affected comes with
the new state. -/
def resetRecords (db : Db) (target : ResetTarget) : Db × Nat :=
  ({ db with records := db.records.update target.resets resetRow resetRow_id },
    db.records.rows.countP target.resets)

-- ---------------------------------------------------------------------------
-- Enriched files, runs, meta
-- ---------------------------------------------------------------------------

def getEnrichedByIdentity (db : Db) (filename sha256 : Text) : Option EnrichedRow :=
  db.enrichedFiles.rows.find? fun e => e.filename = filename ∧ e.sha256 = sha256

def newEnriched (filename sha256 : Text) (linesTotal linesEnriched linesQuarantined : Nat)
    (now : Timestamp) (id : Nat) : EnrichedRow :=
  { id, filename, sha256, linesTotal, linesEnriched, linesQuarantined, createdAt := now }

theorem newEnriched_id (k : Nat) : (newEnriched n s a b c t k).id = k := rfl

def insertEnrichedFile (db : Db) (filename sha256 : Text)
    (linesTotal linesEnriched linesQuarantined : Nat) (now : Timestamp) : Db :=
  { db with enrichedFiles := db.enrichedFiles.insert
              (newEnriched filename sha256 linesTotal linesEnriched linesQuarantined now)
              newEnriched_id }

def newRun (startedAt : Timestamp) (status : RunStatus)
    (filesSeen recordsSent recordsFailed recordsRejected : Nat) (error : Option Text)
    (now : Timestamp) (id : Nat) : RunRow :=
  { id, startedAt, finishedAt := now, status, filesSeen, recordsSent, recordsFailed,
    recordsRejected, error }

theorem newRun_id (k : Nat) : (newRun a st b c d e f t k).id = k := rfl

def insertRun (db : Db) (startedAt : Timestamp) (status : RunStatus)
    (filesSeen recordsSent recordsFailed recordsRejected : Nat) (error : Option Text)
    (now : Timestamp) : Db :=
  { db with runs := db.runs.insert
              (newRun startedAt status filesSeen recordsSent recordsFailed
                recordsRejected error now)
              newRun_id }

/-- `finished_at` of the successful run with the largest id. -/
def lastSuccessfulRun (db : Db) : Option Timestamp :=
  ((db.runs.rows.filter (·.status = .success)).argmax (·.id)).map (·.finishedAt)

def metaGet (db : Db) (key : Text) : Option Text := db.metaRows.lookup key

def metaSet (db : Db) (key value : Text) : Db :=
  { db with metaRows := if (db.metaRows.lookup key).isSome
              then db.metaRows.map fun e => if e.1 = key then (key, value) else e
              else db.metaRows ++ [(key, value)] }

end Db
end UbkiUploader
