import UbkiUploader.Db

/-!
# Manual retries (app/api.py)

`retry_file` and `retry_record`: the only writes of the API. Each resets records
and then recomputes their file, in two transactions.
-/

namespace UbkiUploader

open Db (ResetTarget)

inductive RetryAnswer
  /-- 404 -/
  | notFound
  /-- 409: the record is not failed or rejected. -/
  | conflict
  | reset (records : Nat)
  deriving DecidableEq, Repr

def retryFile (db : Db) (fileId : Nat) (now : Timestamp) : RetryAnswer × Db :=
  match db.files.find? fileId with
  | none => (.notFound, db)
  | some _ =>
    let (reset, n) := db.resetRecords (.file fileId)
    (.reset n, reset.recomputeFileStatus fileId now)

def retryRecord (db : Db) (recordId : Nat) (now : Timestamp) : RetryAnswer × Db :=
  match db.records.find? recordId with
  | none => (.notFound, db)
  | some row =>
    let (reset, n) := db.resetRecords (.record recordId)
    if n = 0 then (.conflict, reset) else (.reset n, reset.recomputeFileStatus row.fileId now)

def retry (db : Db) (target : ResetTarget) (now : Timestamp) : RetryAnswer × Db :=
  match target with
  | .file fileId => retryFile db fileId now
  | .record recordId => retryRecord db recordId now

/-- The process ended between `reset_records` and `recompute_file_status`. -/
def retryCut (db : Db) (target : ResetTarget) : Db := (db.resetRecords target).1

end UbkiUploader
