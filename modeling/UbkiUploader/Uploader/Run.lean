import UbkiUploader.Lib.Folder
import UbkiUploader.Lib.Lines
import UbkiUploader.Uploader.Send
import UbkiUploader.Uploader.Trace

/-!
# One upload pass (app/uploader.py, `_run_locked`)

Scan, ingest, send, recompute, archive, and the run's row. Everything a pass makes
durable is an `Effect`, and a pass keeps the list of its effects: a pass that is
killed has made those of a prefix of it.
-/

namespace UbkiUploader

open Db (SendableRow)

structure Host where
  db : Db := {}
  inbox : Folder Text := ∅
  archive : Folder Text := ∅

/-- What a pass makes durable in one step. -/
inductive Effect
  | insertFile (filename sha256 : Text) (sizeBytes : Nat) (lines : List Text)
      (uuid4 : Nat → Text) (now : Timestamp)
  | saveSession (today sessid : Text)
  | commit (c : Commit) (now : Timestamp)
  | recompute (fileId : Nat) (now : Timestamp)
  /-- `source.rename(target)` -/
  | toArchive (filename target : Text)
  | markArchived (fileId : Nat) (now : Timestamp)
  | insertRun (startedAt : Timestamp) (status : RunStatus)
      (filesSeen recordsSent recordsFailed recordsRejected : Nat) (error : Option Text)
      (now : Timestamp)

def Effect.onDb : Effect → Db → Db
  | .insertFile filename sha256 sizeBytes lines uuid4 now, db =>
    db.insertFile filename sha256 sizeBytes lines uuid4 now
  | .saveSession today sessid, db => (({ db } : Session).save today sessid).db
  | .commit c now, db => db.updateRecordResult c.record.id c.result.row now
  | .recompute fileId now, db => db.recomputeFileStatus fileId now
  | .toArchive _ _, db => db
  | .markArchived fileId now, db => db.markArchived fileId now
  | .insertRun startedAt status filesSeen recordsSent recordsFailed recordsRejected error now, db =>
    db.insertRun startedAt status filesSeen recordsSent recordsFailed recordsRejected error now

def Effect.apply (host : Host) (e : Effect) : Host :=
  match e with
  | .toArchive filename target =>
    let moved := host.inbox.move host.archive filename target
    { host with inbox := moved.1, archive := moved.2 }
  | e => { host with db := e.onDb host.db }

/-- What a pass needs from outside besides what sending needs. -/
structure Site extends Env where
  /-- The file's name matches FILE_GLOB. -/
  globbed : Text → Bool
  /-- The file is old enough. -/
  aged : Text → Bool
  sha256 : ByteArray → Text
  uuid4 : Nat → Nat → Text
  /-- The text of the error for a file that is not UTF-8. -/
  decodeError : ByteArray → Text

/-- The orders a pass leaves open: of the completions in each wave, and of the set
of files to recompute. -/
structure Schedule where
  first : List (List Nat)
  resend : List (List Nat)
  recompute : List Nat

structure Run where
  host : Host
  summary : RunSummary
  log : List Effect := []

def Run.perform (r : Run) (e : Effect) : Run :=
  { r with host := e.apply r.host, log := r.log ++ [e] }

-- ---------------------------------------------------------------------------
-- Scanning and ingesting
-- ---------------------------------------------------------------------------

def isHidden (name : Text) : Bool := name.head? = some 46

def Site.eligible (s : Site) (name : Text) : Bool := s.globbed name && s.aged name

/-- The names `scan_folder` returns. -/
def scanFolder (s : Site) (inbox : Folder Text) : List Text :=
  (inbox.keys.filter fun name => !isHidden name && s.eligible name).insertionSort (· ≤ ·)

/-- `files_skipped` -/
def skippedFolder (s : Site) (inbox : Folder Text) : Nat :=
  inbox.keys.countP fun name => !isHidden name && !s.globbed name

def isBlank (line : Text) : Bool := Text.strip line = []

/-- The non-blank lines of a file in text mode; `none` is UnicodeDecodeError. -/
def readLines (bytes : ByteArray) : Option (List Text) :=
  (Text.decodeUtf8 bytes).map fun t => (Text.breakLines Text.isNewline t).filter (!isBlank ·)

/-- One turn of the loop in `ingest_new_files`. -/
def ingestFile (s : Site) (r : Run) (name : Text) (bytes : ByteArray) : Except Text Run :=
  let sha := s.sha256 bytes
  if (r.host.db.getFileByIdentity name sha).isSome then .ok r
  else
    match readLines bytes with
    | none => .error (s.decodeError bytes)
    | some lines =>
      let r := { r with summary := { r.summary with
        filesNew := r.summary.filesNew + 1
        filesEmpty := r.summary.filesEmpty + if lines = [] then 1 else 0 } }
      if r.summary.dryRun then .ok r
      else .ok (r.perform (.insertFile name sha bytes.size lines (s.uuid4 r.log.length)
        (s.utcnow r.log.length)))

/-- With the state comes the exception, if one was raised. -/
def ingestNewFiles (s : Site) : List Text → Run → Run × Option Text
  | [], r => (r, none)
  | name :: names, r =>
    match r.host.inbox.read name with
    | none => ingestNewFiles s names r
    | some bytes =>
      match ingestFile s r name bytes with
      | .ok r => ingestNewFiles s names r
      | .error e => (r, some e)

-- ---------------------------------------------------------------------------
-- Sending
-- ---------------------------------------------------------------------------

/-- What an event of `send_records` made durable. -/
def Event.effects (env : Env) (i : Nat) : Event → List Effect
  | .submit _ => []
  | .commit c => [.commit c (env.utcnow i)]
  | .auth =>
    match env.ensureAnswer with
    | .ok sessid => [.saveSession env.kyivToday sessid]
    | .error _ => []
  | .reauth =>
    match env.reauthAnswer with
    | .ok sessid => [.saveSession env.kyivToday sessid]
    | .error _ => []

def effectsFrom (env : Env) : Nat → List Event → List Effect
  | _, [] => []
  | i, e :: tr => e.effects env i ++ effectsFrom env (i + 1) tr

def Run.sent (env : Env) (r : Run) (p : Pass) : Run where
  host := { r.host with db := p.db }
  summary := p.summary
  log := r.log ++ effectsFrom env 0 p.trace

-- ---------------------------------------------------------------------------
-- Recomputing and archiving
-- ---------------------------------------------------------------------------

/-- The files to recompute: the active ones and those touched. -/
def recomputeIds (db : Db) (touched : List Nat) : List Nat :=
  ((db.files.rows.filter (·.archivedAt.isNone)).map (·.id) ++ touched).dedup

def recomputeFiles (s : Site) (ids : List Nat) (r : Run) : Run :=
  ids.foldl (fun r id => r.perform (.recompute id (s.utcnow r.log.length))) r

/-- The rows `archive_completed_files` selects. -/
def completedFiles (db : Db) : List FileRow :=
  db.files.rows.filter fun f => f.archivedAt.isNone &&
    (db.statuses f.id).all fun st => st = .sent || st = .rejected

def uniqueTarget (folder : Folder Text) (name sha256 : Text) : Text :=
  if (folder.read name).isSome then sha256.take 8 ++ Text.lit "_" ++ name else name

def archiveFile (s : Site) (r : Run) (row : FileRow) : Run :=
  match (r.host.inbox.read row.filename).filter (s.sha256 · = row.sha256) with
  -- already moved, or overwritten by a newer version
  | none => r.perform (.markArchived row.id (s.utcnow r.log.length))
  | some _ =>
    let target := uniqueTarget r.host.archive row.filename row.sha256
    let r := r.perform (.toArchive row.filename target)
    let r := r.perform (.markArchived row.id (s.utcnow r.log.length))
    { r with summary := { r.summary with filesArchived := r.summary.filesArchived + 1 } }

def archiveCompletedFiles (s : Site) (r : Run) : Run :=
  (completedFiles r.host.db).foldl (archiveFile s) r

-- ---------------------------------------------------------------------------
-- The pass
-- ---------------------------------------------------------------------------

/-- How `_run_locked` was left. -/
inductive Ending
  | dryRun
  | crashed (error : Text)
  | finished
  deriving DecidableEq, Repr

def Run.insertRun (r : Run) (startedAt : Timestamp) (status : RunStatus) (error : Option Text)
    (now : Timestamp) : Run :=
  r.perform (.insertRun startedAt status r.summary.filesSeen r.summary.recordsSent
    r.summary.recordsFailed r.summary.recordsRejected error now)

def crash (s : Site) (r : Run) (error : Text) : Run :=
  { r with summary := { r.summary with errors := r.summary.errors ++ [error] } }.insertRun
    (s.utcnow 0) .error (some error) (s.utcnow r.log.length)

/-- From the end of `send_records` to the run's row; `none` when the schedule does
not list the files to recompute. -/
def finishRun (s : Site) (sched : Schedule) (r : Run) (touched : List Nat) : Option Run :=
  if sched.recompute.Perm (recomputeIds r.host.db touched) then
    let r := archiveCompletedFiles s (recomputeFiles s sched.recompute r)
    let status := if r.summary.aborted then RunStatus.aborted else .success
    let error := some (Text.join (Text.lit "; ") r.summary.errors) |>.filter (· ≠ [])
    some (r.insertRun (s.utcnow 0) status error (s.utcnow r.log.length))
  else none

def Site.scanned (s : Site) (dryRun : Bool) (host : Host) : Run where
  host
  summary :=
    { dryRun
      filesSeen := (scanFolder s host.inbox).length
      filesSkipped := skippedFolder s host.inbox }

@[simp] theorem Site.scanned_host (s : Site) : (s.scanned dryRun host).host = host := rfl

@[simp] theorem Site.scanned_log (s : Site) : (s.scanned dryRun host).log = [] := rfl

/-- `_run_locked`, up to the exceptions that `none` of its parts models: a pass
that one of those ends has made a prefix of its effects. -/
def runLocked (s : Site) (sched : Schedule) (dryRun : Bool) (host : Host) :
    Option (Ending × Run) :=
  match ingestNewFiles s (scanFolder s host.inbox) (s.scanned dryRun host) with
  | (r, some e) => some (.crashed e, crash s r e)
  | (r, none) =>
    if dryRun then some (.dryRun, r)
    else do
      let p ← sendRecords s.toEnv sched.first sched.resend r.host.db r.summary
      let r ← finishRun s sched (r.sent s.toEnv p) p.touched
      some (.finished, r)

end UbkiUploader
