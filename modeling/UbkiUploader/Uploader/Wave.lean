import UbkiUploader.Config
import UbkiUploader.Client
import UbkiUploader.Lib.Pool
import UbkiUploader.Lib.Streak

/-!
# One wave of sends (app/uploader.py, inside `send_records`)

The closures of `send_records`: `commit`, `send_one` and `run_wave`. The
variables they share are the fields of `Pass`; `trace` is added to them, so that
what was dispatched and committed, and in which order, can be talked about.

The workers finish in an order of their own. `runWave` takes that order as an
argument, one list of futures for each return of `wait`; it is `none` when the
list is not one `wait` could have returned, or ends while sends are in flight.
-/

namespace UbkiUploader

open Db (SendableRow)

structure RunSummary where
  dryRun : Bool := false
  filesSeen : Nat := 0
  filesNew : Nat := 0
  filesSkipped : Nat := 0
  filesEmpty : Nat := 0
  recordsSent : Nat := 0
  recordsFailed : Nat := 0
  recordsRejected : Nat := 0
  recordsWarnings : Nat := 0
  recordsComponentsDropped : Nat := 0
  filesArchived : Nat := 0
  aborted : Bool := false
  skippedLock : Bool := false
  errors : List Text := []
  deriving DecidableEq, Repr

/-- The arguments of one call of `commit`. -/
structure Commit where
  record : SendableRow
  result : UploadResult
  countSummary : Bool
  deriving DecidableEq, Repr

inductive Event
  /-- `ex.submit(send_one, record)` -/
  | submit (record : SendableRow)
  | commit (c : Commit)
  /-- `ensure_session` had to ask the bureau. -/
  | auth
  /-- `client.reauth()` -/
  | reauth
  deriving DecidableEq, Repr

/-- What a pass needs from outside: its settings, the day and the clock (read at
the n-th event), and the bureau's answers. A record is posted at most once in a
wave, so `reply` answers for the wave (`true` for the resend wave), the record
and the session it was sent under. -/
structure Env where
  config : Config
  kyivToday : Text
  utcnow : Nat → Timestamp
  ensureAnswer : Except Text Text
  reauthAnswer : Except Text Text
  reply : Bool → SendableRow → Text → UploadResult

/-- What the closures of `send_records` share. -/
structure Pass extends Session where
  summary : RunSummary
  touched : List Nat := []
  streak : Nat := 0
  trace : List Event := []

def RunSummary.tally (s : RunSummary) (result : UploadResult) : RunSummary :=
  match result.status with
  | .sent =>
    { s with
      recordsSent := s.recordsSent + 1
      recordsWarnings := s.recordsWarnings + if result.hasWarnings then 1 else 0
      recordsComponentsDropped :=
        s.recordsComponentsDropped + if result.componentsDropped then 1 else 0 }
  | .rejected => { s with recordsRejected := s.recordsRejected + 1 }
  | .failed => { s with recordsFailed := s.recordsFailed + 1 }

def Pass.commit (env : Env) (p : Pass) (c : Commit) : Pass :=
  { p with
    touched := p.touched.insert c.record.fileId
    db := p.db.updateRecordResult c.record.id c.result.row (env.utcnow p.trace.length)
    summary := if c.countSummary then p.summary.tally c.result else p.summary
    trace := p.trace ++ [.commit c] }

def envelope (record : SendableRow) : Text := buildEnvelope record.rawLine record.uuid

/-- The envelope would exceed the bureau's limit, so nothing is sent. -/
def oversize (env : Env) (record : SendableRow) : Bool :=
  env.config.maxLineBytes < Text.utf8Size (envelope record)

def localReject (env : Env) : UploadResult where
  status := .rejected
  isLocalReject := true
  error := some (Text.lit "request envelope exceeds " ++ Text.ofNat env.config.maxLineBytes ++
    Text.lit " bytes, not sent")

def sendOne (env : Env) (final : Bool) (sessid : Text) (record : SendableRow) : UploadResult :=
  if oversize env record then localReject env else env.reply final record sessid

/-- The call of `commit` that a wave makes for a record. In the first wave a
stale-session record is kept for the resend and left out of the tally. -/
def settlement (env : Env) (final : Bool) (sessid : Text) (record : SendableRow) : Commit :=
  let result := sendOne env final sessid record
  let resend := result.sessionExpired && !final
  { record, result, countSummary := !resend }

/-- The record is kept for the resend. -/
def Commit.deferred (c : Commit) : Bool := !c.countSummary

/-- The variables of `run_wave`, and the pass it runs in. -/
structure Wave where
  pool : Pool SendableRow
  expired : List SendableRow := []
  aborted : Bool := false
  pass : Pass

namespace Wave

def submit (w : Wave) : Wave :=
  match w.pool.waiting with
  | [] => w
  | record :: _ =>
    { w with pool := w.pool.start
             pass := { w.pass with trace := w.pass.trace ++ [.submit record] } }

/-- Take one finished future out of the window and commit its result. -/
def land (env : Env) (final : Bool) (sessid : Text) (w : Wave) (fut : Nat)
    (record : SendableRow) : Wave :=
  let c := settlement env final sessid record
  let pass := w.pass.commit env c
  let streak :=
    if c.result.isNetworkError then pass.streak + 1
    -- a local reject made no network call: no evidence either way
    else if c.result.isLocalReject then pass.streak
    else 0
  { pool := w.pool.release fut
    expired := if c.deferred then w.expired ++ [record] else w.expired
    aborted := w.aborted ||
      (c.result.isNetworkError && decide (env.config.networkAbortThreshold ≤ streak))
    pass := { pass with streak } }

/-- The body of `for fut in done`. -/
def settle (env : Env) (final : Bool) (sessid : Text) (w : Wave) (fut : Nat) : Wave :=
  match w.pool.task? fut with
  | none => w
  | some record =>
    let w := w.land env final sessid fut record
    if w.aborted then w else w.submit

/-- One turn of `while in_flight`, after `wait` returned the futures of `done`. -/
def turn (env : Env) (final : Bool) (sessid : Text) (w : Wave) (done : List Nat) : Option Wave :=
  if done ≠ [] ∧ done.Nodup ∧ done ⊆ w.pool.tickets then
    some (done.foldl (settle env final sessid) w)
  else none

/-- `while in_flight`, with what each `wait` returns. -/
def loop (env : Env) (final : Bool) (sessid : Text) (order : List (List Nat)) (w : Wave) :
    Option Wave :=
  (order.foldlM (turn env final sessid) w).filter (·.pool.busy.isEmpty)

def opened (env : Env) (wave : List SendableRow) (p : Pass) : Wave :=
  submit^[env.config.ubkiConcurrency] { pool := .idle wave, pass := p }

end Wave

def runWave (env : Env) (final : Bool) (sessid : Text) (wave : List SendableRow)
    (order : List (List Nat)) (p : Pass) : Option Wave :=
  Wave.loop env final sessid order (Wave.opened env wave p)

end UbkiUploader
