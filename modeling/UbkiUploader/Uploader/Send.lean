import UbkiUploader.Uploader.Wave

/-!
# Sending (app/uploader.py, `send_records`)

A pass over the records to send: authenticate, the first wave, and, when stale
sessions were seen in it, one re-authentication and the resend wave. The order in
which the sends of each wave finish is an argument.
-/

namespace UbkiUploader

open Db (SendableRow)

def RunSummary.abort (s : RunSummary) (error : Text) : RunSummary :=
  { s with aborted := true, errors := s.errors ++ [error] }

/-- `client.ensure_session()`, which asks the bureau only without a session at
hand. -/
def Pass.ensureSession (env : Env) (p : Pass) : Except Text Text × Pass :=
  let answered := p.toSession.ensureSession env.kyivToday env.ensureAnswer
  let asked := if (p.toSession.cached env.kyivToday).isNone then [Event.auth] else []
  (answered.1, { p with toSession := answered.2, trace := p.trace ++ asked })

/-- `client.reauth()` -/
def Pass.reauth (env : Env) (p : Pass) : Except Text Text × Pass :=
  let answered := p.toSession.reauth env.kyivToday env.reauthAnswer
  (answered.1, { p with toSession := answered.2, trace := p.trace ++ [.reauth] })

def authFailed (e : Text) : Text := Text.lit "auth failed, pass aborted: " ++ e

def reauthFailed (e : Text) : Text := Text.lit "re-auth failed: " ++ e

def networkAbort (env : Env) : Text :=
  Text.lit "aborted after " ++ Text.ofNat env.config.networkAbortThreshold ++
    Text.lit " consecutive network-like errors (transport/5xx/sy/session)"

/-- The session could not be established. -/
def blockPass (p : Pass) (e : Text) : Pass :=
  { p with summary := p.summary.abort (authFailed e) }

/-- The session could not be refreshed: the stale records stay FAILED, and are
counted now since no further wave will. -/
def strand (stale : List SendableRow) (p : Pass) (e : Text) : Pass :=
  { p with summary := { p.summary with
      recordsFailed := p.summary.recordsFailed + stale.length
      errors := p.summary.errors ++ [reauthFailed e] } }

/-- The block after the first wave. With it comes whether the pass is aborted. -/
def recover (env : Env) (order : List (List Nat)) (w : Wave) : Option (Pass × Bool) :=
  if w.expired ≠ [] ∧ ¬w.aborted then
    match w.pass.reauth env with
    | (.error e, p) => some (strand w.expired p e, w.aborted)
    | (.ok sessid, p) => do
      let again ← runWave env true sessid w.expired order p
      some (again.pass, w.aborted || again.aborted)
  else some (w.pass, w.aborted)

def closePass (env : Env) (p : Pass) (aborted : Bool) : Pass :=
  if aborted then { p with summary := p.summary.abort (networkAbort env) } else p

/-- `send_records`. The waves finish in the orders `first` and `resend`. -/
def sendRecords (env : Env) (first resend : List (List Nat)) (db : Db) (summary : RunSummary) :
    Option Pass :=
  let p : Pass := { db, summary }
  let records := db.sendableRecords env.config.retryCap
  if records = [] then some p
  else
    match p.ensureSession env with
    | (.error e, p) => some (blockPass p e)
    | (.ok sessid, p) => do
      let w ← runWave env false sessid records first p
      let (p, aborted) ← recover env resend w
      some (closePass env p aborted)

end UbkiUploader
