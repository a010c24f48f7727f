import UbkiUploader.Db

/-!
# The bureau's client (app/ubki_client.py)

What the uploader uses of `UbkiClient`: the result of one upload, the envelope
around a record, and the session kept for the day. What the bureau answers is a
parameter of the functions that ask it.
-/

namespace UbkiUploader

/-- The statuses an `UploadResult` may carry. -/
inductive Outcome
  | sent
  | failed
  | rejected
  deriving DecidableEq, Repr

def Outcome.toStatus : Outcome → RecordStatus
  | .sent => .sent
  | .failed => .failed
  | .rejected => .rejected

theorem Outcome.unmarked (o : Outcome) (h : false = true) : o = .failed :=
  absurd h Bool.false_ne_true

theorem Outcome.unpaired (networkError : Bool) (h : false = true) : networkError = true :=
  absurd h Bool.false_ne_true

/-- The result of one upload. The last two fields are what the source promises
of the network flags: `is_network_error` marks failures only, and
`session_expired` is always paired with it. -/
structure UploadResult where
  status : Outcome
  state : Option Text := none
  httpStatus : Option Nat := none
  responseText : Option Text := none
  error : Option Text := none
  isNetworkError : Bool := false
  sessionExpired : Bool := false
  isLocalReject : Bool := false
  hasWarnings : Bool := false
  warnCodes : List Text := []
  componentsDropped : Bool := false
  networkFailed : isNetworkError = true → status = .failed := by
    first | exact fun _ => rfl | exact Outcome.unmarked _ | decide
  paired : sessionExpired = true → isNetworkError = true := by
    first | exact fun _ => rfl | exact Outcome.unpaired _ | decide
  deriving DecidableEq, Repr

def UploadResult.row (r : UploadResult) : Db.RecordResult where
  status := r.status.toStatus
  lastError := r.error
  ubkiResponse := r.responseText
  -- an empty text counts as no codes
  warnCodes := some (Text.join (Text.lit ",") r.warnCodes) |>.filter (· ≠ [])
  countAttempt := !r.isNetworkError

/-- Wrap one line as it is, but for the blanks around it. -/
def buildEnvelope (rawLine reqidout : Text) : Text :=
  Text.lit "\x7b\"reqtype\":\"" ++ Text.lit "u" ++ Text.lit "\",\"reqidout\":\"" ++ reqidout ++
    Text.lit "\",\"reqreason\":\"" ++ Text.lit "0" ++ Text.lit "\",\"data\":\x7b\"fo_cki\":" ++
    Text.strip rawLine ++ Text.lit "\x7d\x7d"

-- ---------------------------------------------------------------------------
-- The session
-- ---------------------------------------------------------------------------

def sessidKey : Text := Text.lit "ubki_sessid"
def sessidDateKey : Text := Text.lit "ubki_sessid_date"

/-- The state the session lives in: `UbkiClient._sessid` and the store behind
`DbSessionStore`. -/
structure Session where
  db : Db
  sessid : Option Text := none

namespace Session

def load (s : Session) (today : Text) : Option Text :=
  if s.db.metaGet sessidDateKey ≠ some today then none else s.db.metaGet sessidKey

def save (s : Session) (today sessid : Text) : Session :=
  { s with db := (s.db.metaSet sessidKey sessid).metaSet sessidDateKey today }

/-- `auth`, given the bureau's answer: a sessid, or the text of the
`UbkiAuthError` it is turned into. -/
def auth (today : Text) (answer : Except Text Text) (s : Session) : Except Text Text × Session :=
  match answer with
  | .error e => (.error e, s)
  | .ok sessid => (.ok sessid, { s with sessid := some sessid }.save today sessid)

/-- The session at hand without asking the bureau: in memory, or cached today. -/
def cached (today : Text) (s : Session) : Option Text :=
  match s.sessid.filter (· ≠ []) with
  | some sessid => some sessid
  | none => (s.load today).filter (· ≠ [])

def ensureSession (today : Text) (answer : Except Text Text) (s : Session) :
    Except Text Text × Session :=
  match s.cached today with
  | some sessid => (.ok sessid, { s with sessid := some sessid })
  | none => s.auth today answer

def reauth (today : Text) (answer : Except Text Text) (s : Session) : Except Text Text × Session :=
  { s with sessid := none }.auth today answer

end Session
end UbkiUploader
