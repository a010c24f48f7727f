import UbkiUploader.Client
import UbkiUploader.Lib.Numbers

/-!
# What an upload response means (app/ubki_client.py, `_interpret_response`)

The body of a response is whatever the bureau, or something before it, put there: any
JSON value, or none. An exception here ends the worker's send.
-/

namespace UbkiUploader

structure Response where
  statusCode : Nat
  text : Text
  /-- `resp.json()`; `none` where it raises ValueError. -/
  json : Option Json

def sessionExpiredErrcodes : List Text := [Text.lit "2014"]

def responseTextLimit : Nat := 8192

def benignWarningCodes : List Text := [Text.lit "4014", Text.lit "5001"]

-- ---------------------------------------------------------------------------
-- Reading a body
-- ---------------------------------------------------------------------------

def sentdatainfo : Json → Fields
  | .obj data =>
    match data.lookup (Text.lit "sentdatainfo") with
    | some (.obj info) => info
    | _ => data
  | _ => []

/-- `_counter`; what is no number counts as zero. -/
def counter (I : Interpreter) (info : Fields) (key : String) : Except PyError Int :=
  match Json.getOr info (Text.lit key) with
  | none => .ok 0
  | some v =>
    match v.toInt I with
    | .ok n => .ok n
    | .error .typeError => .ok 0
    | .error .valueError => .ok 0
    | .error e => .error e

inductive Severity
  | ignored
  | notice
  deriving DecidableEq, Repr

/-- The keys of `WARN_PREFIX`. -/
def Severity.ofText (t : Text) : Option Severity :=
  if t = Text.lit "IGNORED" then some .ignored
  else if t = Text.lit "NOTICE" then some .notice
  else none

/-- The values of `WARN_PREFIX`. -/
def Severity.warnPrefix : Severity → Text
  | .ignored => Text.lit "IG"
  | .notice => Text.lit "NT"

def finding (u : Ucd) : Json → Option (Severity × Text)
  | .obj item =>
    (Severity.ofText (u.upperText (Json.textOr u item (Text.lit "errtype") []))).map fun s =>
      (s, Text.strip (Json.textOr u item (Text.lit "errcode") []))
  | _ => none

def itemsOf (info : Fields) : List Json :=
  match info.lookup (Text.lit "items") with
  | some (.arr items) => items
  | _ => []

def codedFindings (u : Ucd) (info : Fields) : List (Severity × Text) :=
  ((itemsOf info).filterMap (finding u)).filter (·.2 ≠ [])

def warnCode (f : Severity × Text) : Text := f.1.warnPrefix ++ 58 :: f.2

def warningCodes (u : Ucd) (info : Fields) : List Text × Bool :=
  (((codedFindings u info).map warnCode).dedup.insertionSort (· ≤ ·),
    (codedFindings u info).any (·.1 = .ignored))

/-- Equal, for Python, to one of `None`, `""`, `0` and `"0"`. -/
def isNoErrcode : Json → Bool
  | .null => true
  | .bool b => !b
  | .int n => n = 0
  | .float r => Json.isZeroFloat r
  | .str t => t = [] || t = Text.lit "0"
  | _ => false

/-- What an item says, in `_rejection_detail`. -/
def itemDetail (u : Ucd) (item : Fields) : Option Text :=
  let code := Text.join [32] (["errtype", "errcode"].filterMap fun key =>
    (Json.present item (Text.lit key)).map (Json.toText u))
  match code, Json.getOr item (Text.lit "msg") with
  | [], none => none
  | [], some msg => some (msg.toText u)
  | code, none => some code
  | code, some msg => some (91 :: code ++ Text.lit "] " ++ msg.toText u)

def rejectionDetail (u : Ucd) (info : Fields) : Text :=
  let main := match info.lookup (Text.lit "main_errcode") with
    | some v => if isNoErrcode v then [] else [Text.lit "main_errcode=" ++ v.toText u]
    | none => []
  let items := ((itemsOf info).take 3).filterMap fun
    | .obj item => itemDetail u item
    | _ => none
  (Text.join (Text.lit "; ") (main ++ items)).take 500

-- ---------------------------------------------------------------------------
-- Classifying
-- ---------------------------------------------------------------------------

def withDetail (error detail : Text) : Text :=
  if detail = [] then error else error ++ Text.lit ": " ++ detail

def notable (u : Ucd) (info : Fields) : List Text :=
  ((codedFindings u info).map (·.2)).filter (· ∉ benignWarningCodes)

/-- `components_dropped` in `_map_state` -/
def droppedComponents (I : Interpreter) (info : Fields) : Except PyError Bool :=
  if (warningCodes I.ucd info).2 then .ok true
  else do .ok (decide (0 < (← counter I info "ig")))

/-- `has_warnings` in `_map_state` -/
def warned (I : Interpreter) (info : Fields) (state : Text) (dropped : Bool) :
    Except PyError Bool :=
  if notable I.ucd info ≠ [] ∨ dropped then .ok true
  else if (warningCodes I.ucd info).1 ≠ [] then .ok false
  else if state = Text.lit "nt" then .ok true
  else do .ok (decide (0 < (← counter I info "nt")))

def mapState (I : Interpreter) (info : Fields) (state : Option Text) (httpStatus : Nat)
    (text : Text) : Except PyError UploadResult := do
  let responseText := some (text.take responseTextLimit)
  let warnCodes := (warningCodes I.ucd info).1
  let componentsDropped ← droppedComponents I info
  let detail := rejectionDetail I.ucd info
  match state with
  | some st =>
    if st = Text.lit "ok" ∨ st = Text.lit "nt" then do
      let erCount ← counter I info "er"
      if 0 < erCount then
        .ok {
          status := .rejected
          state, responseText, warnCodes, componentsDropped
          httpStatus := some httpStatus
          error := some (withDetail (Text.ofInt erCount ++
            Text.lit " component(s) rejected within accepted request") detail) }
      else do
        let hasWarnings ← warned I info st componentsDropped
        .ok {
          status := .sent
          state, responseText, hasWarnings, warnCodes, componentsDropped
          httpStatus := some httpStatus }
    else if st = Text.lit "er" then
      .ok {
        status := .rejected
        state, responseText, warnCodes, componentsDropped
        httpStatus := some httpStatus
        error := some (withDetail (Text.lit "rejected by UBKI (state=er)") detail) }
    else if st = Text.lit "sy" then
      .ok {
        status := .failed
        state, responseText
        httpStatus := some httpStatus
        error := some (Text.lit "UBKI system error (state=sy)")
        isNetworkError := true }
    else
      .ok {
        status := .failed
        state, responseText
        httpStatus := some httpStatus
        error := some (Text.lit "unknown state: " ++ I.ucd.repr st) }
  | none =>
    .ok {
      status := .failed
      responseText
      httpStatus := some httpStatus
      error := some (Text.lit "unknown state: None") }

/-- The code that `_interpret_response` compares with the session codes. -/
def errcode (data : Json) : Option Json :=
  match Json.present (sentdatainfo data) (Text.lit "main_errcode"), data with
  | some code, _ => some code
  | none, .obj fields => Json.present fields (Text.lit "errcode")
  | none, _ => none

def staleSession (resp : Response) (error : Text) : UploadResult where
  status := .failed
  httpStatus := some resp.statusCode
  responseText := some (resp.text.take responseTextLimit)
  error := some error
  isNetworkError := true
  sessionExpired := true

/-- The end of `_interpret_response`, where the body decided nothing. -/
def byStatus (resp : Response) : UploadResult :=
  let responseText := some (resp.text.take responseTextLimit)
  let httpStatus := some resp.statusCode
  let error := Text.lit "HTTP " ++ Text.ofNat resp.statusCode
  if 500 ≤ resp.statusCode then
    { status := .failed, httpStatus, responseText, error := some error, isNetworkError := true }
  else if resp.statusCode ≠ 200 then
    { status := .failed, httpStatus, responseText, error := some error }
  else
    { status := .failed, httpStatus, responseText
      error := some (Text.lit "non-JSON response") }

/-- The session code that a body with HTTP status 200 reports. -/
def reportedStale (I : Interpreter) (resp : Response) (data : Json) : Option Json :=
  if resp.statusCode = 200 then
    (errcode data).filter (·.toText I.ucd ∈ sessionExpiredErrcodes)
  else none

/-- `state` of a body. -/
def stateOf (I : Interpreter) (info : Fields) : Option Text :=
  (Json.present info (Text.lit "state")).map fun v => I.lower (v.toText I.ucd)

def interpretResponse (I : Interpreter) (resp : Response) : Except PyError UploadResult :=
  if resp.statusCode = 401 ∨ resp.statusCode = 403 then
    .ok (staleSession resp
      (Text.lit "HTTP " ++ Text.ofNat resp.statusCode ++ Text.lit " (session rejected)"))
  else
    match resp.json with
    | none | some .null => .ok (byStatus resp)
    | some data =>
      match reportedStale I resp data with
      | some code => .ok (staleSession resp (Text.lit "session errcode " ++ code.toText I.ucd))
      | none =>
        let info := sentdatainfo data
        let state := stateOf I info
        if resp.statusCode < 500 ∧ (resp.statusCode = 200 ∨ state.isSome) then
          mapState I info state resp.statusCode resp.text
        else .ok (byStatus resp)

end UbkiUploader
