import Mathlib.Data.List.MinMax
import UbkiUploader.Config
import UbkiUploader.Enricher.Cabinet
import UbkiUploader.Lib.Fallible
import UbkiUploader.Lib.Numbers

/-!
# One line of a raw file (app/enricher.py, `enrich_line`)

The blocks of a subject and the checks before them, in the order of the source. A
line that cannot be enriched is quarantined for a reason; an exception that no
code of the module catches leaves `process_file`. Both end the computation, so both
are errors here, and told apart.
-/

namespace UbkiUploader

inductive Reason
  | brokenJson (exc : Text)
  | notAnObject
  | noInn
  | noDeals
  | noDlref
  | unknownDlref (dlref : Text)
  | differentClients (userIds : List Cell)
  | cabinetHasNoInn (inn : Text)
  | innMismatch (inn : Text)
  | noAppliedAt
  | unsupportedPassport
  | noPassport
  | noPhone
  | missingNames
  | bdateContradicts (bdate inn expected : Text)
  deriving DecidableEq

def Reason.text (u : Ucd) : Reason → Text
  | .brokenJson exc => Text.lit "broken JSON: " ++ exc
  | .notAnObject => Text.lit "line is not a JSON object"
  | .noInn => Text.lit "line has no inn"
  | .noDeals => Text.lit "line has no deals"
  | .noDlref => Text.lit "deal has no dlref"
  | .unknownDlref dlref => Text.lit "dlref " ++ dlref ++ Text.lit " not found in cabinet DB"
  | .differentClients ids =>
    Text.lit "deals belong to different clients: user_ids=[" ++
      Text.join (Text.lit ", ") (ids.map (Cell.repr u)) ++ Text.lit "]"
  | .cabinetHasNoInn inn =>
    Text.lit "cabinet client has no inn (users.social_number is empty), file has " ++ inn
  | .innMismatch inn =>
    Text.lit "inn mismatch: file has " ++ inn ++ Text.lit ", cabinet client has different inn"
  | .noAppliedAt => Text.lit "application has no applied_at (vdate)"
  | .unsupportedPassport =>
    Text.lit "unsupported passport format (neither 2 letters + 6 digits nor 9 digits)"
  | .noPassport =>
    Text.lit "no passport number in the cabinet (both the application snapshot and users are empty)"
  | .noPhone => Text.lit "no valid phone (contacts block is mandatory)"
  | .missingNames => Text.lit "line is missing lname/fname/bdate"
  | .bdateContradicts bdate inn expected =>
    Text.lit "bdate " ++ bdate ++ Text.lit " contradicts the date encoded in inn " ++ inn ++
      Text.lit " (expected " ++ expected ++ Text.lit ")"

/-- How the computation for a line ends early. -/
inductive Halt
  | quarantine (r : Reason)
  | raise (e : PyError)
  deriving DecidableEq

-- ---------------------------------------------------------------------------
-- The tax id
-- ---------------------------------------------------------------------------

def isTaxId (u : Ucd) (inn : Text) : Bool := u.isdigit inn && inn.length = 10

/-- `date(1899, 12, 31)` -/
def epoch : Calendar.Date := ⟨1899, 12, 31, by decide, by decide, by decide⟩

/-- `_inn_birthday`; digits that `int` does not read are a ValueError, caught. -/
def innBirthday (u : Ucd) (inn : Text) : Option Text :=
  if isTaxId u inn then
    ((u.int? (inn.take 5)).bind epoch.addDays).map Calendar.Date.isoformat
  else none

/-- `_inn_sex`, where the ValueError is not caught. -/
def innSex (u : Ucd) (inn : Text) : Except Halt (Option Text) :=
  if isTaxId u inn then
    match u.int? (inn.drop 8 |>.take 1) with
    | some digit => .ok (some (Text.lit (if digit % 2 = 1 then "1" else "2")))
    | none => .error (.raise .valueError)
  else .ok none

-- ---------------------------------------------------------------------------
-- Documents
-- ---------------------------------------------------------------------------

structure DocNumber where
  dtype : Text
  dser : Text
  dnom : Text
  deriving DecidableEq

def docTypePassport : Text := Text.lit "1"

def docTypeIdCard : Text := Text.lit "17"

def parseDocNumber (u : Ucd) (value : Cell) : Option DocNumber :=
  let number := normalizeNumber u value
  if number = [] then none
  else if u.decimals 9 number then some ⟨docTypeIdCard, [], number⟩
  else if number.length = 8 && u.isdigit (number.drop 2) && !(number.take 2).any u.isDigit then
    some ⟨docTypePassport, number.take 2, number.drop 2⟩
  else none

/-- What `_find_peer_document` returns. -/
structure PeerDocument where
  issuer : Text
  issuedAt : Option Text

def peerCandidates (u : Ucd) (peers : List Peer) (number : Text) : List Peer :=
  peers.filter fun peer =>
    normalizeNumber u peer.passport.number = number && peer.passport.issuedBy.stripped ≠ []

def findPeerDocument (u : Ucd) (peers : List Peer) (number : Text) : Option PeerDocument :=
  ((peerCandidates u peers number).argmax fun peer => sortKey peer.appliedAt).map fun newest =>
    { issuer := newest.passport.issuedBy.stripped, issuedAt := isoDate u newest.passport.date }

def plusYears (isoDay : Text) (years : Nat) : Except Halt Text :=
  match (Calendar.fromisoformat isoDay).bind (·.plusYears years) with
  | some day => .ok day.isoformat
  | none => .error (.raise .valueError)

structure Doc extends DocNumber where
  vdate : Text
  dwho : Option Text
  dwdt : Option Text
  dterm : Option Text
  deriving DecidableEq

def docFields (vdate : Text) (n : DocNumber) (issuedBy : Text) (issuedAt : Option Text) :
    Except Halt Doc := do
  let dwho := if issuedBy = [] then none else some issuedBy
  match issuedAt with
  | none => .ok { n with vdate, dwho, dwdt := none, dterm := none }
  | some day =>
    if n.dtype = docTypeIdCard then
      let dterm ← plusYears day 10
      .ok { n with vdate, dwho, dwdt := some day, dterm := some dterm }
    else .ok { n with vdate, dwho, dwdt := some day, dterm := none }

structure DocStats where
  issuerFromPeer : Bool := false
  docIncomplete : Bool := false
  deriving DecidableEq

/-- The issuer and the issue date that a source has, or the peers for it, and
whether a peer was used. -/
def docIssuer (u : Ucd) (peers : List Peer) (source : PassportCells) (number : Text) :
    Text × Option Text × Bool :=
  let issuedBy := source.issuedBy.stripped
  let issuedAt := isoDate u source.date
  if issuedBy = [] then
    match findPeerDocument u peers number with
    | some peer => (peer.issuer, issuedAt.or peer.issuedAt, true)
    | none => (issuedBy, issuedAt, false)
  else (issuedBy, issuedAt, false)

/-- The loop of `build_doc` over the sources: with the best document so far, and
whether any number was seen. -/
def buildDocFrom (u : Ucd) (vdate : Text) (peers : List Peer) :
    List PassportCells → Option Doc → Bool → Except Halt (Doc × DocStats)
  | [], some doc, _ => .ok (doc, { docIncomplete := true })
  | [], none, true => .error (.quarantine .unsupportedPassport)
  | [], none, false => .error (.quarantine .noPassport)
  | source :: sources, incomplete, sawAnyNumber =>
    let number := normalizeNumber u source.number
    if number = [] then buildDocFrom u vdate peers sources incomplete sawAnyNumber
    else
      match parseDocNumber u (.str number) with
      | none => buildDocFrom u vdate peers sources incomplete true
      | some parsed => do
        let (issuedBy, issuedAt, usedPeer) := docIssuer u peers source number
        let doc ← docFields vdate parsed issuedBy issuedAt
        if issuedBy ≠ [] ∧ issuedAt.isSome then .ok (doc, { issuerFromPeer := usedPeer })
        else buildDocFrom u vdate peers sources (incomplete.or (some doc)) true

def buildDoc (u : Ucd) (row : Row) (vdate : Text) (peers : List Peer) :
    Except Halt (Doc × DocStats) := buildDocFrom u vdate peers row.sources none false

-- ---------------------------------------------------------------------------
-- The subject
-- ---------------------------------------------------------------------------

structure Ident where
  vdate : Text
  inn : Text
  lname : Text
  fname : Text
  /-- Empty when the line has none, and then left out. -/
  mname : Text
  bdate : Text
  csex : Option Text
  deriving DecidableEq

structure Addr where
  vdate : Text
  fields : List (Text × Text)
  deriving DecidableEq

structure Contact where
  vdate : Text
  cval : Text
  deriving DecidableEq

structure Subject where
  reqlng : Text
  inn : Text
  personId : Text
  lname : Text
  fname : Text
  mname : Text
  bdate : Text
  ident : Ident
  doc : Doc
  addr : Addr
  deals : List Fields
  contact : Contact

def buildAddr (row : Row) (vdate : Text) : Addr where
  vdate
  fields := [("adindex", row.addrPostcode), ("adcity", row.addrCity), ("adstreet", row.addrStreet),
      ("adhome", row.addrHouse), ("adcorp", row.addrBuilding), ("adflat", row.addrFlat)].filterMap
    fun (target, source) =>
      if source.stripped = [] then none else some (Text.lit target, source.stripped)

/-- `str(line_obj.get(key) or "").strip()` -/
def lineText (u : Ucd) (line : Fields) (key : String) : Text :=
  Text.strip (Json.textOr u line (Text.lit key) [])

def lineInn (u : Ucd) (line : Fields) : Except Halt Text :=
  if lineText u line "inn" = [] then .error (.quarantine .noInn) else .ok (lineText u line "inn")

def lineDeals (line : Fields) : Except Halt (List Json) :=
  match line.lookup (Text.lit "deals") with
  | some (.arr (deal :: deals)) => .ok (deal :: deals)
  | _ => .error (.quarantine .noDeals)

/-- The `dlref` of a deal; empty for what is not an object. -/
def dealDlref (u : Ucd) : Json → Text
  | .obj deal => lineText u deal "dlref"
  | _ => []

def dealRow (u : Ucd) (rows : Rows) (deal : Json) : Except Halt Row :=
  if dealDlref u deal = [] then .error (.quarantine .noDlref)
  else
    match rows.lookup (dealDlref u deal) with
    | none => .error (.quarantine (.unknownDlref (dealDlref u deal)))
    | some row => .ok row

def oneClient (dealRows : List Row) : Except Halt Unit :=
  let userIds := (dealRows.map (·.userId)).dedup
  if userIds.length > 1 then
    match Cell.sorted? userIds with
    | none => .error (.raise .typeError)
    | some ids => .error (.quarantine (.differentClients ids))
  else .ok ()

/-- `max(deal_rows, key=...)`; of no rows it raises ValueError. -/
def newestRow (dealRows : List Row) : Except Halt Row :=
  match dealRows.argmax fun row => sortKey row.appliedAt with
  | none => .error (.raise .valueError)
  | some newest => .ok newest

def verifyInn (inn : Text) (newest : Row) : Except Halt Unit :=
  if newest.userInn.stripped = inn then .ok ()
  else if newest.userInn.stripped = [] then .error (.quarantine (.cabinetHasNoInn inn))
  else .error (.quarantine (.innMismatch inn))

def rowVdate (u : Ucd) (newest : Row) : Except Halt Text :=
  match isoDate u newest.appliedAt with
  | none => .error (.quarantine .noAppliedAt)
  | some vdate => .ok vdate

def rowPhone (u : Ucd) (newest : Row) : Except Halt Text :=
  match (normalizePhone u newest.snapPhone).or (normalizePhone u newest.userPhone) with
  | none => .error (.quarantine .noPhone)
  | some phone => .ok phone

/-- `lname`, `fname` and `bdate` of a line. -/
def lineNames (u : Ucd) (line : Fields) : Except Halt (Text × Text × Text) :=
  let lname := lineText u line "lname"
  let fname := lineText u line "fname"
  let bdate := lineText u line "bdate"
  if lname ≠ [] ∧ fname ≠ [] ∧ bdate ≠ [] then .ok (lname, fname, bdate)
  else .error (.quarantine .missingNames)

/-- The birth date does not contradict the tax id. -/
def checkBdate (u : Ucd) (inn bdate : Text) : Except Halt Unit :=
  match innBirthday u inn with
  | none => .ok ()
  | some expected =>
    if u.isIsoDay (bdate.take 10) ∧ bdate.take 10 ≠ expected then
      .error (.quarantine (.bdateContradicts bdate inn expected))
    else .ok ()

/-- A deal as it is sent: an object, with `dlvidobes`. -/
def outDeal (config : Config) : Json → Fields
  | .obj deal =>
    if (deal.lookup (Text.lit "dlvidobes")).isSome then deal
    else deal ++ [(Text.lit "dlvidobes", .str config.dealVidobes)]
  | _ => []

def enrichLine (u : Ucd) (config : Config) (rows : Rows) (peers : Peers) (line : Fields) :
    Except Halt (Subject × DocStats) := do
  let inn ← lineInn u line
  let deals ← lineDeals line
  let dealRows ← deals.mapM (dealRow u rows)
  oneClient dealRows
  let newest ← newestRow dealRows
  verifyInn inn newest
  let vdate ← rowVdate u newest
  let (doc, stats) ← buildDoc u newest vdate (peers newest.userId)
  let phone ← rowPhone u newest
  let (lname, fname, bdate) ← lineNames u line
  let mname := lineText u line "mname"
  checkBdate u inn bdate
  let csex ← innSex u inn
  .ok ({
    reqlng := Json.textOr u line (Text.lit "reqlng") (Text.lit "1")
    inn, lname, fname, mname, bdate, doc
    personId := newest.userId.toText
    ident := { vdate, inn, lname, fname, mname, bdate, csex }
    addr := buildAddr newest vdate
    deals := deals.map (outDeal config)
    contact := { vdate, cval := phone } }, stats)

end UbkiUploader
