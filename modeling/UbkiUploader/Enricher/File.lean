import UbkiUploader.Enricher.Issuers
import UbkiUploader.Enricher.Package
import UbkiUploader.Uploader.Run

/-!
# One raw file (app/enricher.py, `process_file`)

Read, parse, fetch, enrich, write. Everything made durable is a `FileEffect`, and a
run keeps the list of its effects: a run that is cut off has made those of a prefix
of it.
-/

namespace UbkiUploader

-- ---------------------------------------------------------------------------
-- Reading
-- ---------------------------------------------------------------------------

/-- cp1251 from 0x80 up to the letters; 0x98 is free. -/
def cp1251Table : List Nat :=
  [0x402, 0x403, 0x201A, 0x453, 0x201E, 0x2026, 0x2020, 0x2021,
    0x20AC, 0x2030, 0x409, 0x2039, 0x40A, 0x40C, 0x40B, 0x40F,
    0x452, 0x2018, 0x2019, 0x201C, 0x201D, 0x2022, 0x2013, 0x2014,
    0, 0x2122, 0x459, 0x203A, 0x45A, 0x45C, 0x45B, 0x45F,
    0xA0, 0x40E, 0x45E, 0x408, 0xA4, 0x490, 0xA6, 0xA7,
    0x401, 0xA9, 0x404, 0xAB, 0xAC, 0xAD, 0xAE, 0x407,
    0xB0, 0xB1, 0x406, 0x456, 0x491, 0xB5, 0xB6, 0xB7,
    0x451, 0x2116, 0x454, 0xBB, 0x458, 0x405, 0x455, 0x457]

def cp1251Char (b : UInt8) : Option Nat :=
  if b.toNat < 0x80 then some b.toNat
  else if b.toNat = 0x98 then none
  else if b.toNat < 0xC0 then cp1251Table[b.toNat - 0x80]?
  else some (0x410 + (b.toNat - 0xC0))

/-- `raw.decode("cp1251")` -/
def decodeCp1251 (raw : ByteArray) : Option Text := raw.data.toList.mapM cp1251Char

/-- UTF-8, with the fallback; `none` is UnicodeDecodeError. -/
def decodeRaw (raw : ByteArray) : Option Text := (Text.decodeUtf8 raw).or (decodeCp1251 raw)

/-- `[(n, line) for n, line in enumerate(text.splitlines(), start=1) if line.strip()]` -/
def numberedLines (text : Text) : List (Nat × Text) :=
  ((Text.splitlines text).zipIdx 1).filterMap fun (line, n) =>
    if isBlank line then none else some (n, line)

def readNumberedLines (raw : ByteArray) : Option (List (Nat × Text)) :=
  (decodeRaw raw).map numberedLines

-- ---------------------------------------------------------------------------
-- Parsing
-- ---------------------------------------------------------------------------

/-- What `process_file` needs from outside. `levels` is how deep the interpreter lets
JSON nest; `json.dumps` goes no deeper than `json.loads` went. -/
structure EnrichEnv where
  ucd : Ucd
  floats : Floats
  levels : Nat
  config : Config
  sha256 : ByteArray → Text
  utcnow : Timestamp
  fetch : List Text → Rows
  fetchIssuers : List Cell → Peers

/-- An environment for ASCII with these fetchers; the digest tells sizes apart. -/
def EnrichEnv.ascii (fetch : List Text → Rows) (fetchIssuers : List Cell → Peers) :
    EnrichEnv where
  ucd := .ascii
  floats := Interpreter.ascii.floats
  levels := 100
  config := {}
  sha256 b := Text.hex 64 b.size
  utcnow := 0
  fetch
  fetchIssuers

def quarantineKeys : List Text := [Text.lit "line_no", Text.lit "reason", Text.lit "line"]

/-- `set(obj.keys()) == _QUARANTINE_KEYS` -/
def isWrapper (obj : Fields) : Bool :=
  obj.all (·.1 ∈ quarantineKeys) && quarantineKeys.all fun key => (obj.lookup key).isSome

variable (env : EnrichEnv)

/-- `json.loads`, under the handler of ValueError in `process_file`. -/
def jsonLoads (doc : Text) : Except Halt Json :=
  match Json.loads env.floats env.levels doc with
  | .ok v => .ok v
  | .error .recursion => .error (.raise .recursionError)
  | .error e => .error (.quarantine (.brokenJson (e.text doc)))

def unwrapQuarantine : Json → Except Halt Json
  | .obj obj =>
    if isWrapper obj then
      match obj.lookup (Text.lit "line") with
      | some (.str inner) => jsonLoads env inner
      | some inner => .ok inner
      | none => .error (.raise .keyError)
    else .ok (.obj obj)
  | v => .ok v

def lineObject (raw : Text) : Except Halt Fields := do
  let v ← jsonLoads env raw
  match (← unwrapQuarantine env v) with
  | .obj obj => .ok obj
  | _ => .error (.quarantine .notAnObject)

/-- The `dlref` of a deal that is asked for, as it stands. -/
def wantedDlref (u : Ucd) : Json → Option Text
  | .obj deal => (Json.getOr deal (Text.lit "dlref")).map (Json.toText u)
  | _ => none

/-- `for deal in obj.get("deals") or []`, over any value. -/
def lineDlrefs (u : Ucd) (obj : Fields) : Except PyError (List Text) :=
  match Json.getOr obj (Text.lit "deals") with
  | none => .ok []
  | some (.arr deals) => .ok (deals.filterMap (wantedDlref u))
  -- characters and keys are no deals
  | some (.str _) => .ok []
  | some (.obj _) => .ok []
  | some _ => .error .typeError

structure Parsed where
  lineNo : Nat
  raw : Text
  obj : Except Reason Fields

/-- One turn of the first loop, with the dlrefs it adds. -/
def parseLine (line : Nat × Text) : Except PyError (Parsed × List Text) :=
  match lineObject env line.2 with
  | .error (.raise e) => .error e
  | .error (.quarantine r) => .ok (⟨line.1, line.2, .error r⟩, [])
  | .ok obj => do .ok (⟨line.1, line.2, .ok obj⟩, ← lineDlrefs env.ucd obj)

/-- `sorted(dlrefs)` of a set -/
def sortedDlrefs (dlrefs : List Text) : List Text := dlrefs.dedup.insertionSort (· ≤ ·)

def fetchRows (dlrefs : List Text) : Rows :=
  if dlrefs = [] then ∅ else env.fetch (sortedDlrefs dlrefs)

def fetchPeers (need : List Cell) : Peers :=
  if need = [] then fun _ => [] else env.fetchIssuers need

-- ---------------------------------------------------------------------------
-- Enriching
-- ---------------------------------------------------------------------------

structure QuarantineRecord where
  lineNo : Nat
  reason : Reason
  line : Text
  deriving DecidableEq

def QuarantineRecord.toJson (u : Ucd) (r : QuarantineRecord) : Json :=
  .obj [(Text.lit "line_no", .int r.lineNo), (Text.lit "reason", .str (r.reason.text u)),
    (Text.lit "line", .str r.line)]

/-- `json.dumps(record, ensure_ascii=False)` -/
def QuarantineRecord.dumps (u : Ucd) (r : QuarantineRecord) : Text := (r.toJson u).dumps .standard

/-- The counters of `EnrichSummary` that `process_file` touches. -/
structure EnrichSummary where
  filesProcessed : Nat := 0
  filesEmpty : Nat := 0
  linesTotal : Nat := 0
  linesEnriched : Nat := 0
  linesQuarantined : Nat := 0
  linesIssuerFromPeer : Nat := 0
  linesDocIncomplete : Nat := 0
  quarantineReasons : List Text := []
  deriving DecidableEq

structure Batch where
  enriched : List Text := []
  quarantined : List QuarantineRecord := []
  summary : EnrichSummary

def EnrichSummary.count (s : EnrichSummary) (stats : DocStats) : EnrichSummary :=
  { s with
    linesIssuerFromPeer := s.linesIssuerFromPeer + if stats.issuerFromPeer then 1 else 0
    linesDocIncomplete := s.linesDocIncomplete + if stats.docIncomplete then 1 else 0 }

def verdict (rows : Rows) (peers : Peers) (obj : Except Reason Fields) :
    Except Halt (Subject × DocStats) :=
  match obj with
  | .error r => .error (.quarantine r)
  | .ok obj => enrichLine env.ucd env.config rows peers obj

/-- The second loop; with the batch comes the exception, if one was raised. -/
def enrichLines (rows : Rows) (peers : Peers) : List Parsed → Batch → Batch × Option PyError
  | [], b => (b, none)
  | p :: ps, b =>
    match verdict env rows peers p.obj with
    | .error (.raise e) => (b, some e)
    | .error (.quarantine reason) =>
      enrichLines rows peers ps
        { b with quarantined := b.quarantined ++ [⟨p.lineNo, reason, p.raw⟩] }
    | .ok (subject, stats) =>
      enrichLines rows peers ps
        { b with enriched := b.enriched ++ [subject.dumps], summary := b.summary.count stats }

-- ---------------------------------------------------------------------------
-- Writing
-- ---------------------------------------------------------------------------

structure Mount where
  host : Host
  raw : Folder Text := ∅
  quarantine : Folder Text := ∅
  processed : Folder Text := ∅

inductive Shelf
  | inbox
  | quarantine
  deriving DecidableEq, Repr

def Mount.shelf (m : Mount) : Shelf → Folder Text
  | .inbox => m.host.inbox
  | .quarantine => m.quarantine

def Mount.setShelf (m : Mount) (folder : Folder Text) : Shelf → Mount
  | .inbox => { m with host := { m.host with inbox := folder } }
  | .quarantine => { m with quarantine := folder }

/-- What processing a file makes durable in one step. -/
inductive FileEffect
  /-- `tmp.write_bytes(data)` -/
  | write (shelf : Shelf) (name : Text) (data : ByteArray)
  /-- `tmp.rename(target)` -/
  | rename (shelf : Shelf) (name target : Text)
  /-- `path.rename(...)` -/
  | toProcessed (name target : Text)
  | insertEnriched (filename sha256 : Text) (linesTotal linesEnriched linesQuarantined : Nat)
      (now : Timestamp)

def FileEffect.apply (m : Mount) : FileEffect → Mount
  | .write shelf name data => m.setShelf ((m.shelf shelf).write name data) shelf
  | .rename shelf name target => m.setShelf ((m.shelf shelf).rename name target) shelf
  | .toProcessed name target =>
    let moved := m.raw.move m.processed name target
    { m with raw := moved.1, processed := moved.2 }
  | .insertEnriched filename sha256 linesTotal linesEnriched linesQuarantined now =>
    { m with host := { m.host with
        db := m.host.db.insertEnrichedFile filename sha256 linesTotal linesEnriched
          linesQuarantined now } }

def prefixedName (name sha256 : Text) : Text := sha256.take 8 ++ Text.lit "_" ++ name

/-- Hidden, so that the uploader's scan does not see it. -/
def tmpName (target : Text) : Text := Text.lit "." ++ target ++ Text.lit ".tmp"

/-- The name `_write_enriched` writes under. -/
def enrichedTarget (folder : Folder Text) (name sha256 : Text) (data : ByteArray) : Text :=
  match folder.read name with
  | some held => if held ≠ data then prefixedName name sha256 else name
  | none => name

def quarantineTarget (folder : Folder Text) (name sha256 : Text) (data : ByteArray) : Text :=
  match folder.read name with
  | some held => if held ≠ data then uniqueTarget folder name sha256 else name
  | none => name

/-- A file that is there already is reused; else it appears at once under its name. -/
def writeAtomic (shelf : Shelf) (folder : Folder Text) (target : Text) (data : ByteArray) :
    List FileEffect :=
  if folder.read target = some data then []
  else [.write shelf (tmpName target) data, .rename shelf (tmpName target) target]

/-- `("\n".join(lines) + "\n").encode("utf-8")`; `none` is UnicodeEncodeError. -/
def encodeLines (lines : List Text) : Option ByteArray :=
  Text.encodeUtf8 (Text.join [10] lines ++ [10])

def enrichedEffects (folder : Folder Text) (name sha256 : Text) (lines : List Text) :
    Option (List FileEffect) :=
  if lines = [] then some []
  else (encodeLines lines).map fun data =>
    writeAtomic .inbox folder (enrichedTarget folder name sha256 data) data

def quarantineEffects (folder : Folder Text) (name sha256 : Text) (lines : List Text) :
    Option (List FileEffect) :=
  if lines = [] then some []
  else (encodeLines lines).map fun data =>
    writeAtomic .quarantine folder (quarantineTarget folder name sha256 data) data

/-- A run of `process_file`. -/
structure FileRun where
  effects : List FileEffect := []
  summary : EnrichSummary
  raised : Option PyError := none

def writeOut (m : Mount) (name sha256 : Text) (linesTotal : Nat) (b : Batch) : FileRun :=
  match enrichedEffects m.host.inbox name sha256 b.enriched with
  | none => { summary := b.summary, raised := some .unicodeEncodeError }
  | some inbox =>
    match quarantineEffects m.quarantine name sha256 (b.quarantined.map (·.dumps env.ucd)) with
    | none => { effects := inbox, summary := b.summary, raised := some .unicodeEncodeError }
    | some quarantine =>
      { effects := inbox ++ quarantine ++
          [.toProcessed name (uniqueTarget m.processed name sha256),
            .insertEnriched name sha256 linesTotal b.enriched.length
              b.quarantined.length env.utcnow]
        summary := { b.summary with
          linesEnriched := b.summary.linesEnriched + b.enriched.length
          linesQuarantined := b.summary.linesQuarantined + b.quarantined.length
          quarantineReasons := b.summary.quarantineReasons ++ b.quarantined.map fun r =>
            name ++ Text.lit ":" ++ Text.ofNat r.lineNo ++ Text.lit ": " ++
              r.reason.text env.ucd } }

def enrichAll (numbered : List (Nat × Text)) (summary : EnrichSummary) : Batch × Option PyError :=
  match numbered.mapM (parseLine env) with
  | .error e => ({ summary }, some e)
  | .ok parsed =>
    let rows := fetchRows env (parsed.flatMap (·.2))
    match clientsMissingIssuer env.ucd rows with
    | .error e => ({ summary }, some e)
    | .ok need => enrichLines env rows (fetchPeers env need) (parsed.map (·.1)) { summary }

def EnrichSummary.discovered (s : EnrichSummary) (numbered : List (Nat × Text)) : EnrichSummary :=
  { s with
    filesProcessed := s.filesProcessed + 1
    linesTotal := s.linesTotal + numbered.length
    filesEmpty := s.filesEmpty + if numbered = [] then 1 else 0 }

/-- `process_file`, of the file `name` with the content `raw`. -/
def processFile (m : Mount) (name : Text) (raw : ByteArray) (summary : EnrichSummary)
    (dryRun : Bool) : FileRun :=
  let sha := env.sha256 raw
  if (m.host.db.getEnrichedByIdentity name sha).isSome then { summary }
  else
    match readNumberedLines raw with
    | none => { summary, raised := some .unicodeDecodeError }
    | some numbered =>
      let summary := summary.discovered numbered
      if dryRun then { summary }
      else
        match enrichAll env numbered summary with
        | (b, some e) => { summary := b.summary, raised := some e }
        | (b, none) => writeOut env m name sha numbered.length b

end UbkiUploader
