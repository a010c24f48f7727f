import UbkiUploader.Backfill.Expand

/-!
# The tool's run with `--output` (backfill_deallife.py, `main`)

The lines that are selected, what is written for each, and how the run ends. The file
is opened before the first line is processed, and an exception leaves in it what was
written until then.
-/

namespace UbkiUploader

/-- A line as `read_file_lines` and `read_db_lines` return it: decoded, so that it can be
encoded again. -/
abbrev SourceLine := { line : Text // line.Encodes }

/-- `MAX_LINE_BYTES` -/
def backfillMaxLineBytes : Nat := 1800000

/-- What the command line sets, beside the source and `--output`. With `--sample` no file
is opened at all. -/
structure BackfillArgs where
  limit : Option Int := none
  shuffle : Option Int := none
  probe : Option Int := none
  maxStep : Int := 92
  includeFinal : Bool := false
  includeMultiDeal : Bool := false

/-- `random.Random(seed).shuffle` -/
structure Shuffle where
  run : Int → List SourceLine → List SourceLine
  perm : ∀ seed lines, (run seed lines).Perm lines

/-- The interpreter that runs the tool; `levels` is how deep it lets JSON nest. -/
structure BackfillEnv where
  interpreter : Interpreter
  levels : Nat
  shuffle : Shuffle

/-- `new_stats` -/
structure BackfillStats where
  subjects : Nat := 0
  deals : Nat := 0
  oversized : Nat := 0
  maxBytes : Nat := 0
  expand : ExpandStats := {}
  deriving DecidableEq, Repr

variable (env : BackfillEnv)

/-- `json.loads` under the handler of JSONDecodeError, the only one there is. -/
def parseSubject (line : Text) : Except PyError (Option Json) :=
  match Json.loads env.interpreter.floats env.levels line with
  | .ok v => .ok (some v)
  | .error (.decode _ _) => .ok none
  | .error (.digits _) => .error .valueError
  | .error .recursion => .error .recursionError

-- ---------------------------------------------------------------------------
-- The selection
-- ---------------------------------------------------------------------------

/-- What `_stratified` knows of a subject. -/
structure ProbeEntry where
  deals : Nat
  span : Int
  bytes : Nat
  line : SourceLine

/-- `max(span, …)` over the months of a deal. -/
def dealSpan (I : Interpreter) (span : Int) (deal : Json) : Except PyError Int :=
  match deal with
  | .obj fields => do
    match ← firstSlice (Json.getOr fields (Text.lit "deallife")) with
    | .obj current =>
      match parseIso I (getField current "dldpf"), Json.getOr current (Text.lit "dlyear") with
      | some dpf, some year => do
        let year ← year.toInt I
        let month ← match Json.getOr current (Text.lit "dlmonth") with
          | none => .ok 1
          | some month => month.toInt I
        .ok (max span ((year - dpf.year) * 12 + month - dpf.month))
      | _, _ => .ok span
    | _ => .error .attributeError
  | _ => .error .attributeError

def probeLine (line : SourceLine) : Except PyError (Option ProbeEntry) := do
  match ← parseSubject env line.1 with
  | none => .ok none
  | some (.obj subject) => do
    let deals ← subjectDeals subject
    let span ← deals.foldlM (dealSpan env.interpreter) 0
    .ok (some ⟨deals.length, span, line.1.utf8Size, line⟩)
  | some _ => .error .attributeError

/-- `take` -/
def pick (picked : List SourceLine) (line : SourceLine) : List SourceLine :=
  if line ∈ picked then picked else picked ++ [line]

/-- `l[::step]` -/
def everyNth {α : Type} (step : Nat) (l : List α) : List α :=
  (l.zipIdx.filter fun e => e.2 % step = 0).map (·.1)

/-- `max(l, key=key)`: the first of the greatest. -/
def maxBy {α : Type} (key : α → Int) : List α → Option α
  | [] => none
  | a :: l => some (l.foldl (fun best b => if key best < key b then b else best) a)

def stratified (lines : List SourceLine) (want : Int) : Except PyError (List SourceLine) := do
  let parsed := (← lines.mapM (probeLine env)).reduceOption
  let byDeals := parsed.mergeSort fun a b => b.deals ≤ a.deals
  match maxBy (·.span) parsed, maxBy (·.bytes) parsed with
  | some longest, some biggest =>
    let several := (byDeals.takeWhile fun e => 2 ≤ e.deals).map (·.line)
    let picked := (several ++ [longest.line, biggest.line]).foldl pick []
    let rest := (parsed.map (·.line)).filter (· ∉ picked)
    let step := max 1 (rest.length / max 1 (want - picked.length).toNat)
    .ok ((everyNth step rest).foldl
      (fun picked line => if want ≤ picked.length then picked else pick picked line) picked)
  -- `max` of nothing
  | _, _ => .error .valueError

/-- The lines that the loop of `main` goes over. -/
def selectLines (args : BackfillArgs) (lines : List SourceLine) :
    Except PyError (List SourceLine) :=
  let lines := match args.shuffle with
    | none => lines
    | some seed => env.shuffle.run seed lines
  match args.probe with
  | none => .ok lines
  | some want => if want = 0 then .ok lines else stratified env lines want

-- ---------------------------------------------------------------------------
-- The loop
-- ---------------------------------------------------------------------------

def processLine (args : BackfillArgs) (line : SourceLine) (stats : BackfillStats) :
    Except PyError (Text × BackfillStats) := do
  let counted := { stats with subjects := stats.subjects + 1 }
  match ← parseSubject env line.1 with
  | none => .ok (line.1, counted)
  | some (.obj subject) => do
    let deals ← subjectDeals subject
    let (out, expand) ← expandSubject env.interpreter subject stats.expand args.maxStep
      args.includeFinal args.includeMultiDeal
    assertChainSane env.interpreter out args.maxStep
    let counted := { counted with deals := stats.deals + deals.length, expand }
    let payload := (Json.obj out).dumps .compact
    match payload.encodeUtf8 with
    | none => .error .unicodeEncodeError
    | some bytes =>
      if bytes.size > backfillMaxLineBytes then
        .ok (line.1, { counted with oversized := stats.oversized + 1 })
      else .ok (payload, { counted with maxBytes := max stats.maxBytes bytes.size })
  -- a subject that is no object has no `get`
  | some _ => .error .attributeError

/-- The lines written, each followed by a line feed, and the counters at the end or what
ended the loop before it. -/
def writeLines (args : BackfillArgs) :
    List SourceLine → BackfillStats → List Text × Except PyError BackfillStats
  | [], stats => ([], .ok stats)
  | line :: lines, stats =>
    if args.limit.any (· ≤ (stats.subjects : Int)) then ([], .ok stats)
    else
      match processLine env args line stats with
      | .error e => ([], .error e)
      | .ok (out, stats) =>
        let (written, ended) := writeLines args lines stats
        (out :: written, ended)

structure BackfillRun where
  output : Option (List Text)
  result : Except PyError Nat
  deriving DecidableEq

/-- `main` with `--output` -/
def backfillMain (args : BackfillArgs) (lines : List SourceLine) : BackfillRun :=
  if lines = [] then ⟨none, .ok 1⟩
  else
    match selectLines env args lines with
    | .error e => ⟨none, .error e⟩
    | .ok selected =>
      let (written, ended) := writeLines env args selected {}
      ⟨some written, ended.map fun _ => 0⟩

end UbkiUploader
