import UbkiUploader.Lib.Calendar
import UbkiUploader.Lib.Fallible
import UbkiUploader.Lib.Numbers

/-!
# Full chains of slices (backfill_deallife.py)

`expand_subject` and what it is made of, with the counters it keeps, and the check
that is made of its result. A subject is what `json.loads` returned, so any value
can stand in any field, and code that the source does not guard raises.
-/

namespace UbkiUploader

open Calendar (Date daysInMonth)

/-- The counters of `new_stats` that the expansion keeps. -/
structure ExpandStats where
  dealsExpanded : Nat := 0
  slicesWritten : Nat := 0
  dealUnexpectedShape : Nat := 0
  keptBelowThreshold : Nat := 0
  keptBadDldpf : Nat := 0
  keptFinalStatus : Nat := 0
  keptBadPeriod : Nat := 0
  keptAmtexpZero : Nat := 0
  keptMultiDeal : Nat := 0
  zeroDaySlicesDropped : Nat := 0
  dldffStripped : Nat := 0
  dldffDroppedHistorical : Nat := 0
  maxSlices : Nat := 0
  deriving DecidableEq, Repr

/-- Why a deal is kept as it is. -/
inductive Keep
  | belowThreshold
  | badDldpf
  | finalStatus
  | amtexpZero
  | badPeriod
  deriving DecidableEq, Repr

/-- `stats["kept_" + keep] += 1` -/
def ExpandStats.countKept (s : ExpandStats) : Keep → ExpandStats
  | .belowThreshold => { s with keptBelowThreshold := s.keptBelowThreshold + 1 }
  | .badDldpf => { s with keptBadDldpf := s.keptBadDldpf + 1 }
  | .finalStatus => { s with keptFinalStatus := s.keptFinalStatus + 1 }
  | .amtexpZero => { s with keptAmtexpZero := s.keptAmtexpZero + 1 }
  | .badPeriod => { s with keptBadPeriod := s.keptBadPeriod + 1 }

def finalStatuses : List Int := [2, 3, 6, 7, 10, 11, 12, 13, 14]

variable (I : Interpreter)

-- ---------------------------------------------------------------------------
-- Dates
-- ---------------------------------------------------------------------------

/-- `d.get(key)` -/
def getField (fields : Fields) (key : String) : Json := (fields.lookup (Text.lit key)).getD .null

/-- `parse_iso`; whatever it raises is caught. -/
def parseIso (value : Json) : Option Date :=
  match (value.toText I.ucd).splitOnP (· = 45) with
  | [y, m, d] => do
    let y ← I.ucd.parseInt y
    let m ← I.ucd.parseInt m
    let d ← I.ucd.parseInt d
    -- a negative number is no year, month or day, and neither is zero
    Date.mk? y.toNat m.toNat d.toNat
  | _ => none

/-- `date(y, m, monthrange(y, m)[1])` -/
def monthEnd (y m : Nat) : Except PyError Date :=
  match Date.mk? y m (daysInMonth y m) with
  | some d => .ok d
  | none => .error .valueError

def nextMonth : Nat × Nat → Nat × Nat
  | (y, m) => if m + 1 > 12 then (y + 1, 1) else (y, m + 1)

def monthsFrom : Nat → Nat × Nat → List (Nat × Nat)
  | 0, _ => []
  | n + 1, p => p :: monthsFrom n (nextMonth p)

/-- `month_iter`: its loop runs as often as there are months before the end. -/
def monthIter (start : Date) (endYear endMonth : Nat) : List (Nat × Nat) :=
  monthsFrom (12 * endYear + endMonth - (12 * start.year + start.month)) (start.year, start.month)

-- ---------------------------------------------------------------------------
-- Slices
-- ---------------------------------------------------------------------------

/-- The key that an item of a sequence has in `dict`, where keys that are no strings are
known by what `json.dumps` writes of them. -/
def dictKey : Json → Except PyError Text
  | .str t => .ok t
  | .arr _ => .error .typeError
  | .obj _ => .error .typeError
  | v => .ok (v.dumps .standard)

/-- An item of a sequence as `dict` takes it: a pair. -/
def dictItem : Json → Except PyError (Text × Json)
  | .arr [k, v] => do .ok (← dictKey k, v)
  | .str [k, v] => .ok ([k], .str [v])
  | .obj [(k, _), (v, _)] => .ok (k, .str v)
  | .arr _ => .error .valueError
  | .str _ => .error .valueError
  | .obj _ => .error .valueError
  | _ => .error .typeError

/-- `dict(v)` -/
def toDict : Json → Except PyError Fields
  | .obj fields => .ok fields
  | .arr items => do .ok (Json.dictOf (← items.mapM dictItem))
  | .str [] => .ok []
  | .str _ => .error .valueError
  | _ => .error .typeError

def eraseField (key : Text) (fields : Fields) : Fields := fields.filter (·.1 ≠ key)

/-- `_clean`, after `dict(template)` -/
def clean (s : Fields) (stats : ExpandStats) : Fields × ExpandStats :=
  if (s.lookup (Text.lit "dldff")).isSome ∧ parseIso I (getField s "dldff") = none then
    (eraseField (Text.lit "dldff") s, { stats with dldffStripped := stats.dldffStripped + 1 })
  else (s, stats)

/-- `(a - b).days`, or 0 when it is negative -/
def daysSince (a b : Date) : Nat := a.ordinal - b.ordinal

def makeSlice (template : Fields) (dpf clc : Date) (historical : Bool) (stats : ExpandStats) :
    Fields × ExpandStats :=
  let (s, stats) := clean I template stats
  let s := Json.setField (Text.lit "dlmonth") (.int clc.month) s
  let s := Json.setField (Text.lit "dlyear") (.int clc.year) s
  let s := Json.setField (Text.lit "dldateclc") (.str clc.isoformat) s
  let s := Json.setField (Text.lit "dldayexp") (.int (daysSince clc dpf)) s
  if historical then
    (eraseField (Text.lit "dldff") s,
      { stats with dldffDroppedHistorical := stats.dldffDroppedHistorical +
          if (Json.present s (Text.lit "dldff")).isSome then 1 else 0 })
  else (s, stats)

/-- The slices of the months before the last; those of no days are dropped. -/
def historicalSlices (template : Fields) (dpf : Date) :
    List (Nat × Nat) → ExpandStats → Except PyError (List Fields × ExpandStats)
  | [], stats => .ok ([], stats)
  | (y, m) :: months, stats => do
    let clc ← monthEnd y m
    let (slice, stats) := makeSlice I template dpf clc true stats
    if daysSince clc dpf = 0 then
      historicalSlices template dpf months
        { stats with zeroDaySlicesDropped := stats.zeroDaySlicesDropped + 1 }
    else do
      let (chain, stats) ← historicalSlices template dpf months stats
      .ok (slice :: chain, stats)

-- ---------------------------------------------------------------------------
-- Deals
-- ---------------------------------------------------------------------------

/-- The only slice of `deal.get("deallife") or []`; `none` where there is not one. -/
def onlySlice : Option Json → Except PyError (Option Fields)
  | none => .ok none
  | some (.arr [.obj current]) => .ok (some current)
  -- the slice has no `get`
  | some (.arr [_]) => .error .attributeError
  | some (.arr _) => .ok none
  | some (.str [_]) => .error .attributeError
  | some (.str _) => .ok none
  -- no key is 0
  | some (.obj [_]) => .error .keyError
  | some (.obj _) => .ok none
  -- no length
  | some _ => .error .typeError

/-- A handler of TypeError and ValueError. -/
def caught {α : Type} (default : α) : Except PyError α → Except PyError α
  | .error .typeError => .ok default
  | .error .valueError => .ok default
  | r => r

/-- `int(d.get(key) or 0)` -/
def intField (fields : Fields) (key : String) : Except PyError Int :=
  match Json.getOr fields (Text.lit key) with
  | none => .ok 0
  | some v => v.toInt I

/-- `float(d.get(key) or 0) == 0` -/
def amountZero (fields : Fields) (key : String) : Except PyError Bool :=
  match Json.getOr fields (Text.lit key) with
  | none => .ok true
  | some v => (v.toFloat I).map Json.isZeroFloat

/-- `dldpf`, unless there is a reason to keep the deal. -/
def chainStart (current : Fields) (maxStep : Int) (includeFinal : Bool) :
    Except PyError (Except Keep Date) := do
  let exp ← caught 0 (intField I current "dldayexp")
  let dpf := parseIso I (getField current "dldpf")
  let flstat ← caught none (((getField current "dlflstat").toInt I).map some)
  let amtZero ← caught true (amountZero I current "dlamtexp")
  .ok (if exp ≤ maxStep then .error .belowThreshold
    else
      match dpf with
      | none => .error .badDldpf
      | some dpf =>
        if flstat.any (· ∈ finalStatuses) && !includeFinal then .error .finalStatus
        else if amtZero then .error .amtexpZero
        else .ok dpf)

def slicesValue (slices : List Fields) : Json := .arr (slices.map .obj)

/-- `out = dict(deal); out["deallife"] = [_clean(current, stats)]` -/
def keepDeal (deal current : Fields) (stats : ExpandStats) : Fields × ExpandStats :=
  let (slice, stats) := clean I current stats
  (Json.setField (Text.lit "deallife") (slicesValue [slice]) deal, stats)

/-- The calculation date of the last slice: the end of the month where there is none. -/
def finalClc (current : Fields) (endYear endMonth : Nat) : Except PyError Date :=
  match parseIso I (getField current "dldateclc") with
  | some clc => .ok clc
  | none => monthEnd endYear endMonth

/-- The chain up to `(endYear, endMonth)`. -/
def expandChain (deal current : Fields) (dpf : Date) (endYear endMonth : Nat)
    (stats : ExpandStats) : Except PyError (Fields × ExpandStats) := do
  let clc ← finalClc I current endYear endMonth
  let (chain, stats) ← historicalSlices I current dpf (monthIter dpf endYear endMonth) stats
  let (last, stats) := makeSlice I current dpf clc false stats
  let chain := chain ++ [last]
  .ok (Json.setField (Text.lit "deallife") (slicesValue chain) deal,
    { stats with
      dealsExpanded := stats.dealsExpanded + 1
      slicesWritten := stats.slicesWritten + chain.length
      maxSlices := max stats.maxSlices chain.length })

/-- `expand_deal` of an object -/
def expandFields (maxStep : Int) (includeFinal : Bool) (deal : Fields) (stats : ExpandStats) :
    Except PyError (Fields × ExpandStats) := do
  match ← onlySlice (Json.getOr deal (Text.lit "deallife")) with
  | none => .ok (deal, { stats with dealUnexpectedShape := stats.dealUnexpectedShape + 1 })
  | some current =>
    match ← chainStart I current maxStep includeFinal with
    | .error keep => .ok (keepDeal I deal current (stats.countKept keep))
    | .ok dpf =>
      let endYear ← intField I current "dlyear"
      let endMonth ← intField I current "dlmonth"
      if 1 ≤ endMonth ∧ endMonth ≤ 12 ∧ 2000 ≤ endYear then
        expandChain I deal current dpf endYear.toNat endMonth.toNat stats
      else .ok (keepDeal I deal current (stats.countKept .badPeriod))

def expandDeal (maxStep : Int) (includeFinal : Bool) (deal : Json) (stats : ExpandStats) :
    Except PyError (Json × ExpandStats) :=
  match deal with
  | .obj fields => do
    let (out, stats) ← expandFields I maxStep includeFinal fields stats
    .ok (.obj out, stats)
  | _ => .error .attributeError

-- ---------------------------------------------------------------------------
-- Subjects
-- ---------------------------------------------------------------------------

/-- `subject.get("deals") or []`, where it has a length and then is looped over. -/
def subjectDeals (subject : Fields) : Except PyError (List Json) :=
  match Json.getOr subject (Text.lit "deals") with
  | none => .ok []
  | some (.arr deals) => .ok deals
  -- characters and keys have no `get`
  | some (.str _) => .error .attributeError
  | some (.obj _) => .error .attributeError
  | some _ => .error .typeError

/-- `(d.get("deallife") or [{}])[0]` -/
def firstSlice : Option Json → Except PyError Json
  | none => .ok (.obj [])
  | some (.arr (slice :: _)) => .ok slice
  | some (.arr []) => .error .indexError
  | some (.str (c :: _)) => .ok (.str [c])
  | some (.str []) => .error .indexError
  | some (.obj _) => .error .keyError
  | some _ => .error .typeError

/-- `dict(d, deallife=[_clean(first slice, stats)])` -/
def keepMultiDeal (deal : Json) (stats : ExpandStats) : Except PyError (Json × ExpandStats) :=
  match deal with
  | .obj fields => do
    let template ← toDict (← firstSlice (Json.getOr fields (Text.lit "deallife")))
    let (out, stats) := keepDeal I fields template stats
    .ok (.obj out, stats)
  | _ => .error .attributeError

def eachDeal (step : Json → ExpandStats → Except PyError (Json × ExpandStats)) :
    List Json → ExpandStats → Except PyError (List Json × ExpandStats)
  | [], stats => .ok ([], stats)
  | deal :: deals, stats => do
    let (out, stats) ← step deal stats
    let (outs, stats) ← eachDeal step deals stats
    .ok (out :: outs, stats)

/-- The deals of `expand_subject`: several are not expanded unless asked for. -/
def expandDeals (maxStep : Int) (includeFinal includeMultiDeal : Bool) (deals : List Json)
    (stats : ExpandStats) : Except PyError (List Json × ExpandStats) :=
  if deals.length > 1 ∧ includeMultiDeal = false then
    eachDeal (keepMultiDeal I) deals
      { stats with keptMultiDeal := stats.keptMultiDeal + deals.length }
  else eachDeal (expandDeal I maxStep includeFinal) deals stats

def expandSubject (subject : Fields) (stats : ExpandStats) (maxStep : Int)
    (includeFinal includeMultiDeal : Bool) : Except PyError (Fields × ExpandStats) := do
  let deals ← subjectDeals subject
  let (outs, stats) ← expandDeals I maxStep includeFinal includeMultiDeal deals stats
  .ok (Json.setField (Text.lit "deals") (.arr outs) subject, stats)

-- ---------------------------------------------------------------------------
-- The check of the result
-- ---------------------------------------------------------------------------

/-- `s[key]` -/
def index (key : String) : Json → Except PyError Json
  | .obj fields =>
    match fields.lookup (Text.lit key) with
    | some v => .ok v
    | none => .error .keyError
  | _ => .error .typeError

/-- `s.get("dlamtexp")`, once `s` has been indexed by keys -/
def sliceAmountZero : Json → Except PyError Bool
  | .obj fields => amountZero I fields "dlamtexp"
  | _ => .error .attributeError

def assert (p : Prop) [Decidable p] : Except PyError Unit :=
  if p then .ok () else .error .assertionError

structure SliceAt where
  exp : Int
  year : Int
  month : Int

def sliceAt (s : Json) : Except PyError SliceAt := do
  let exp ← (← index "dldayexp" s).toInt I
  let year ← (← index "dlyear" s).toInt I
  let month ← (← index "dlmonth" s).toInt I
  .ok ⟨exp, year, month⟩

/-- A slice comes after another, no further than `maxStep`. -/
def follows (maxStep : Int) (prev next : SliceAt) : Except PyError Unit := do
  assert (prev.exp ≤ next.exp)
  assert (next.exp - prev.exp ≤ maxStep)
  assert (prev.year < next.year ∨ prev.year = next.year ∧ prev.month < next.month)

/-- The loop over the slices, after `prev`. -/
def assertSlices (maxStep : Int) : Option SliceAt → List Json → Except PyError Unit
  | _, [] => .ok ()
  | prev, s :: slices => do
    let at_ ← sliceAt I s
    let amtZero ← sliceAmountZero I s
    assert (decide (at_.exp = 0) = amtZero)
    match prev with
    | none => assertSlices maxStep (some at_) slices
    | some prev => do
      follows maxStep prev at_
      assertSlices maxStep (some at_) slices

/-- `assert_chain_sane` on the slices of a deal that has two or more. -/
def assertLife (maxStep : Int) : List Json → Except PyError Unit
  | [] => .ok ()
  | first :: slices => do
    let exp ← (← index "dldayexp" first).toInt I
    assert (exp ≤ 31)
    assertSlices I maxStep none (first :: slices)

/-- `assert_chain_sane`, on one deal. -/
def assertDealSane (maxStep : Int) (deal : Json) : Except PyError Unit :=
  match deal with
  | .obj fields =>
    match Json.getOr fields (Text.lit "deallife") with
    | none => .ok ()
    | some (.arr slices) => if slices.length < 2 then .ok () else assertLife I maxStep slices
    -- a character is not indexed by keys
    | some (.str t) => if t.length < 2 then .ok () else .error .typeError
    | some (.obj life) => if life.length < 2 then .ok () else .error .keyError
    | some _ => .error .typeError
  | _ => .error .attributeError

def assertChainSane (subject : Fields) (maxStep : Int) : Except PyError Unit := do
  (← subjectDeals subject).forM (assertDealSane I maxStep)

end UbkiUploader
