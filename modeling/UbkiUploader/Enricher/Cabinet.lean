import UbkiUploader.Lib.Calendar
import UbkiUploader.Lib.Unicode

/-!
# The cabinet

What the fetchers return (`FETCH_SQL`, `FETCH_ISSUERS_SQL`): the columns that are
read, each holding what a MySQL driver puts there, and the readers of single cells.
-/

namespace UbkiUploader

open Calendar (Date Time)

/-- A column of a row. Integers are those of MySQL, far from the limits of `str`. -/
inductive Cell
  | null
  | str (t : Text)
  | int (n : Int)
  | date (d : Date)
  | datetime (d : Date) (t : Time)
  deriving DecidableEq

namespace Cell

/-- `bool(value)` -/
def truthy : Cell → Bool
  | .null => false
  | .str t => t ≠ []
  | .int n => n ≠ 0
  | _ => true

/-- `str(value)` -/
def toText : Cell → Text
  | .null => Text.lit "None"
  | .str t => t
  | .int n => Text.ofInt n
  | .date d => d.isoformat
  | .datetime d t => d.isoformat ++ 32 :: t.isoformat

/-- `str(value or "")` -/
def textOr (c : Cell) : Text := if c.truthy then c.toText else []

/-- `str(value or "").strip()` -/
def stripped (c : Cell) : Text := Text.strip c.textOr

/-- The arguments in the `repr` of a time: zeros at its end are left out. -/
def timeArgs (t : Time) : List Nat :=
  [t.hour.val, t.minute.val] ++
    if t.microsecond.val ≠ 0 then [t.second.val, t.microsecond.val]
    else if t.second.val ≠ 0 then [t.second.val] else []

def callText (name : String) (args : List Nat) : Text :=
  Text.lit name ++ Text.lit "(" ++ Text.join (Text.lit ", ") (args.map Text.ofNat) ++ Text.lit ")"

/-- `repr(value)` -/
def repr (u : Ucd) : Cell → Text
  | .null => Text.lit "None"
  | .str t => u.repr t
  | .int n => Text.ofInt n
  | .date d => callText "datetime.date" [d.year, d.month, d.day]
  | .datetime d t => callText "datetime.datetime" ([d.year, d.month, d.day] ++ timeArgs t)

/-- Values that `<` compares; on others it raises TypeError. -/
def comparable : Cell → Cell → Bool
  | .str _, .str _ => true
  | .int _, .int _ => true
  | .date _, .date _ => true
  | .datetime .., .datetime .. => true
  | _, _ => false

def le : Cell → Cell → Bool
  | .str a, .str b => a ≤ b
  | .int a, .int b => a ≤ b
  | .date a, .date b => a.ordinal ≤ b.ordinal
  | .datetime a s, .datetime b t =>
    a.ordinal < b.ordinal || (a.ordinal = b.ordinal && s.isoformat ≤ t.isoformat)
  | _, _ => false

/-- `sorted(values)` of a set; `none` is TypeError. A sort puts neighbours in order
by comparing, so it raises as soon as two values cannot be. -/
def sorted? (values : List Cell) : Option (List Cell) :=
  if values.Pairwise fun a b => comparable a b then some (values.insertionSort fun a b => le a b)
  else none

end Cell

def isoDate (u : Ucd) : Cell → Option Text
  | .null => none
  | .str [] => none
  | .date d => some d.isoformat
  | .datetime d _ => some d.isoformat
  | value =>
    let text := Text.strip value.toText
    if u.isIsoDay text then (Calendar.fromisoformat text).map Date.isoformat else none

def sortKey : Cell → Text
  | .null => []
  | .str [] => []
  | .date d => d.isoformat
  | .datetime d t => d.isoformat ++ 84 :: t.isoformat
  | value => Text.strip value.toText

def normalizePhone (u : Ucd) (value : Cell) : Option Text :=
  let digits := value.textOr.filter u.isDecimal
  if digits.length = 12 && (Text.lit "380").isPrefixOf digits then some (43 :: digits)
  else if digits.length = 10 && [48].isPrefixOf digits then some (Text.lit "+38" ++ digits)
  else none

def normalizeNumber (u : Ucd) (value : Cell) : Text :=
  u.upperText (value.textOr.filter (!Text.isSpace ·))

/-- The columns of a document: of the application's snapshot (`snap_`) or of `users`
(`user_`). -/
structure PassportCells where
  number : Cell
  date : Cell
  issuedBy : Cell
  deriving DecidableEq

/-- A row of `FETCH_SQL`. -/
structure Row where
  userId : Cell
  appliedAt : Cell
  snap : PassportCells
  user : PassportCells
  snapPhone : Cell
  userPhone : Cell
  userInn : Cell
  addrPostcode : Cell
  addrCity : Cell
  addrStreet : Cell
  addrHouse : Cell
  addrBuilding : Cell
  addrFlat : Cell
  deriving DecidableEq

/-- The documents of a row, in the order they are tried. -/
def Row.sources (row : Row) : List PassportCells := [row.snap, row.user]

/-- A row of `FETCH_ISSUERS_SQL`. -/
structure Peer where
  passport : PassportCells
  appliedAt : Cell
  deriving DecidableEq

/-- The rows of the applications asked for, by `str(id)`. -/
abbrev Rows := AList fun _ : Text => Row

abbrev Peers := Cell → List Peer

-- ---------------------------------------------------------------------------
-- Laws
-- ---------------------------------------------------------------------------

theorem fromisoformat_isoDate (h : isoDate u c = some t) :
    ∃ d, Calendar.fromisoformat t = some d ∧ d.isoformat = t := by
  have hof (d : Date) (hd : d.isoformat = t) :
      ∃ d, Calendar.fromisoformat t = some d ∧ d.isoformat = t :=
    ⟨d, hd ▸ Calendar.fromisoformat_isoformat d, hd⟩
  unfold isoDate at h
  split at h
  · cases h
  · cases h
  · exact hof _ (Option.some.inj h)
  · exact hof _ (Option.some.inj h)
  · simp only at h
    split at h
    · obtain ⟨d, -, hd⟩ := Option.map_eq_some_iff.mp h
      exact hof d hd
    · cases h

theorem isSpace_of_mem_normalizeNumber (h : c ∈ normalizeNumber u value) :
    Text.isSpace c = false := by
  obtain ⟨d, hd, hc⟩ := List.mem_flatMap.mp h
  rw [u.isSpace_upper d c hc]
  simpa using (List.mem_filter.mp hd).2

theorem normalizeNumber_idem :
    normalizeNumber u (.str (normalizeNumber u value)) = normalizeNumber u value := by
  have htext : Cell.textOr (.str (normalizeNumber u value)) = normalizeNumber u value := by
    simp only [Cell.textOr, Cell.truthy, Cell.toText, ne_eq, decide_not, Bool.not_eq_true',
      decide_eq_false_iff_not, ite_not]
    split
    · exact (‹_› : _ = _).symm
    · rfl
  rw [normalizeNumber, htext, List.filter_eq_self.mpr]
  · rw [normalizeNumber, u.upperText_upperText]
  · intro c hc
    rw [isSpace_of_mem_normalizeNumber hc]
    rfl

end UbkiUploader
