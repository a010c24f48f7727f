import UbkiUploader.Lib.Text

/-!
# Dates and times

The values of `datetime.date` and of a naive `datetime.datetime`, their ISO texts,
and the arithmetic of days. A date carries its validity, so that every date there
is has a text, and every such text is read back.
-/

namespace Calendar

def isLeap (y : Nat) : Bool := y % 4 = 0 && (y % 100 ≠ 0 || y % 400 = 0)

def daysInMonth (y m : Nat) : Nat :=
  if m = 2 then if isLeap y then 29 else 28
  else if m = 4 ∨ m = 6 ∨ m = 9 ∨ m = 11 then 30 else 31

def yearLength (y : Nat) : Nat := if isLeap y then 366 else 365

/-- The dates of Python: years 1 to 9999. -/
structure Date where
  year : Nat
  month : Nat
  day : Nat
  year_valid : 1 ≤ year ∧ year ≤ 9999
  month_valid : 1 ≤ month ∧ month ≤ 12
  day_valid : 1 ≤ day ∧ day ≤ daysInMonth year month
  deriving DecidableEq

/-- `date(y, m, d)`; `none` is ValueError. -/
def Date.mk? (y m d : Nat) : Option Date :=
  if h : (1 ≤ y ∧ y ≤ 9999) ∧ (1 ≤ m ∧ m ≤ 12) ∧
    (1 ≤ d ∧ d ≤ daysInMonth y m) then
    some ⟨y, m, d, h.1, h.2.1, h.2.2⟩
  else none

structure Time where
  hour : Fin 24
  minute : Fin 60
  second : Fin 60
  microsecond : Fin 1000000
  deriving DecidableEq

-- ---------------------------------------------------------------------------
-- Texts
-- ---------------------------------------------------------------------------

/-- The last `width` decimal digits of a number. -/
def pad : Nat → Nat → Text
  | 0, _ => []
  | width + 1, n => pad width (n / 10) ++ [48 + n % 10]

/-- `d.isoformat()` of a date -/
def Date.isoformat (d : Date) : Text := pad 4 d.year ++ 45 :: pad 2 d.month ++ 45 :: pad 2 d.day

/-- The microseconds are written only when there are any. -/
def Time.isoformat (t : Time) : Text :=
  pad 2 t.hour ++ 58 :: pad 2 t.minute ++ 58 :: pad 2 t.second ++
    if t.microsecond = 0 then [] else 46 :: pad 6 t.microsecond

def digits? (t : Text) : Option Nat :=
  if t.all fun c => 48 ≤ c && c ≤ 57 then
    some (t.foldl (fun n c => 10 * n + (c - 48)) 0)
  else none

/-- `date.fromisoformat(t)` of a text of the shape `\d{4}-\d{2}-\d{2}`; `none` is
ValueError, also for digits outside ASCII. -/
def fromisoformat : Text → Option Date
  | [a, b, c, d, 45, e, f, 45, g, h] => do
    Date.mk? (← digits? [a, b, c, d]) (← digits? [e, f]) (← digits? [g, h])
  | _ => none

theorem Date.mk?_self (d : Date) : Date.mk? d.year d.month d.day = some d :=
  dif_pos ⟨d.year_valid, d.month_valid, d.day_valid⟩

theorem Date.mk?_eq_some_iff {d : Date} :
    Date.mk? y m n = some d ↔ d.year = y ∧ d.month = m ∧ d.day = n := by
  constructor
  · intro h
    unfold Date.mk? at h
    split at h
    · cases h
      exact ⟨rfl, rfl, rfl⟩
    · cases h
  · rintro ⟨rfl, rfl, rfl⟩
    exact d.mk?_self

theorem daysInMonth_le (y m : Nat) : daysInMonth y m ≤ 31 := by
  unfold daysInMonth
  split
  · split <;> omega
  · split <;> omega

theorem length_pad (width n : Nat) : (pad width n).length = width := by
  induction width generalizing n with
  | zero => rfl
  | succ width ih => rw [pad, List.length_append, ih, List.length_singleton]

theorem digit_of_mem_pad (h : c ∈ pad width n) : 48 ≤ c ∧ c ≤ 57 := by
  induction width generalizing n with
  | zero => cases h
  | succ width ih =>
    rcases List.mem_append.mp h with h | h
    · exact ih h
    · rw [List.mem_singleton.mp h]
      omega

theorem encodes_pad (width n : Nat) : (pad width n).Encodes := by
  refine Text.encodes_of_ascii fun c hc => ?_
  have := digit_of_mem_pad hc
  omega

theorem encodes_isoformat (d : Date) : d.isoformat.Encodes := by
  have hdash (n : Nat) : Text.Encodes (45 :: pad 2 n) :=
    Text.encodes_append.mpr ⟨Text.encodes_lit "-", encodes_pad 2 n⟩
  rw [Date.isoformat]
  exact Text.encodes_append.mpr
    ⟨Text.encodes_append.mpr ⟨encodes_pad 4 _, hdash _⟩, hdash _⟩

theorem encodes_time (t : Time) : t.isoformat.Encodes := by
  have hcolon (n : Nat) : Text.Encodes (58 :: pad 2 n) :=
    Text.encodes_append.mpr ⟨Text.encodes_lit ":", encodes_pad 2 n⟩
  have hfraction : Text.Encodes (if t.microsecond = 0 then [] else 46 :: pad 6 t.microsecond) := by
    split
    · exact Text.encodes_lit ""
    · exact Text.encodes_append.mpr ⟨Text.encodes_lit ".", encodes_pad 6 _⟩
  rw [Time.isoformat]
  exact Text.encodes_append.mpr ⟨Text.encodes_append.mpr ⟨Text.encodes_append.mpr
    ⟨encodes_pad 2 _, hcolon _⟩, hcolon _⟩, hfraction⟩

theorem digits?_pad (h : n < 10 ^ width) : digits? (pad width n) = some n := by
  have hall : (pad width n).all fun c => 48 ≤ c && c ≤ 57 := by
    simp only [List.all_eq_true, Bool.and_eq_true, decide_eq_true_eq]
    exact fun c => digit_of_mem_pad
  rw [digits?, if_pos hall, Option.some.injEq]
  clear hall
  induction width generalizing n with
  | zero =>
    rw [Nat.lt_one_iff.mp h]
    rfl
  | succ width ih =>
    rw [pad, List.foldl_append, ih (by omega)]
    simp only [List.foldl_cons, List.foldl_nil]
    omega

theorem fromisoformat_isoformat (d : Date) : fromisoformat d.isoformat = some d := by
  have hy : digits? (pad 4 d.year) = some d.year := digits?_pad (by have := d.year_valid; omega)
  have hm : digits? (pad 2 d.month) = some d.month := digits?_pad (by have := d.month_valid; omega)
  have hd : digits? (pad 2 d.day) = some d.day :=
    digits?_pad (by have := d.day_valid; have := daysInMonth_le d.year d.month; omega)
  simp only [pad, List.nil_append, List.cons_append] at hy hm hd
  simp only [Date.isoformat, pad, List.nil_append, List.cons_append, fromisoformat, hy, hm, hd]
  exact d.mk?_self

-- ---------------------------------------------------------------------------
-- Days
-- ---------------------------------------------------------------------------

/-- The days of the months before month `m`. -/
def daysBeforeMonth (y : Nat) : Nat → Nat
  | 0 => 0
  | 1 => 0
  | m + 2 => daysBeforeMonth y (m + 1) + daysInMonth y (m + 1)

/-- The days of the years before year `y`. -/
def daysBeforeYear : Nat → Nat
  | 0 => 0
  | y + 1 => daysBeforeYear y + yearLength y

def Date.ordinal (d : Date) : Nat :=
  daysBeforeYear d.year + daysBeforeMonth d.year d.month + d.day

/-- The date that is the `n`-th day from the beginning of month `m`, within as many
months. -/
def inYear (y : Nat) : Nat → Nat → Nat → Option Date
  | 0, _, _ => none
  | months + 1, m, n =>
    if n ≤ daysInMonth y m then Date.mk? y m n
    else inYear y months (m + 1) (n - daysInMonth y m)

/-- The date that is the `n`-th day from the beginning of year `y`, within as many
years. -/
def fromYear : Nat → Nat → Nat → Option Date
  | 0, _, _ => none
  | years + 1, y, n =>
    if n ≤ yearLength y then inYear y 12 1 n else fromYear years (y + 1) (n - yearLength y)

/-- `d + timedelta(days=n)`; `none` is OverflowError. -/
def Date.addDays (d : Date) (n : Nat) : Option Date :=
  fromYear (10000 - d.year) d.year (daysBeforeMonth d.year d.month + d.day + n)

/-- `d.replace(year=d.year + n)`, with the 28th for a day that the year lacks;
`none` is ValueError. -/
def Date.plusYears (d : Date) (n : Nat) : Option Date :=
  (Date.mk? (d.year + n) d.month d.day).or (Date.mk? (d.year + n) d.month 28)

theorem daysBeforeMonth_year (y : Nat) : daysBeforeMonth y 13 = yearLength y := by
  simp only [daysBeforeMonth, daysInMonth, yearLength]
  cases isLeap y <;> rfl

theorem inYear_isSome (hy : 1 ≤ y ∧ y ≤ 9999) (hm : 1 ≤ m) (hmonths : m + months = 13)
    (hn : 1 ≤ n) (hle : daysBeforeMonth y m + n ≤ yearLength y) :
    (inYear y months m n).isSome := by
  induction months generalizing m n with
  | zero =>
    obtain rfl : m = 13 := by omega
    rw [daysBeforeMonth_year] at hle
    omega
  | succ months ih =>
    rw [inYear]
    split
    · rename_i hday
      rw [Date.mk?, dif_pos ⟨hy, ⟨hm, by omega⟩, hn, hday⟩]
      rfl
    · obtain ⟨k, rfl⟩ : ∃ k, m = k + 1 := ⟨m - 1, by omega⟩
      refine ih (by omega) (by omega) (by omega) ?_
      rw [daysBeforeMonth]
      omega

theorem fromYear_isSome (hlast : last ≤ 10000) (hy : 1 ≤ y)
    (hyears : y + years = last) (hn : 1 ≤ n)
    (hle : daysBeforeYear y + n ≤ daysBeforeYear last) : (fromYear years y n).isSome := by
  induction years generalizing y n with
  | zero =>
    obtain rfl : y = last := by omega
    omega
  | succ years ih =>
    rw [fromYear]
    split
    · exact inYear_isSome ⟨hy, by omega⟩ (Nat.le_refl 1) rfl hn
        (by rw [daysBeforeMonth]; omega)
    · refine ih (by omega) (by omega) (by omega) ?_
      rw [daysBeforeYear]
      omega

theorem daysBeforeYear_add_le (y k : Nat) :
    daysBeforeYear y + 365 * k ≤ daysBeforeYear (y + k) := by
  induction k with
  | zero => simp
  | succ k ih =>
    have hlen : 365 ≤ yearLength (y + k) := by
      unfold yearLength
      split <;> omega
    calc daysBeforeYear y + 365 * (k + 1)
        = daysBeforeYear y + 365 * k + 365 := by rw [Nat.mul_succ, Nat.add_assoc]
      _ ≤ daysBeforeYear (y + k) + yearLength (y + k) := Nat.add_le_add ih hlen

/-- Days can be added as long as a year of 365 days would still be one of Python's. -/
theorem Date.addDays_isSome (d : Date)
    (h : daysBeforeMonth d.year d.month + d.day + n ≤ 365 * (10000 - d.year)) :
    (d.addDays n).isSome := by
  have hy := d.year_valid
  have hday := d.day_valid
  have := daysBeforeYear_add_le d.year (10000 - d.year)
  exact fromYear_isSome (by omega) hy.1 rfl (by omega) (by omega)

end Calendar
