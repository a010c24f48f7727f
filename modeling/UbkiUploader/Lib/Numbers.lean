import UbkiUploader.Lib.JsonLoads

/-!
# Numbers as Python reads them

`int` and `float` of any JSON value, with the exceptions they raise. How a float is
cut, and how a text or an integer is rounded to one, is left to the interpreter.
-/

inductive PyError
  | typeError
  | valueError
  | overflowError
  | attributeError
  | keyError
  | indexError
  | assertionError
  | recursionError
  | unicodeDecodeError
  | unicodeEncodeError
  deriving DecidableEq, Repr

/-- What the interpreter's tables and its floats decide. Floats are known by their
`repr`. -/
structure Interpreter where
  ucd : Ucd
  floats : Floats
  /-- `t.lower()` -/
  lower : Text → Text
  /-- `int(f)` of a finite float -/
  trunc : Text → Int
  /-- `float(t)` of a text; `none` is ValueError. -/
  floatOfText : Text → Option Text
  /-- `float(n)` of an integer; `none` is OverflowError. -/
  floatOfInt : Int → Option Text

-- ---------------------------------------------------------------------------
-- int
-- ---------------------------------------------------------------------------

namespace Ucd

/-- The blanks that `int` allows around a number. -/
def isIntSpace (c : Nat) : Bool := Text.isSpace c && !(0x1C ≤ c && c ≤ 0x1F)

/-- Digits, where single underscores may stand between them. -/
def intDigits (u : Ucd) : Text → Option (List Nat)
  | [] => none
  | [c] => (u.decimal c).map ([·])
  | c :: 95 :: rest => do .some ((← u.decimal c) :: (← u.intDigits rest))
  | c :: rest => do .some ((← u.decimal c) :: (← u.intDigits rest))

/-- `int(t)`; `none` is ValueError. -/
def parseInt (u : Ucd) (t : Text) : Option Int :=
  let body := (t.dropWhile isIntSpace).rdropWhile isIntSpace
  let (sign, digits) : Int × Text :=
    match body with
    | 45 :: rest => (-1, rest)
    | 43 :: rest => (1, rest)
    | rest => (1, rest)
  ((u.intDigits digits).filter (·.length ≤ Json.maxStrDigits)).map fun ds =>
    sign * (ds.foldl (fun n d => 10 * n + d) 0 : Nat)

end Ucd

namespace Json

def isInfinite (r : Text) : Bool := r = Text.lit "inf" || r = Text.lit "-inf"

/-- `int(v)` -/
def toInt (I : Interpreter) : Json → Except PyError Int
  | .null => .error .typeError
  | .bool b => .ok (if b then 1 else 0)
  | .int n => .ok n
  | .float r =>
    if r = Text.lit "nan" then .error .valueError
    else if isInfinite r then .error .overflowError
    else .ok (I.trunc r)
  | .str t =>
    match I.ucd.parseInt t with
    | some n => .ok n
    | none => .error .valueError
  | .arr _ => .error .typeError
  | .obj _ => .error .typeError

/-- `float(v)`, by its `repr`. -/
def toFloat (I : Interpreter) : Json → Except PyError Text
  | .null => .error .typeError
  | .bool b => .ok (if b then Text.lit "1.0" else Text.lit "0.0")
  | .int n =>
    match I.floatOfInt n with
    | some r => .ok r
    | none => .error .overflowError
  | .float r => .ok r
  | .str t =>
    match I.floatOfText t with
    | some r => .ok r
    | none => .error .valueError
  | .arr _ => .error .typeError
  | .obj _ => .error .typeError

def isZeroFloat (r : Text) : Bool := r = Text.lit "0.0" || r = Text.lit "-0.0"

/-- `d.get(key) or default`, where nothing stands for the default. -/
def getOr (fields : Fields) (key : Text) : Option Json := (fields.lookup key).filter truthy

/-- `d.get(key)`, where nothing stands for a null. -/
def present (fields : Fields) (key : Text) : Option Json :=
  match fields.lookup key with
  | some .null => none
  | found => found

theorem toInt_eq_overflowError {v : Json} :
    v.toInt I = .error .overflowError ↔ ∃ r, v = .float r ∧ isInfinite r := by
  cases v with
  | float r =>
    simp only [toInt]
    split
    · rename_i h
      subst h
      refine iff_of_false (by simp) ?_
      rintro ⟨r, hr, hinf⟩
      cases hr
      revert hinf
      decide
    · split
      · exact iff_of_true rfl ⟨r, rfl, by assumption⟩
      · refine iff_of_false (by simp) ?_
        rintro ⟨r', hr, hinf⟩
        cases hr
        contradiction
  | str t =>
    simp only [toInt]
    split <;> simp
  | _ => simp [toInt]

end Json

def Interpreter.ascii : Interpreter where
  ucd := .ascii
  floats := {
    repr := fun _ => Text.lit "0.0"
    repr_repr := fun _ _ _ _ _ =>
      .inr (.inr ⟨⟨⟨[], Text.lit "0", Text.lit ".0", []⟩, rfl, by decide⟩, rfl⟩) }
  lower t := t.map fun c => if 65 ≤ c ∧ c ≤ 90 then c + 32 else c
  trunc _ := 0
  floatOfText _ := none
  floatOfInt n := some (Text.ofInt n ++ Text.lit ".0")
