import UbkiUploader.Lib.Unicode

/-!
# JSON values

The values that `json.loads` returns, what `str` makes of them, and how
`json.dumps(v, ensure_ascii=False)` writes them. A `dict` is the list of its items
in insertion order.
-/

inductive Json
  | null
  | bool (b : Bool)
  | int (n : Int)
  /-- A `float`, by its `repr`. -/
  | float (repr : Text)
  | str (t : Text)
  | arr (items : List Json)
  | obj (fields : List (Text × Json))

/-- The items of a `dict`. -/
abbrev Fields := List (Text × Json)

namespace Json

@[elab_as_elim, induction_eliminator]
theorem induction {P : Json → Prop} (null : P .null) (bool : ∀ b, P (.bool b))
    (int : ∀ n, P (.int n)) (float : ∀ r, P (.float r)) (str : ∀ t, P (.str t))
    (arr : ∀ items, (∀ v ∈ items, P v) → P (.arr items))
    (obj : ∀ fields, (∀ f ∈ fields, P f.2) → P (.obj fields)) : ∀ v, P v
  | .null => null
  | .bool b => bool b
  | .int n => int n
  | .float r => float r
  | .str t => str t
  | .arr items => arr items fun v _ => induction null bool int float str arr obj v
  | .obj fields => obj fields fun f _ => induction null bool int float str arr obj f.2
termination_by v => sizeOf v
decreasing_by
  · rename_i h
    have := List.sizeOf_lt_of_mem h
    simp only [Json.arr.sizeOf_spec]
    omega
  · rename_i h
    have := List.sizeOf_lt_of_mem h
    cases f
    simp only [Json.obj.sizeOf_spec, Prod.mk.sizeOf_spec] at this ⊢
    omega

-- ---------------------------------------------------------------------------
-- Values
-- ---------------------------------------------------------------------------

/-- `bool(v)` -/
def truthy : Json → Bool
  | .null => false
  | .bool b => b
  | .int n => n ≠ 0
  | .float r => r ≠ Text.lit "0.0" && r ≠ Text.lit "-0.0"
  | .str t => t ≠ []
  | .arr items => !items.isEmpty
  | .obj fields => !fields.isEmpty

/-- `v is None` -/
def isNull : Json → Bool
  | .null => true
  | _ => false

@[simp]
theorem isNull_iff {v : Json} : v.isNull = true ↔ v = .null := by cases v <;> simp [isNull]

/-- `d[key] = v`: a key that is there keeps its place. -/
def setField (key : Text) (v : Json) : Fields → Fields
  | [] => [(key, v)]
  | (k, w) :: fields => if k = key then (k, v) :: fields else (k, w) :: setField key v fields

mutual
/-- How many brackets stand around the innermost value. -/
def depth : Json → Nat
  | .arr items => depthItems items + 1
  | .obj fields => depthFields fields + 1
  | _ => 0

def depthItems : List Json → Nat
  | [] => 0
  | v :: items => max v.depth (depthItems items)

def depthFields : Fields → Nat
  | [] => 0
  | (_, v) :: fields => max v.depth (depthFields fields)
end

mutual
def AllTexts (p : Text → Prop) : Json → Prop
  | .str t => p t
  | .arr items => AllTextsItems p items
  | .obj fields => AllTextsFields p fields
  | _ => True

def AllTextsItems (p : Text → Prop) : List Json → Prop
  | [] => True
  | v :: items => v.AllTexts p ∧ AllTextsItems p items

def AllTextsFields (p : Text → Prop) : Fields → Prop
  | [] => True
  | (k, v) :: fields => p k ∧ v.AllTexts p ∧ AllTextsFields p fields
end

theorem allTextsItems_iff {p : Text → Prop} :
    AllTextsItems p items ↔ ∀ v ∈ items, v.AllTexts p := by
  induction items with
  | nil => simp [AllTextsItems]
  | cons v items ih => simp [AllTextsItems, ih]

theorem allTextsFields_iff {p : Text → Prop} :
    AllTextsFields p fields ↔ ∀ f ∈ fields, p f.1 ∧ f.2.AllTexts p := by
  induction fields with
  | nil => simp [AllTextsFields]
  | cons f fields ih =>
    obtain ⟨k, v⟩ := f
    simp [AllTextsFields, ih, and_assoc]

theorem lookup_cons {fields : Fields} :
    List.lookup key ((k, v) :: fields) = if key = k then some v else fields.lookup key := by
  rw [List.lookup_cons]
  split
  · rename_i h
    rw [if_pos (eq_of_beq h)]
  · rename_i h
    rw [if_neg (ne_of_beq_false h)]

theorem lookup_setField {fields : Fields} :
    (setField key v fields).lookup k = if k = key then some v else fields.lookup k := by
  induction fields with
  | nil => rw [setField, lookup_cons]
  | cons f fields ih =>
    obtain ⟨k₀, w⟩ := f
    rw [setField]
    split
    · rename_i h
      subst h
      rw [lookup_cons, lookup_cons]
      split <;> rfl
    · rename_i h
      rw [lookup_cons, lookup_cons, ih]
      split
      · rename_i hk
        rw [if_neg (hk ▸ h)]
      · rfl

-- ---------------------------------------------------------------------------
-- str
-- ---------------------------------------------------------------------------

def boolRepr (b : Bool) : Text := if b then Text.lit "True" else Text.lit "False"

mutual
/-- `repr(v)` -/
def repr (u : Ucd) : Json → Text
  | .null => Text.lit "None"
  | .bool b => boolRepr b
  | .int n => Text.ofInt n
  | .float r => r
  | .str t => u.repr t
  | .arr items => 91 :: Text.join (Text.lit ", ") (reprItems u items) ++ [93]
  | .obj fields => 123 :: Text.join (Text.lit ", ") (reprFields u fields) ++ [125]

def reprItems (u : Ucd) : List Json → List Text
  | [] => []
  | v :: items => v.repr u :: reprItems u items

def reprFields (u : Ucd) : Fields → List Text
  | [] => []
  | (k, v) :: fields => (u.repr k ++ Text.lit ": " ++ v.repr u) :: reprFields u fields
end

/-- `str(v)` -/
def toText (u : Ucd) : Json → Text
  | .str t => t
  | v => v.repr u

/-- `str(d.get(key) or default)` -/
def textOr (u : Ucd) (fields : Fields) (key default : Text) : Text :=
  match (fields.lookup key).filter truthy with
  | some v => v.toText u
  | none => default

-- ---------------------------------------------------------------------------
-- dumps
-- ---------------------------------------------------------------------------

/-- One character of a string in JSON. -/
def escape (c : Nat) : Text :=
  if c = 34 then Text.lit "\\\""
  else if c = 92 then Text.lit "\\\\"
  else if c = 10 then Text.lit "\\n"
  else if c = 13 then Text.lit "\\r"
  else if c = 9 then Text.lit "\\t"
  else if c = 8 then Text.lit "\\b"
  else if c = 12 then Text.lit "\\f"
  else if c < 32 then Text.lit "\\u" ++ Text.hex 4 c
  else [c]

def quote (t : Text) : Text := 34 :: t.flatMap escape ++ [34]

def floatText (r : Text) : Text :=
  if r = Text.lit "nan" then Text.lit "NaN"
  else if r = Text.lit "inf" then Text.lit "Infinity"
  else if r = Text.lit "-inf" then Text.lit "-Infinity"
  else r

/-- The `separators` of `json.dumps`. -/
structure Separators where
  item : Text
  key : Text

def Separators.standard : Separators := ⟨Text.lit ", ", Text.lit ": "⟩

def Separators.compact : Separators := ⟨Text.lit ",", Text.lit ":"⟩

mutual
def dumps (seps : Separators) : Json → Text
  | .null => Text.lit "null"
  | .bool b => if b then Text.lit "true" else Text.lit "false"
  | .int n => Text.ofInt n
  | .float r => floatText r
  | .str t => quote t
  | .arr items => 91 :: Text.join seps.item (dumpsItems seps items) ++ [93]
  | .obj fields => 123 :: Text.join seps.item (dumpsFields seps fields) ++ [125]

def dumpsItems (seps : Separators) : List Json → List Text
  | [] => []
  | v :: items => v.dumps seps :: dumpsItems seps items

def dumpsFields (seps : Separators) : Fields → List Text
  | [] => []
  | (k, v) :: fields => (quote k ++ seps.key ++ v.dumps seps) :: dumpsFields seps fields
end

end Json
