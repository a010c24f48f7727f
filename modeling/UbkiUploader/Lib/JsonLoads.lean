import UbkiUploader.Lib.Fallible
import UbkiUploader.Lib.Json

/-!
# json.loads

The scanner of `json.loads` on a `str`, with the errors it raises and where. It
reads from the front of what is left of the text, so a position is kept as the
number of characters left there. Loops carry the length of their text as fuel;
every turn reads a character, so that what they do without fuel is what they do at
the end of the text.
-/

inductive LoadError
  /-- `JSONDecodeError`, with the characters left at its position. -/
  | decode (msg : Text) (left : Nat)
  /-- `ValueError` of `int`, with the digits of the number. -/
  | digits (count : Nat)
  | recursion
  deriving DecidableEq, Repr

namespace Json

def isWs (c : Nat) : Bool := c = 32 || c = 9 || c = 10 || c = 13

def skipWs (t : Text) : Text := t.dropWhile isWs

def failAt (msg : String) (left : Nat) : Except LoadError α := .error (.decode (Text.lit msg) left)

/-- StopIteration, which becomes an error about the value expected. -/
def stop (t : Text) : Except LoadError α := failAt "Expecting value" t.length

-- ---------------------------------------------------------------------------
-- Strings
-- ---------------------------------------------------------------------------

def hexValue (c : Nat) : Option Nat :=
  if 48 ≤ c ∧ c ≤ 57 then some (c - 48)
  else if 97 ≤ c ∧ c ≤ 102 then some (c - 87)
  else if 65 ≤ c ∧ c ≤ 70 then some (c - 55)
  else none

/-- Four hexadecimal digits that are not the end of the text. -/
def hex4? : Text → Option (Nat × Text)
  | a :: b :: c :: d :: e :: rest => do
    let a ← hexValue a
    let b ← hexValue b
    let c ← hexValue c
    let d ← hexValue d
    some (4096 * a + 256 * b + 16 * c + d, e :: rest)
  | _ => none

def isHighSurrogate (c : Nat) : Bool := 0xD800 ≤ c && c ≤ 0xDBFF

def isLowSurrogate (c : Nat) : Bool := 0xDC00 ≤ c && c ≤ 0xDFFF

def joinSurrogates (c d : Nat) : Nat := 0x10000 + 0x400 * (c - 0xD800) + (d - 0xDC00)

/-- After a backslash and `u`. -/
def scanUnicode (t : Text) : Except LoadError (Nat × Text) :=
  match hex4? t with
  | none => failAt "Invalid \\uXXXX escape" (t.length + 1)
  | some (c, rest) =>
    match isHighSurrogate c, rest with
    | true, 92 :: 117 :: next =>
      if next.length ≤ 4 then .ok (c, rest)
      else
        match hex4? next with
        | none => failAt "Invalid \\uXXXX escape" (next.length + 1)
        | some (d, rest') =>
          if isLowSurrogate d then .ok (joinSurrogates c d, rest') else .ok (c, rest)
    | _, _ => .ok (c, rest)

def simpleEscape (c : Nat) : Option Nat :=
  if c = 34 ∨ c = 92 ∨ c = 47 then some c
  else if c = 98 then some 8
  else if c = 102 then some 12
  else if c = 110 then some 10
  else if c = 114 then some 13
  else if c = 116 then some 9
  else none

/-- After a backslash in the string that began with `start` characters left. -/
def scanEscape (start : Nat) : Text → Except LoadError (Nat × Text)
  | [] => failAt "Unterminated string starting at" start
  | 117 :: rest => scanUnicode rest
  | c :: rest =>
    match simpleEscape c with
    | some d => .ok (d, rest)
    | none => failAt "Invalid \\escape" (rest.length + 2)

def scanChars (start : Nat) : Nat → Text → Except LoadError (Text × Text)
  | 0, _ => failAt "Unterminated string starting at" start
  | _ + 1, [] => failAt "Unterminated string starting at" start
  | fuel + 1, c :: rest =>
    if c = 34 then .ok ([], rest)
    else if c = 92 then do
      let (d, rest) ← scanEscape start rest
      let (s, rest) ← scanChars start fuel rest
      .ok (d :: s, rest)
    else if c < 32 then failAt "Invalid control character at" (rest.length + 1)
    else do
      let (s, rest) ← scanChars start fuel rest
      .ok (c :: s, rest)

def scanString (t : Text) : Except LoadError (Text × Text) := scanChars (t.length + 1) t.length t

-- ---------------------------------------------------------------------------
-- Numbers
-- ---------------------------------------------------------------------------

def isAsciiDigit (c : Nat) : Bool := 48 ≤ c && c ≤ 57

structure Literal where
  sign : Text
  whole : Text
  frac : Text
  exp : Text

def Literal.text (l : Literal) : Text := l.sign ++ l.whole ++ l.frac ++ l.exp

def scanSign : Text → Text × Text
  | 45 :: rest => ([45], rest)
  | t => ([], t)

def scanWhole : Text → Text × Text
  | 48 :: rest => ([48], rest)
  | t => t.span isAsciiDigit

def scanFrac : Text → Text × Text
  | 46 :: c :: rest =>
    if isAsciiDigit c then
      let (ds, rest) := (c :: rest).span isAsciiDigit
      (46 :: ds, rest)
    else ([], 46 :: c :: rest)
  | t => ([], t)

def scanExpSign : Text → Text × Text
  | c :: rest => if c = 43 ∨ c = 45 then ([c], rest) else ([], c :: rest)
  | [] => ([], [])

/-- An exponent without digits is not read. -/
def scanExp : Text → Text × Text
  | c :: rest =>
    if c = 101 ∨ c = 69 then
      let (sign, t) := scanExpSign rest
      let (ds, t) := t.span isAsciiDigit
      if ds = [] then ([], c :: rest) else (c :: sign ++ ds, t)
    else ([], c :: rest)
  | [] => ([], [])

def scanLiteral (t : Text) : Option (Literal × Text) :=
  let (sign, t) := scanSign t
  let (whole, t) := scanWhole t
  if whole = [] then none
  else
    let (frac, t) := scanFrac t
    let (exp, t) := scanExp t
    some (⟨sign, whole, frac, exp⟩, t)

/-- The literals that `loads` gives to `float`. -/
def IsFloatLiteral (t : Text) : Prop :=
  ∃ l, scanLiteral t = some (l, []) ∧ ¬(l.frac = [] ∧ l.exp = [])

end Json

/-- `float` on the literals of JSON, by the `repr` of the result, which is a literal
of the same value again unless the value is infinite. -/
structure Floats where
  repr : Text → Text
  repr_repr : ∀ t l rest, Json.scanLiteral t = some (l, rest) →
    ¬(l.frac = [] ∧ l.exp = []) →
    repr l.text = Text.lit "inf" ∨ repr l.text = Text.lit "-inf" ∨
      (Json.IsFloatLiteral (repr l.text) ∧ repr (repr l.text) = repr l.text)

namespace Json

def digitsValue (ds : Text) : Nat := ds.foldl (fun n c => 10 * n + (c - 48)) 0

/-- `sys.get_int_max_str_digits()` -/
def maxStrDigits : Nat := 4300

/-- `int` or `float` of a literal. -/
def Literal.value (F : Floats) (l : Literal) : Except LoadError Json :=
  if l.frac = [] ∧ l.exp = [] then
    if l.whole.length > maxStrDigits then .error (.digits l.whole.length)
    else .ok (.int (if l.sign = [] then digitsValue l.whole else -digitsValue l.whole))
  else .ok (.float (F.repr l.text))

def scanNumber (F : Floats) (t : Text) : Except LoadError (Json × Text) :=
  match scanLiteral t with
  | none => stop t
  | some (l, rest) => do .ok (← l.value F, rest)

-- ---------------------------------------------------------------------------
-- Values
-- ---------------------------------------------------------------------------

/-- The elements of a container, from the first to the bracket that closes it. -/
def scanList {α : Type} (close : Nat) (scan : Text → Except LoadError (α × Text)) :
    Nat → Text → Except LoadError (List α × Text)
  -- at the end of the text `scan` has failed by itself
  | 0, t => (scan t).bind fun _ => stop t
  | fuel + 1, t => do
    let (v, rest) ← scan t
    match skipWs rest with
    | [] => failAt "Expecting ',' delimiter" 0
    | c :: rest =>
      if c = close then .ok ([v], rest)
      else if c = 44 then do
        let (vs, rest) ← scanList close scan fuel (skipWs rest)
        .ok (v :: vs, rest)
      else failAt "Expecting ',' delimiter" (rest.length + 1)

variable (scan : Text → Except LoadError (Json × Text))

def scanArray (t : Text) : Except LoadError (Json × Text) :=
  match skipWs t with
  | 93 :: rest => .ok (.arr [], rest)
  | t => do
    let (items, rest) ← scanList 93 scan t.length t
    .ok (.arr items, rest)

def scanField : Text → Except LoadError ((Text × Json) × Text)
  | 34 :: rest => do
    let (key, rest) ← scanString rest
    match skipWs rest with
    | 58 :: rest => do
      let (v, rest) ← scan (skipWs rest)
      .ok ((key, v), rest)
    | rest => failAt "Expecting ':' delimiter" rest.length
  | t => failAt "Expecting property name enclosed in double quotes" t.length

/-- `dict` of a list of items. -/
def dictOf (fields : Fields) : Fields := fields.foldl (fun d f => setField f.1 f.2 d) []

def scanObject (t : Text) : Except LoadError (Json × Text) :=
  match skipWs t with
  | 125 :: rest => .ok (.obj [], rest)
  | t => do
    let (fields, rest) ← scanList 125 (scanField scan) t.length t
    .ok (.obj (dictOf fields), rest)

def constants : List (Text × Json) :=
  [(Text.lit "null", .null), (Text.lit "true", .bool true), (Text.lit "false", .bool false),
    (Text.lit "NaN", .float (Text.lit "nan")), (Text.lit "Infinity", .float (Text.lit "inf")),
    (Text.lit "-Infinity", .float (Text.lit "-inf"))]

def scanConstant (t : Text) : Option (Json × Text) :=
  (constants.find? fun c => c.1.isPrefixOf t).map fun c => (c.2, t.drop c.1.length)

/-- `scan_once`, given what to do with arrays and objects. -/
def scanValue (F : Floats) (array object : Text → Except LoadError (Json × Text)) :
    Text → Except LoadError (Json × Text)
  | [] => stop []
  | 34 :: rest => do
    let (s, rest) ← scanString rest
    .ok (.str s, rest)
  | 123 :: rest => object rest
  | 91 :: rest => array rest
  | t =>
    match scanConstant t with
    | some out => .ok out
    | none => scanNumber F t

/-- `scan_once`, where `levels` is how much deeper the interpreter lets it recurse. -/
def scanOnce (F : Floats) : Nat → Text → Except LoadError (Json × Text)
  | 0 => scanValue F (fun _ => .error .recursion) (fun _ => .error .recursion)
  | levels + 1 => scanValue F (scanArray (scanOnce F levels)) (scanObject (scanOnce F levels))

def loads (F : Floats) (levels : Nat) (t : Text) : Except LoadError Json :=
  if t.head? = some 0xFEFF then
    failAt "Unexpected UTF-8 BOM (decode using utf-8-sig)" t.length
  else do
    let (v, rest) ← scanOnce F levels (skipWs t)
    let rest := skipWs rest
    if rest = [] then .ok v else failAt "Extra data" rest.length

end Json

-- ---------------------------------------------------------------------------
-- The texts of errors
-- ---------------------------------------------------------------------------

/-- `str(exc)` of what `loads` raised on `doc`. -/
def LoadError.text (doc : Text) : LoadError → Text
  | .decode msg left =>
    let before := doc.take (doc.length - left)
    msg ++ Text.lit ": line " ++ Text.ofNat (before.count 10 + 1) ++ Text.lit " column " ++
      Text.ofNat ((before.reverse.takeWhile (· ≠ 10)).length + 1) ++ Text.lit " (char " ++
      Text.ofNat before.length ++ Text.lit ")"
  | .digits count =>
    Text.lit "Exceeds the limit (4300 digits) for integer string conversion: value has " ++
      Text.ofNat count ++
      Text.lit " digits; use sys.set_int_max_str_digits() to increase the limit"
  | .recursion => Text.lit "maximum recursion depth exceeded"
