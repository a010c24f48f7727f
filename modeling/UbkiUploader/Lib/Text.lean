import Mathlib

/-!
# Text as Python has it

A `str` is a sequence of code points. Lone surrogates are allowed in it, and
encoding to UTF-8 is where they fail, so a text is a list of numbers rather than
a `String`.
-/

/-- A Python `str`: its code points. -/
abbrev Text := List Nat

namespace Text

instance lawfulBEq : LawfulBEq Text := inferInstance

def lit (s : String) : Text := s.toList.map Char.toNat

/-- `str(n)` of a non-negative `int`. -/
def ofNat (n : Nat) : Text :=
  if n = 0 then [48] else (Nat.digits 10 n).reverse.map (· + 48)

/-- `str(n)` of an `int` -/
def ofInt (n : Int) : Text := if n < 0 then 45 :: ofNat n.natAbs else ofNat n.natAbs

def hexDigit (n : Nat) : Nat := if n < 10 then 48 + n else 87 + n

/-- The last `width` hexadecimal digits of a number. -/
def hex : Nat → Nat → Text
  | 0, _ => []
  | width + 1, n => hex width (n / 16) ++ [hexDigit (n % 16)]

@[simp] theorem length_hex (width n : Nat) : (hex width n).length = width := by
  induction width generalizing n with
  | zero => rfl
  | succ width ih => rw [hex, List.length_append, ih, List.length_singleton]

/-- `sep.join(parts)` -/
def join (sep : Text) (parts : List Text) : Text := sep.intercalate parts

/-- `str.isspace` of one character. -/
def isSpace (c : Nat) : Bool :=
  (0x09 ≤ c && c ≤ 0x0D) || (0x1C ≤ c && c ≤ 0x20) || c = 0x85 || c = 0xA0 || c = 0x1680 ||
  (0x2000 ≤ c && c ≤ 0x200A) || c = 0x2028 || c = 0x2029 || c = 0x202F || c =
    0x205F || c = 0x3000

/-- `str.lstrip()` -/
def lstrip (t : Text) : Text := t.dropWhile isSpace

/-- `str.rstrip()` -/
def rstrip (t : Text) : Text := t.rdropWhile isSpace

/-- `str.strip()` -/
def strip (t : Text) : Text := rstrip (lstrip t)

/-- The bytes one code point takes in UTF-8. -/
def utf8Width (c : Nat) : Nat :=
  if c < 0x80 then 1 else if c < 0x800 then 2 else if c < 0x10000 then 3 else 4

/-- `len(t.encode("utf-8"))` -/
def utf8Size (t : Text) : Nat := (t.map utf8Width).sum

@[simp] theorem join_singleton : join sep [a] = a := by simp [join]

theorem join_cons_cons : join sep (a :: b :: parts) = a ++ sep ++ join sep (b :: parts) := by
  simp [join, List.intercalate_cons_cons]

theorem forall_mem_join {P : Nat → Prop} (hsep : ∀ c ∈ sep, P c) (parts : List Text) :
    (∀ c ∈ join sep parts, P c) ↔ ∀ t ∈ parts, ∀ c ∈ t, P c := by
  induction parts with
  | nil => simp [join]
  | cons a parts ih =>
    cases parts with
    | nil => simp [join]
    | cons b parts =>
      rw [join_cons_cons, List.append_assoc, List.forall_mem_append, List.forall_mem_append, ih,
        List.forall_mem_cons (l := b :: parts)]
      exact and_congr_right fun _ => and_iff_right hsep

theorem strip_eq_nil_iff {t : Text} : strip t = [] ↔ ∀ c ∈ t, isSpace c := by
  rw [strip, rstrip, List.rdropWhile_eq_nil_iff, lstrip]
  constructor
  · intro h
    by_contra hsolid
    have hne : t.dropWhile isSpace ≠ [] := by rwa [ne_eq, List.dropWhile_eq_nil_iff]
    have hhead := h _ (List.head_mem hne)
    rw [List.head_dropWhile_not isSpace hne] at hhead
    cases hhead
  · exact fun h c hc => h c ((List.dropWhile_suffix _).mem hc)

-- ---------------------------------------------------------------------------
-- UTF-8
-- ---------------------------------------------------------------------------

/-- The character of a code point; surrogates have none. -/
def char? (c : Nat) : Option Char :=
  if h : c.isValidChar then some (Char.ofNatAux c h) else none

/-- `t.encode("utf-8")`; `none` is UnicodeEncodeError. -/
def encodeUtf8 (t : Text) : Option ByteArray :=
  (t.mapM char?).map fun cs => (String.ofList cs).toByteArray

/-- `b.decode("utf-8")`; `none` is UnicodeDecodeError. -/
def decodeUtf8 (b : ByteArray) : Option Text := b.utf8Decode?.map fun cs => cs.toList.map Char.toNat

@[simp] theorem char?_toNat (c : Char) : char? c.toNat = some c := by
  have h : c.toNat.isValidChar := c.valid
  rw [char?, dif_pos h]
  rfl

theorem toNat_of_char? (h : char? c = some ch) : ch.toNat = c := by
  unfold char? at h
  split at h
  · cases h; rfl
  · cases h

theorem mapM_char?_map (cs : List Char) : (cs.map Char.toNat).mapM char? = some cs := by
  induction cs with
  | nil => rfl
  | cons c cs ih => simp [ih]

theorem encodeUtf8_lit (s : String) : encodeUtf8 (lit s) = some s.toByteArray := by
  rw [encodeUtf8, lit, mapM_char?_map, Option.map_some, String.ofList_toList]

theorem map_toNat_of_mapM {t : Text} (h : t.mapM char? = some cs) : cs.map Char.toNat = t := by
  induction t generalizing cs with
  | nil => cases h; rfl
  | cons c t ih =>
    rw [List.mapM_cons] at h
    obtain ⟨ch, hc, h⟩ := Option.bind_eq_some_iff.mp h
    obtain ⟨rest, hr, h⟩ := Option.bind_eq_some_iff.mp h
    cases h
    rw [List.map_cons, toNat_of_char? hc, ih hr]

theorem decodeUtf8_of_encodeUtf8 (h : encodeUtf8 t = some b) : decodeUtf8 b = some t := by
  obtain ⟨cs, hcs, rfl⟩ := Option.map_eq_some_iff.mp h
  simp [decodeUtf8, map_toNat_of_mapM hcs]

theorem encodeUtf8_of_decodeUtf8 (h : decodeUtf8 b = some t) : encodeUtf8 t = some b := by
  obtain ⟨cs, hcs, rfl⟩ := Option.map_eq_some_iff.mp h
  have hb : cs.toList.utf8Encode = b := by
    have := ByteArray.utf8Encode_get_utf8Decode? (b := b) (h := by simp [hcs])
    simpa [hcs] using this
  rw [encodeUtf8, mapM_char?_map, Option.map_some, String.toByteArray_ofList, hb]

theorem encodeUtf8_isSome_iff {t : Text} :
    (encodeUtf8 t).isSome ↔ ∀ c ∈ t, c.isValidChar := by
  have hone (c : Nat) : (char? c).isSome ↔ c.isValidChar := by
    unfold char?
    split <;> simp_all
  simp only [encodeUtf8, Option.isSome_map]
  induction t with
  | nil => simp
  | cons c t ih =>
    rw [List.mapM_cons, List.forall_mem_cons]
    refine Iff.trans ?_ (and_congr (hone c) ih)
    cases char? c with
    | none => simp
    | some ch => cases t.mapM char? <;> simp

/-- A text without surrogates: UTF-8 can encode it. -/
def Encodes (t : Text) : Prop := ∀ c ∈ t, c.isValidChar

theorem encodes_iff {t : Text} : t.Encodes ↔ (encodeUtf8 t).isSome := encodeUtf8_isSome_iff.symm

theorem encodes_of_ascii {t : Text} (h : ∀ c ∈ t, c < 128) : t.Encodes := by
  intro c hc
  have := h c hc
  exact .inl (by omega)

@[simp] theorem encodes_lit (s : String) : Encodes (lit s) := by
  intro c hc
  obtain ⟨ch, -, rfl⟩ := List.mem_map.mp hc
  exact ch.valid

@[simp] theorem encodes_append : Encodes (a ++ b) ↔ Encodes a ∧ Encodes b :=
  List.forall_mem_append

theorem encodes_join {parts : List Text} (hsep : sep.Encodes) :
    (join sep parts).Encodes ↔ ∀ t ∈ parts, t.Encodes := forall_mem_join hsep parts

end Text
