import UbkiUploader.Lib.Text

/-!
# The Unicode database

`str` asks the Unicode database which characters are digits, how they are written
in upper case and which `repr` escapes. Its tables are a parameter; the fields that
are propositions are what every version of them satisfies.
-/

structure Ucd where
  /-- The value of a decimal digit, which `\d` matches and `int` reads. -/
  decimal : Nat → Option Nat
  /-- `str.isdigit` of one character: superscripts, for one, are digits too. -/
  isDigit : Nat → Bool
  /-- `str.upper` of one character -/
  upper : Nat → Text
  /-- `str.isprintable` of one character -/
  isPrintable : Nat → Bool
  decimal_lt : ∀ c d, decimal c = some d → d < 10
  decimal_ascii : ∀ c < 128, decimal c = if 48 ≤ c ∧ c ≤ 57 then some (c - 48) else none
  isDigit_of_decimal : ∀ c, (decimal c).isSome → isDigit c
  upper_upper : ∀ c, (upper c).flatMap upper = upper c
  isSpace_upper : ∀ c, ∀ d ∈ upper c, Text.isSpace d = Text.isSpace c
  /-- Surrogates and the separators of lines are not printable. -/
  isPrintable_of_break : ∀ c, c = 0x85 ∨ c = 0x2028 ∨ c = 0x2029 ∨
    (0xD800 ≤ c ∧ c ≤ 0xDFFF) →
    isPrintable c = false

namespace Ucd

variable (u : Ucd)

def isDecimal (c : Nat) : Bool := (u.decimal c).isSome

/-- `t.isdigit()` -/
def isdigit (t : Text) : Bool := t ≠ [] && t.all u.isDigit

/-- `re.fullmatch(r"\d{n}", t)` -/
def decimals (n : Nat) (t : Text) : Bool := t.length = n && t.all u.isDecimal

/-- `re.fullmatch(r"\d{4}-\d{2}-\d{2}", t)` -/
def isIsoDay : Text → Bool
  | [a, b, c, d, 45, e, f, 45, g, h] => u.decimals 8 [a, b, c, d, e, f, g, h]
  | _ => false

/-- `int(t)` of characters that are digits; `none` is ValueError. -/
def int? (t : Text) : Option Nat :=
  (t.mapM u.decimal).map (·.foldl (fun n d => 10 * n + d) 0)

/-- `t.upper()` -/
def upperText (t : Text) : Text := t.flatMap u.upper

-- ---------------------------------------------------------------------------
-- repr
-- ---------------------------------------------------------------------------

/-- One character inside `repr(t)`. -/
def reprChar (quote c : Nat) : Text :=
  if c = quote ∨ c = 92 then [92, c]
  else if c = 9 then Text.lit "\\t"
  else if c = 10 then Text.lit "\\n"
  else if c = 13 then Text.lit "\\r"
  else if c < 32 ∨ c = 127 then Text.lit "\\x" ++ Text.hex 2 c
  else if c < 127 ∨ u.isPrintable c then [c]
  else if c < 0x100 then Text.lit "\\x" ++ Text.hex 2 c
  else if c < 0x10000 then Text.lit "\\u" ++ Text.hex 4 c
  else Text.lit "\\U" ++ Text.hex 8 c

/-- `repr(t)`: in double quotes only when that saves escaping single ones. -/
def repr (t : Text) : Text :=
  let quote := if 39 ∈ t ∧ 34 ∉ t then 34 else 39
  quote :: t.flatMap (u.reprChar quote) ++ [quote]

-- ---------------------------------------------------------------------------
-- Laws
-- ---------------------------------------------------------------------------

theorem isdigit_of_decimals (h : u.decimals (n + 1) t) : u.isdigit t := by
  simp only [decimals, isdigit, Bool.and_eq_true, decide_eq_true_eq, List.all_eq_true] at h ⊢
  refine ⟨?_, fun c hc => u.isDigit_of_decimal c (h.2 c hc)⟩
  rintro rfl
  simp at h

theorem int?_isSome : (u.int? t).isSome ↔ ∀ c ∈ t, u.isDecimal c := by
  simp only [int?, Option.isSome_map]
  induction t with
  | nil => simp
  | cons c t ih =>
    rw [List.mapM_cons, List.forall_mem_cons, ← ih, isDecimal]
    cases u.decimal c with
    | none => simp
    | some d => cases t.mapM u.decimal <;> simp

/-- What `int` reads has no more digits than the text. -/
theorem int?_lt (h : u.int? t = some n) : n < 10 ^ t.length := by
  obtain ⟨ds, hds, rfl⟩ := Option.map_eq_some_iff.mp h
  have hlen : ds.length = t.length ∧ ∀ d ∈ ds, d < 10 := by
    clear h
    induction t generalizing ds with
    | nil =>
      cases hds
      simp
    | cons c t ih =>
      rw [List.mapM_cons] at hds
      obtain ⟨d, hd, hds⟩ := Option.bind_eq_some_iff.mp hds
      obtain ⟨ds', hds', heq⟩ := Option.bind_eq_some_iff.mp hds
      cases heq
      obtain ⟨hlen, hlt⟩ := ih ds' hds'
      simpa [hlen] using ⟨u.decimal_lt c d hd, hlt⟩
  rw [← hlen.1]
  replace hlen := hlen.2
  clear hds h
  induction ds using List.reverseRecOn with
  | nil => simp
  | append_singleton ds d ih =>
    have hd := hlen d (by simp)
    have hlt := ih fun e he => hlen e (by simp [he])
    rw [List.foldl_append, List.length_append, List.length_singleton, Nat.pow_succ]
    simp only [List.foldl_cons, List.foldl_nil]
    omega

theorem upperText_upperText (t : Text) : u.upperText (u.upperText t) = u.upperText t := by
  rw [upperText, upperText, List.flatMap_assoc]
  exact List.flatMap_congr fun c _ => u.upper_upper c

-- ---------------------------------------------------------------------------
-- Text that can be encoded
-- ---------------------------------------------------------------------------

/-- Only characters are printable or in upper case: no surrogate, and nothing beyond the
last code point. -/
structure Scalar : Prop where
  isPrintable : ∀ c, u.isPrintable c → c.isValidChar
  upper : ∀ c, c.isValidChar → ∀ d ∈ u.upper c, d.isValidChar

variable {u}

theorem Scalar.upperText (hu : u.Scalar) {t : Text} (h : t.Encodes) : (u.upperText t).Encodes := by
  intro d hd
  obtain ⟨c, hc, hd⟩ := List.mem_flatMap.mp hd
  exact hu.upper c (h c hc) d hd

theorem encodes_hex (width n : Nat) : (Text.hex width n).Encodes := by
  refine Text.encodes_of_ascii ?_
  induction width generalizing n with
  | zero => simp [Text.hex]
  | succ width ih =>
    intro c hc
    rcases List.mem_append.mp hc with hc | hc
    · exact ih _ c hc
    · rw [List.mem_singleton.mp hc, Text.hexDigit]
      split <;> omega

theorem Scalar.reprChar (hu : u.Scalar) (hquote : quote < 128) (c : Nat) :
    (u.reprChar quote c).Encodes := by
  have hhex (s : String) (width : Nat) : (Text.lit s ++ Text.hex width c).Encodes :=
    Text.encodes_append.mpr ⟨Text.encodes_lit s, encodes_hex width c⟩
  unfold Ucd.reprChar
  split
  · rename_i h
    refine Text.encodes_of_ascii ?_
    simp only [List.mem_cons, List.not_mem_nil, or_false, forall_eq_or_imp, forall_eq]
    omega
  · split_ifs with _ _ _ _ hprint
    · exact Text.encodes_lit _
    · exact Text.encodes_lit _
    · exact Text.encodes_lit _
    · exact hhex _ 2
    · intro d hd
      rw [List.mem_singleton.mp hd]
      rcases hprint with hlow | hprint
      · exact .inl (by omega)
      · exact hu.isPrintable c hprint
    · exact hhex _ 2
    · exact hhex _ 4
    · exact hhex _ 8

/-- The `repr` of a text can be encoded, whatever is in the text. -/
theorem Scalar.repr (hu : u.Scalar) (t : Text) : (u.repr t).Encodes := by
  have hquote : (if 39 ∈ t ∧ 34 ∉ t then 34 else 39) < 128 := by split <;> decide
  intro d hd
  rcases List.mem_append.mp hd with hd | hd
  · rcases List.mem_cons.mp hd with rfl | hd
    · exact .inl (by omega)
    · obtain ⟨c, -, hd⟩ := List.mem_flatMap.mp hd
      exact hu.reprChar hquote c d hd
  · rw [List.mem_singleton.mp hd]
    exact .inl (by omega)

end Ucd

/-- The tables for ASCII, where no other character is a digit or printable. -/
def Ucd.ascii : Ucd where
  decimal c := if 48 ≤ c ∧ c ≤ 57 then some (c - 48) else none
  isDigit c := 48 ≤ c && c ≤ 57
  upper c := if 97 ≤ c ∧ c ≤ 122 then [c - 32] else [c]
  isPrintable _ := false
  decimal_lt c d h := by
    split at h
    · cases h
      omega
    · cases h
  decimal_ascii c _ := rfl
  isDigit_of_decimal c h := by
    split at h
    · simpa using ‹_›
    · cases h
  upper_upper c := by
    split
    · rename_i h
      rw [List.flatMap_singleton, if_neg (by omega)]
    · rename_i h
      simp [h]
  isSpace_upper c d hd := by
    split at hd
    · obtain rfl := List.mem_singleton.mp hd
      simp only [Text.isSpace]
      grind
    · rw [List.mem_singleton.mp hd]
  isPrintable_of_break _ _ := rfl

theorem Ucd.ascii_scalar : Ucd.ascii.Scalar where
  isPrintable c h := nomatch h
  upper c h d hd := by
    simp only [Ucd.ascii] at hd
    split at hd
    · rw [List.mem_singleton.mp hd]
      exact .inl (by omega)
    · rw [List.mem_singleton.mp hd]
      exact h
