import UbkiUploader.Lib.JsonLoads

/-!
# json.loads reads what json.dumps writes

Each scanner reads back what the writer puts, whatever follows that cannot belong
to it. The round trip of values follows by induction on the value.
-/

namespace Json

-- ---------------------------------------------------------------------------
-- Strings
-- ---------------------------------------------------------------------------

theorem hexValue_hexDigit (h : n < 16) : hexValue (Text.hexDigit n) = some n := by
  interval_cases n <;> rfl

theorem hex4?_hex (h : c < 0x10000) : hex4? (Text.hex 4 c ++ d :: rest) = some (c, d :: rest) := by
  simp only [Text.hex, List.nil_append, List.cons_append, hex4?]
  rw [hexValue_hexDigit (by omega), hexValue_hexDigit (by omega), hexValue_hexDigit (by omega),
    hexValue_hexDigit (by omega)]
  simp only [Option.bind_eq_bind, Option.bind_some, Option.some.injEq, Prod.mk.injEq, and_true]
  omega

theorem scanUnicode_hex (h : c < 32) :
    scanUnicode (Text.hex 4 c ++ d :: rest) = .ok (c, d :: rest) := by
  have hlow : isHighSurrogate c = false := by
    simp only [isHighSurrogate, Bool.and_eq_false_iff, decide_eq_false_iff_not]
    omega
  simp only [scanUnicode, hex4?_hex (show c < 0x10000 by omega), hlow]

theorem scanChars_escape (start fuel c d : Nat) (rest : Text) :
    scanChars start (fuel + 1) (escape c ++ d :: rest) = (do
      let (s, rest) ← scanChars start fuel (d :: rest)
      .ok (c :: s, rest)) := by
  unfold escape
  split
  · subst c; rfl
  split
  · subst c; rfl
  split
  · subst c; rfl
  split
  · subst c; rfl
  split
  · subst c; rfl
  split
  · subst c; rfl
  split
  · subst c; rfl
  split
  · rename_i h
    have htext : Text.lit "\\u" ++ Text.hex 4 c ++ d :: rest =
        92 :: 117 :: (Text.hex 4 c ++ d :: rest) := rfl
    rw [htext, scanChars, if_neg (by decide), if_pos rfl, scanEscape, scanUnicode_hex h]
    rfl
  · rename_i h34 h92 _ _ _ _ _ h
    simp only [List.cons_append, List.nil_append, scanChars, if_neg h34, if_neg h92, if_neg h]

theorem escape_ne_nil (c : Nat) : escape c ≠ [] := by
  unfold escape
  repeat' split
  all_goals simp [Text.lit]

theorem scanChars_quoted (start : Nat) (t rest : Text)
    (h : (t.flatMap escape ++ 34 :: rest).length ≤ fuel) :
    scanChars start fuel (t.flatMap escape ++ 34 :: rest) = .ok (t, rest) := by
  induction t generalizing fuel with
  | nil =>
    obtain ⟨fuel, rfl⟩ : ∃ k, fuel = k + 1 := ⟨fuel - 1, by simp at h; omega⟩
    rfl
  | cons c t ih =>
    rw [List.flatMap_cons, List.append_assoc] at h ⊢
    have hc := List.length_pos_of_ne_nil (escape_ne_nil c)
    rw [List.length_append] at h
    obtain ⟨fuel, rfl⟩ : ∃ k, fuel = k + 1 := ⟨fuel - 1, by omega⟩
    have hrest := ih (by omega : (t.flatMap escape ++ 34 :: rest).length ≤ fuel)
    obtain ⟨d, tail, htail⟩ : ∃ d tail, t.flatMap escape ++ 34 :: rest = d :: tail :=
      List.exists_cons_of_ne_nil (by simp)
    rw [htail] at hrest ⊢
    rw [scanChars_escape, hrest]
    rfl

theorem scanString_quote (t rest : Text) :
    scanString (t.flatMap escape ++ 34 :: rest) = .ok (t, rest) :=
  scanChars_quoted _ t rest (Nat.le_refl _)

-- ---------------------------------------------------------------------------
-- Numbers
-- ---------------------------------------------------------------------------

/-- No number continues into a text. -/
def Ends (rest : Text) : Prop :=
  ∀ c, rest.head? = some c → isAsciiDigit c = false ∧ c ≠ 43 ∧ c ≠ 45 ∧ c ≠ 46 ∧
    c ≠ 69 ∧ c ≠ 101

theorem span_digits_append (h : Ends rest) (t : Text) :
    (t ++ rest).span isAsciiDigit =
      ((t.span isAsciiDigit).1, (t.span isAsciiDigit).2 ++ rest) := by
  simp only [List.span_eq_takeWhile_dropWhile]
  induction t with
  | nil =>
    cases rest with
    | nil => rfl
    | cons c rest => simp [(h c rfl).1]
  | cons c t ih =>
    obtain ⟨htake, hdrop⟩ := Prod.mk.inj ih
    by_cases hc : isAsciiDigit c
    · simp [hc, htake, hdrop]
    · simp [hc]

theorem scanSign_append (h : Ends rest) (t : Text) :
    scanSign (t ++ rest) = ((scanSign t).1, (scanSign t).2 ++ rest) := by
  cases t with
  | nil =>
    cases rest with
    | nil => rfl
    | cons c rest =>
      have hc := (h c rfl).2.2.1
      rw [List.nil_append, scanSign, scanSign]
      · simp
      all_goals simp_all
  | cons c t =>
    by_cases hc : c = 45
    · subst hc
      rfl
    · rw [List.cons_append, scanSign, scanSign]
      · rfl
      all_goals simp_all

theorem scanWhole_append (h : Ends rest) (t : Text) :
    scanWhole (t ++ rest) = ((scanWhole t).1, (scanWhole t).2 ++ rest) := by
  have hspan := span_digits_append h t
  cases t with
  | nil =>
    cases rest with
    | nil => rfl
    | cons c rest =>
      have hc := (h c rfl).1
      have h48 : c ≠ 48 := by
        rintro rfl
        cases hc
      rw [List.nil_append, scanWhole, scanWhole]
      · exact hspan
      all_goals simp_all
  | cons c t =>
    by_cases hc : c = 48
    · subst hc
      rfl
    · rw [List.cons_append, scanWhole, scanWhole]
      · exact hspan
      all_goals simp_all

theorem scanFrac_append (h : Ends rest) (t : Text) :
    scanFrac (t ++ rest) = ((scanFrac t).1, (scanFrac t).2 ++ rest) := by
  have hother {c : Nat} {t : Text} (hc : c ≠ 46) : scanFrac (c :: t) = ([], c :: t) := by
    rw [scanFrac]
    simp_all
  match t with
  | [] =>
    cases rest with
    | nil => rfl
    | cons c rest => exact hother (h c rfl).2.2.2.1
  | [c] =>
    by_cases hc : c = 46
    · subst hc
      cases rest with
      | nil => rfl
      | cons d rest =>
        rw [List.singleton_append, scanFrac, (h d rfl).1]
        rfl
    · rw [List.singleton_append, hother hc, hother hc]
      rfl
  | c :: d :: t =>
    by_cases hc : c = 46
    · subst hc
      rw [List.cons_append, List.cons_append, scanFrac, scanFrac, ← List.cons_append,
        span_digits_append h]
      split <;> rfl
    · rw [List.cons_append, hother hc, hother hc]
      rfl

theorem scanExpSign_append (h : Ends rest) (t : Text) :
    scanExpSign (t ++ rest) = ((scanExpSign t).1, (scanExpSign t).2 ++ rest) := by
  cases t with
  | nil =>
    cases rest with
    | nil => rfl
    | cons c rest =>
      obtain ⟨-, h43, h45, -⟩ := h c rfl
      simp [scanExpSign, h43, h45]
  | cons c t =>
    rw [List.cons_append, scanExpSign, scanExpSign]
    split <;> rfl

theorem scanExp_append (h : Ends rest) (t : Text) :
    scanExp (t ++ rest) = ((scanExp t).1, (scanExp t).2 ++ rest) := by
  cases t with
  | nil =>
    cases rest with
    | nil => rfl
    | cons c rest =>
      obtain ⟨-, -, -, -, h69, h101⟩ := h c rfl
      simp [scanExp, h69, h101]
  | cons c t =>
    rw [List.cons_append, scanExp, scanExp]
    split
    · simp only [scanExpSign_append h, span_digits_append h]
      split <;> rfl
    · rfl

theorem scanLiteral_append (h : Ends rest) (hl : scanLiteral t = some (l, [])) :
    scanLiteral (t ++ rest) = some (l, rest) := by
  simp only [scanLiteral] at hl ⊢
  rw [scanSign_append h, scanWhole_append h, scanFrac_append h, scanExp_append h]
  split at hl
  · cases hl
  · rename_i hw
    rw [if_neg hw]
    obtain ⟨rfl, hrest⟩ := Prod.mk.inj (Option.some.inj hl)
    simp only [hrest, List.nil_append]

theorem span_digits {t : Text} (h : ∀ c ∈ t, isAsciiDigit c) :
    t.span isAsciiDigit = (t, ([] : Text)) := by
  rw [List.span_eq_takeWhile_dropWhile, List.takeWhile_eq_self_iff.mpr h,
    List.dropWhile_eq_nil_iff.mpr h]

theorem ofNat_digits (hn : n ≠ 0) : ∃ c t, Text.ofNat n = c :: t ∧ 49 ≤ c ∧ c ≤ 57 ∧
    ∀ d ∈ t, isAsciiDigit d := by
  have hdigit (d : Nat) (hd : d ∈ Nat.digits 10 n) : d < 10 := Nat.digits_lt_base (by omega) hd
  have hne : Nat.digits 10 n ≠ [] := Nat.digits_ne_nil_iff_ne_zero.mpr hn
  rw [Text.ofNat, if_neg hn]
  have hlast := Nat.getLast_digit_ne_zero 10 hn
  rw [← List.dropLast_append_getLast hne, List.reverse_append, List.map_append]
  refine ⟨(Nat.digits 10 n).getLast hne + 48, _, rfl, ?_, ?_, fun d hd => ?_⟩
  · omega
  · have := hdigit _ (List.getLast_mem hne)
    omega
  · obtain ⟨e, he, rfl⟩ := List.mem_map.mp hd
    have := hdigit e (List.dropLast_subset _ (List.mem_reverse.mp he))
    simp only [isAsciiDigit, Bool.and_eq_true, decide_eq_true_eq]
    omega

theorem digitsValue_ofNat (n : Nat) : digitsValue (Text.ofNat n) = n := by
  rw [digitsValue, Text.ofNat]
  split
  · subst n
    rfl
  · rw [List.foldl_map, List.foldl_reverse]
    have hfold (ds : List Nat) : ds.foldr (fun d n => 10 * n + (d + 48 - 48)) 0 =
      Nat.ofDigits 10 ds := by
      induction ds with
      | nil => rfl
      | cons d ds ih =>
        rw [List.foldr_cons, ih, Nat.ofDigits_cons]
        omega
    rw [hfold, Nat.ofDigits_digits]

theorem ofNat_head (n : Nat) : ∃ c t, Text.ofNat n = c :: t ∧ isAsciiDigit c := by
  by_cases hn : n = 0
  · exact ⟨48, [], by rw [hn]; rfl, rfl⟩
  · obtain ⟨c, t, ht, hlo, hhi, -⟩ := ofNat_digits hn
    refine ⟨c, t, ht, ?_⟩
    simp only [isAsciiDigit, Bool.and_eq_true, decide_eq_true_eq]
    omega

theorem scanWhole_ofNat (n : Nat) : scanWhole (Text.ofNat n) = (Text.ofNat n, []) := by
  by_cases hn : n = 0
  · rw [hn]
    rfl
  · obtain ⟨c, t, ht, hlo, hhi, hds⟩ := ofNat_digits hn
    rw [ht, scanWhole]
    · refine span_digits fun d hd => ?_
      rcases List.mem_cons.mp hd with rfl | hd
      · simp only [isAsciiDigit, Bool.and_eq_true, decide_eq_true_eq]
        omega
      · exact hds d hd
    · intro rest hrest
      cases hrest
      omega

theorem scanSign_digit (h : isAsciiDigit c) : scanSign (c :: t) = ([], c :: t) := by
  rw [scanSign]
  intro rest hrest
  cases hrest
  cases h

theorem scanLiteral_ofInt (n : Int) : ∃ sign, scanLiteral (Text.ofInt n) =
    some (⟨sign, Text.ofNat n.natAbs, [], []⟩, []) ∧ (sign = [] ↔ 0 ≤ n) := by
  obtain ⟨c, t, ht, hc⟩ := ofNat_head n.natAbs
  have hwhole := scanWhole_ofNat n.natAbs
  have hne : Text.ofNat n.natAbs ≠ [] := by simp [ht]
  rw [Text.ofInt]
  split
  · refine ⟨[45], ?_, by simpa using by omega⟩
    simp only [scanLiteral, scanSign, hwhole, if_neg hne]
    rfl
  · refine ⟨[], ?_, by simpa using by omega⟩
    have hsign : scanSign (Text.ofNat n.natAbs) = ([], Text.ofNat n.natAbs) := by
      rw [ht]
      exact scanSign_digit hc
    simp only [scanLiteral, hsign, hwhole, if_neg hne]
    rfl

theorem scanLiteral_head (h : scanLiteral t = some out) :
    (∃ c rest, t = c :: rest ∧ isAsciiDigit c) ∨ ∃ c rest, t = 45 :: c :: rest ∧
    isAsciiDigit c := by
  have hwhole (t : Text) (hne : (scanWhole t).1 ≠ []) : ∃ c rest, t = c :: rest ∧
    isAsciiDigit c := by
    cases t with
    | nil => exact absurd rfl hne
    | cons c rest =>
      refine ⟨c, rest, rfl, ?_⟩
      by_contra hc
      have h48 : c ≠ 48 := by
        rintro rfl
        exact hc rfl
      rw [scanWhole] at hne
      · simp [List.span_eq_takeWhile_dropWhile, hc] at hne
      · simpa using h48
  simp only [scanLiteral] at h
  split at h
  · cases h
  · rename_i hne
    unfold scanSign at hne
    split at hne
    · obtain ⟨c, rest, rfl, hc⟩ := hwhole _ hne
      exact .inr ⟨c, rest, rfl, hc⟩
    · exact .inl (hwhole _ hne)

theorem scanConstant_literal (h : scanLiteral t = some out) (rest : Text) :
    scanConstant (t ++ rest) = none := by
  simp only [scanConstant, Option.map_eq_none_iff, List.find?_eq_none]
  rcases scanLiteral_head h with ⟨c, t, rfl, hc⟩ | ⟨c, t, rfl, hc⟩
  · simp only [isAsciiDigit, Bool.and_eq_true, decide_eq_true_eq] at hc
    simp [constants, Text.lit]
    omega
  · simp only [isAsciiDigit, Bool.and_eq_true, decide_eq_true_eq] at hc
    simp [constants, Text.lit]
    omega

variable {F : Floats} {array object : Text → Except LoadError (Json × Text)}

theorem scanValue_literal (hl : scanLiteral t = some (l, [])) (h : Ends rest) :
    scanValue F array object (t ++ rest) = (l.value F).map fun v => (v, rest) := by
  have hnum : scanNumber F (t ++ rest) = (l.value F).map fun v => (v, rest) := by
    rw [scanNumber, scanLiteral_append h hl]
    change (l.value F).bind (fun v => .ok (v, rest)) = _
    cases l.value F <;> rfl
  have hconst := scanConstant_literal hl rest
  rcases scanLiteral_head hl with ⟨c, t, rfl, hc⟩ | ⟨c, t, rfl, hc⟩
  · rw [List.cons_append] at hconst hnum ⊢
    rw [scanValue, hconst, hnum]
    · simp
    all_goals
      intro rest' hrest
      cases hrest
      cases hc
  · rw [List.cons_append] at hconst hnum ⊢
    rw [scanValue, hconst, hnum]
    all_goals simp

theorem scanValue_ofInt (hn : (Text.ofNat n.natAbs).length ≤ maxStrDigits) (h : Ends rest) :
    scanValue F array object (Text.ofInt n ++ rest) = .ok (.int n, rest) := by
  obtain ⟨sign, hl, hsign⟩ := scanLiteral_ofInt n
  rw [scanValue_literal hl h, Literal.value, if_pos ⟨rfl, rfl⟩, if_neg (by simpa using hn)]
  simp only [Except.map, digitsValue_ofNat]
  split
  · rename_i hs
    rw [Int.natAbs_of_nonneg (hsign.mp hs)]
  · rename_i hs
    rw [Int.ofNat_natAbs_of_nonpos (by have := mt hsign.mpr hs; omega), neg_neg]

/-- A `float` as `loads` makes them. -/
def GoodFloat (F : Floats) (r : Text) : Prop :=
  r = Text.lit "nan" ∨ r = Text.lit "inf" ∨ r = Text.lit "-inf" ∨
    (IsFloatLiteral r ∧ F.repr r = r)

theorem span_append (t : Text) : (t.span isAsciiDigit).1 ++ (t.span isAsciiDigit).2 = t := by
  rw [List.span_eq_takeWhile_dropWhile, List.takeWhile_append_dropWhile]

theorem literal_text (h : scanLiteral t = some (l, rest)) : l.text ++ rest = t := by
  have hsign (t : Text) : (scanSign t).1 ++ (scanSign t).2 = t := by
    unfold scanSign
    split <;> rfl
  have hwhole (t : Text) : (scanWhole t).1 ++ (scanWhole t).2 = t := by
    unfold scanWhole
    split
    · rfl
    · exact span_append _
  have hfrac (t : Text) : (scanFrac t).1 ++ (scanFrac t).2 = t := by
    unfold scanFrac
    split
    · split
      · simp only [List.cons_append, span_append]
      · rfl
    · rfl
  have hexpSign (t : Text) : (scanExpSign t).1 ++ (scanExpSign t).2 = t := by
    unfold scanExpSign
    split
    · split <;> rfl
    · rfl
  have hexp (t : Text) : (scanExp t).1 ++ (scanExp t).2 = t := by
    unfold scanExp
    split
    · split
      · simp only
        split
        · rfl
        · rw [List.cons_append, List.cons_append, List.append_assoc, span_append, hexpSign]
      · rfl
    · rfl
  simp only [scanLiteral] at h
  split at h
  · cases h
  · obtain ⟨rfl, rfl⟩ := Prod.mk.inj (Option.some.inj h)
    simp only [Literal.text, List.append_assoc, hexp, hfrac, hwhole, hsign]

theorem scanValue_floatText (hr : GoodFloat F r) (h : Ends rest) :
    scanValue F array object (floatText r ++ rest) = .ok (.float r, rest) := by
  rcases hr with rfl | rfl | rfl | ⟨⟨l, hl, hfloat⟩, hrepr⟩
  · rfl
  · rfl
  · rfl
  · have htext : l.text = r := by simpa using literal_text hl
    have hne : ∀ t, scanLiteral t = none → r ≠ t := by
      rintro t ht rfl
      rw [ht] at hl
      cases hl
    rw [floatText, if_neg (hne _ rfl), if_neg (hne _ rfl), if_neg (hne _ rfl),
      scanValue_literal hl h, Literal.value, if_neg hfloat, htext, hrepr]
    rfl

-- ---------------------------------------------------------------------------
-- Values
-- ---------------------------------------------------------------------------

structure Separators.Fine (seps : Separators) : Prop where
  item : ∃ ws, seps.item = 44 :: ws ∧ ∀ c ∈ ws, isWs c
  key : ∃ ws, seps.key = 58 :: ws ∧ ∀ c ∈ ws, isWs c

theorem Separators.standard_fine : Separators.standard.Fine :=
  ⟨⟨[32], rfl, by simp [isWs]⟩, ⟨[32], rfl, by simp [isWs]⟩⟩

theorem Separators.compact_fine : Separators.compact.Fine :=
  ⟨⟨[], rfl, by simp⟩, ⟨[], rfl, by simp⟩⟩

mutual
/-- Values as `loads` makes them: no key twice, floats as they are written, integers
that are not too long. -/
def Good (F : Floats) : Json → Prop
  | .int n => (Text.ofNat n.natAbs).length ≤ maxStrDigits
  | .float r => GoodFloat F r
  | .arr items => GoodItems F items
  | .obj fields => (fields.map (·.1)).Nodup ∧ GoodFields F fields
  | _ => True

def GoodItems (F : Floats) : List Json → Prop
  | [] => True
  | v :: items => v.Good F ∧ GoodItems F items

def GoodFields (F : Floats) : Fields → Prop
  | [] => True
  | (_, v) :: fields => v.Good F ∧ GoodFields F fields
end

theorem goodItems_iff : GoodItems F items ↔ ∀ v ∈ items, v.Good F := by
  induction items with
  | nil => simp [GoodItems]
  | cons v items ih => simp [GoodItems, ih]

theorem goodFields_iff : GoodFields F fields ↔ ∀ f ∈ fields, f.2.Good F := by
  induction fields with
  | nil => simp [GoodFields]
  | cons f fields ih =>
    obtain ⟨k, v⟩ := f
    simp [GoodFields, ih]

theorem depthItems_le_iff : depthItems items ≤ n ↔ ∀ v ∈ items, v.depth ≤ n := by
  induction items with
  | nil => simp [depthItems]
  | cons v items ih => simp [depthItems, ih]

theorem depthFields_le_iff : depthFields fields ≤ n ↔ ∀ f ∈ fields, f.2.depth ≤ n := by
  induction fields with
  | nil => simp [depthFields]
  | cons f fields ih =>
    obtain ⟨k, v⟩ := f
    simp [depthFields, ih]

theorem skipWs_cons (h : isWs c = false) : skipWs (c :: t) = c :: t := by
  simp [skipWs, h]

theorem skipWs_append (hws : ∀ c ∈ ws, isWs c) (t : Text) : skipWs (ws ++ t) = skipWs t := by
  rw [skipWs, List.dropWhile_append_of_pos hws]
  rfl

/-- A value begins with an ASCII character, no space and no closing bracket. -/
def Begins (t : Text) : Prop :=
  ∃ c rest, t = c :: rest ∧ isWs c = false ∧ c ≠ 93 ∧ c ≠ 125 ∧ c < 128

theorem Begins.append (h : Begins t) (rest : Text) : Begins (t ++ rest) := by
  obtain ⟨c, t, rfl, hc⟩ := h
  exact ⟨c, t ++ rest, rfl, hc⟩

theorem Begins.skipWs (h : Begins t) : skipWs t = t := by
  obtain ⟨c, t, rfl, hc, -⟩ := h
  exact skipWs_cons hc

theorem begins_of_digit (h : isAsciiDigit c) : Begins (c :: t) := by
  simp only [isAsciiDigit, Bool.and_eq_true, decide_eq_true_eq] at h
  refine ⟨c, t, rfl, ?_, by omega, by omega, by omega⟩
  simp only [isWs, Bool.or_eq_false_iff, decide_eq_false_iff_not]
  omega

theorem begins_literal (h : scanLiteral t = some out) : Begins t := by
  rcases scanLiteral_head h with ⟨c, t, rfl, hc⟩ | ⟨c, t, rfl, -⟩
  · exact begins_of_digit hc
  · exact ⟨45, _, rfl, rfl, by decide, by decide, by decide⟩

theorem begins_dumps (seps : Separators) {v : Json} (hv : v.Good F) : Begins (v.dumps seps) := by
  cases v with
  | null => exact ⟨110, _, rfl, rfl, by decide, by decide, by decide⟩
  | bool b =>
    cases b with
    | true => exact ⟨116, _, rfl, rfl, by decide, by decide, by decide⟩
    | false => exact ⟨102, _, rfl, rfl, by decide, by decide, by decide⟩
  | int n =>
    obtain ⟨sign, hl, -⟩ := scanLiteral_ofInt n
    exact begins_literal hl
  | float r =>
    rcases hv with rfl | rfl | rfl | ⟨⟨l, hl, -⟩, -⟩
    · exact ⟨78, _, rfl, rfl, by decide, by decide, by decide⟩
    · exact ⟨73, _, rfl, rfl, by decide, by decide, by decide⟩
    · exact ⟨45, _, rfl, rfl, by decide, by decide, by decide⟩
    · rw [dumps, floatText]
      repeat' split
      · exact ⟨78, _, rfl, rfl, by decide, by decide, by decide⟩
      · exact ⟨73, _, rfl, rfl, by decide, by decide, by decide⟩
      · exact ⟨45, _, rfl, rfl, by decide, by decide, by decide⟩
      · exact begins_literal hl
  | str t => exact ⟨34, _, rfl, rfl, by decide, by decide, by decide⟩
  | arr items => exact ⟨91, _, rfl, rfl, by decide, by decide, by decide⟩
  | obj fields => exact ⟨123, _, rfl, rfl, by decide, by decide, by decide⟩

theorem ends_of_closing {c : Nat} (h : c = 44 ∨ c = 93 ∨ c = 125) (rest : Text) :
    Ends (c :: rest) := by
  intro d hd
  cases hd
  rcases h with rfl | rfl | rfl <;> decide

def Reads {α : Type} (scan : Text → Except LoadError (α × Text)) (v : α) (t : Text) : Prop :=
  ∀ rest, Ends rest → scan (t ++ rest) = .ok (v, rest)

theorem dumpsItems_eq_map : dumpsItems seps items = items.map (dumps seps) := by
  induction items with
  | nil => rfl
  | cons v items ih => rw [dumpsItems, ih, List.map_cons]

def dumpsField (seps : Separators) (f : Text × Json) : Text :=
  quote f.1 ++ seps.key ++ f.2.dumps seps

theorem dumpsFields_eq_map : dumpsFields seps fields = fields.map (dumpsField seps) := by
  induction fields with
  | nil => rfl
  | cons f fields ih =>
    obtain ⟨k, v⟩ := f
    rw [dumpsFields, ih, List.map_cons]
    rfl

theorem length_le_join {parts : List Text} (h : ∀ t ∈ parts, t ≠ []) :
    parts.length ≤ (Text.join sep parts).length := by
  induction parts with
  | nil => simp
  | cons a parts ih =>
    have ha := List.length_pos_of_ne_nil (h a (by simp))
    cases parts with
    | nil =>
      rw [Text.join_singleton]
      exact ha
    | cons b parts =>
      have := ih fun t ht => h t (List.mem_cons_of_mem _ ht)
      rw [Text.join_cons_cons, List.length_cons, List.length_append, List.length_append]
      omega

theorem begins_join (h : Begins a) : Begins (Text.join sep (a :: parts)) := by
  cases parts with
  | nil =>
    rw [Text.join_singleton]
    exact h
  | cons b parts =>
    rw [Text.join_cons_cons, List.append_assoc]
    exact h.append _

variable {seps : Separators} {F : Floats}

theorem scanList_last {α : Type} {v : α} {scan : Text → Except LoadError (α × Text)}
    (h : scan t = .ok (v, rest)) (hrest : skipWs rest = close :: rest') :
    scanList close scan (fuel + 1) t = .ok ([v], rest') := by
  simp only [scanList, h, bind, Except.bind, hrest, if_true]

theorem scanList_comma {α : Type} {v : α} {vs : List α}
    {scan : Text → Except LoadError (α × Text)}
    (h : scan t = .ok (v, rest)) (hrest : skipWs rest = 44 :: rest') (hclose : 44 ≠ close)
    (hnext : scanList close scan fuel (skipWs rest') = .ok (vs, rest'')) :
    scanList close scan (fuel + 1) t = .ok (v :: vs, rest'') := by
  simp only [scanList, h, bind, Except.bind, hrest, if_neg hclose, if_true, hnext]

theorem scanList_join {α : Type} {scan : Text → Except LoadError (α × Text)} (hs : seps.Fine)
    (hclose : close = 93 ∨ close = 125) {items : List α} (text : α → Text)
    (hne : items ≠ [])
    (h : ∀ v ∈ items, Reads scan v (text v) ∧ Begins (text v)) (hfuel : items.length ≤ fuel)
    (rest : Text) :
    scanList close scan fuel (Text.join seps.item (items.map text) ++ close :: rest) =
      .ok (items, rest) := by
  have hends : Ends (close :: rest) := ends_of_closing (.inr hclose) rest
  have hskip : skipWs (close :: rest) = close :: rest := by
    rcases hclose with rfl | rfl <;> rfl
  induction items generalizing fuel with
  | nil => exact absurd rfl hne
  | cons v items ih =>
    obtain ⟨hread, -⟩ := h v (by simp)
    obtain ⟨fuel, rfl⟩ : ∃ k, fuel = k + 1 := ⟨fuel - 1, by simp at hfuel; omega⟩
    rw [List.length_cons] at hfuel
    cases items with
    | nil =>
      rw [List.map_cons, List.map_nil, Text.join_singleton]
      exact scanList_last (hread _ hends) hskip
    | cons w items =>
      obtain ⟨ws, hitem, hws⟩ := hs.item
      have htail :=
        ih (by simp) (fun v hv => h v (List.mem_cons_of_mem _ hv)) (by omega : _ ≤ fuel)
      have hbegins : Begins (Text.join seps.item ((w :: items).map text) ++ close :: rest) :=
        (begins_join (h w (by simp)).2).append _
      have hnext : skipWs (ws ++ (Text.join seps.item ((w :: items).map text) ++ close :: rest)) =
          Text.join seps.item ((w :: items).map text) ++ close :: rest := by
        rw [skipWs_append hws, hbegins.skipWs]
      rw [List.map_cons, List.map_cons, Text.join_cons_cons, List.append_assoc, List.append_assoc,
        ← List.map_cons, hitem, List.cons_append, ← hitem]
      exact scanList_comma (hread _ (ends_of_closing (.inl rfl) _)) (skipWs_cons rfl)
        (by omega) (by rw [hnext, htail])

theorem scanField_dumps {scan : Text → Except LoadError (Json × Text)} (hs : seps.Fine)
    (f : Text × Json) (h : Reads scan f.2 (f.2.dumps seps)) (hb : Begins (f.2.dumps seps)) :
    Reads (scanField scan) f (dumpsField seps f) := by
  intro rest hrest
  obtain ⟨ws, hkey, hws⟩ := hs.key
  have htext : dumpsField seps f ++ rest =
      34 :: (f.1.flatMap escape ++ 34 :: (58 :: (ws ++ (f.2.dumps seps ++ rest)))) := by
    simp [dumpsField, quote, hkey]
  have hcolon : skipWs (58 :: (ws ++ (f.2.dumps seps ++ rest))) =
      58 :: (ws ++ (f.2.dumps seps ++ rest)) := skipWs_cons rfl
  rw [htext]
  simp only [scanField, scanString_quote, bind, Except.bind, hcolon, skipWs_append hws,
    (hb.append rest).skipWs, h rest hrest]

theorem dictOf_of_nodup {fields : Fields} (h : (fields.map (·.1)).Nodup) :
    dictOf fields = fields := by
  have hset {d : Fields} {f : Text × Json} (hf : f.1 ∉ d.map (·.1)) :
      setField f.1 f.2 d = d ++ [f] := by
    induction d with
    | nil => rfl
    | cons g d ih =>
      simp only [List.map_cons, List.mem_cons, not_or] at hf
      rw [setField, if_neg (Ne.symm hf.1), ih hf.2]
      rfl
  have hfold (d : Fields) (h : ((d ++ fields).map (·.1)).Nodup) :
      fields.foldl (fun d f => setField f.1 f.2 d) d = d ++ fields := by
    clear * - hset h
    induction fields generalizing d with
    | nil => simp
    | cons f fields ih =>
      rw [List.foldl_cons, hset, ih]
      · simp
      · simpa using h
      · intro hmem
        rw [List.map_append, List.map_cons] at h
        exact (List.nodup_append'.mp h).2.2 hmem (by simp)
  simpa [dictOf] using hfold [] (by simpa using h)

theorem begins_elements {α : Type} {items : List α} {text : α → Text}
    (h : ∀ v ∈ items, Begins (text v)) (hne : items ≠ []) :
    Begins (Text.join sep (items.map text) ++ rest) := by
  cases items with
  | nil => exact absurd rfl hne
  | cons v items => exact (begins_join (h v (by simp))).append rest

theorem scanArray_of_list {scan : Text → Except LoadError (Json × Text)} (hb : Begins t)
    (h : scanList 93 scan t.length t = .ok (items, rest)) :
    scanArray scan t = .ok (.arr items, rest) := by
  obtain ⟨c, t, rfl, hc, h93, -⟩ := hb
  rw [scanArray, skipWs_cons hc]
  split
  · rename_i heq
    cases heq
    exact absurd rfl h93
  · simp only [bind, Except.bind, h]

theorem scanObject_of_list {scan : Text → Except LoadError (Json × Text)} (hb : Begins t)
    (h : scanList 125 (scanField scan) t.length t = .ok (fields, rest)) :
    scanObject scan t = .ok (.obj (dictOf fields), rest) := by
  obtain ⟨c, t, rfl, hc, -, h125, -⟩ := hb
  rw [scanObject, skipWs_cons hc]
  split
  · rename_i heq
    cases heq
    exact absurd rfl h125
  · simp only [bind, Except.bind, h]

theorem length_le_elements {α : Type} {items : List α} {text : α → Text}
    (h : ∀ v ∈ items, Begins (text v)) :
    items.length ≤ (Text.join sep (items.map text) ++ rest).length := by
  have hne : ∀ t ∈ items.map text, t ≠ [] := by
    intro t ht
    obtain ⟨v, hv, rfl⟩ := List.mem_map.mp ht
    obtain ⟨c, t, hct, -⟩ := h v hv
    simp [hct]
  have hle : (items.map text).length ≤ (Text.join sep (items.map text)).length :=
    length_le_join hne
  rw [List.length_map] at hle
  rw [List.length_append]
  omega

/-- `scan_once` reads back every value that is not too deep. -/
theorem scanOnce_dumps (hs : seps.Fine) {v : Json} (hv : v.Good F) (hd : v.depth ≤ levels) :
    Reads (scanOnce F levels) v (v.dumps seps) := by
  induction v generalizing levels with
  | null => cases levels <;> exact fun rest _ => rfl
  | bool b => cases levels <;> cases b <;> exact fun rest _ => rfl
  | int n => cases levels <;> exact fun rest hrest => scanValue_ofInt hv hrest
  | float r => cases levels <;> exact fun rest hrest => scanValue_floatText hv hrest
  | str t =>
    intro rest _
    have htext : (Json.str t).dumps seps ++ rest = 34 :: (t.flatMap escape ++ 34 :: rest) := by
      simp [dumps, quote]
    rw [htext]
    cases levels <;> simp only [scanOnce, scanValue, scanString_quote, bind, Except.bind]
  | arr items ih =>
    rw [depth] at hd
    obtain ⟨levels, rfl⟩ : ∃ k, levels = k + 1 := ⟨levels - 1, by omega⟩
    have hdepth := depthItems_le_iff.mp (Nat.le_of_succ_le_succ hd)
    have hgood := goodItems_iff.mp hv
    have hb (v : Json) (hv : v ∈ items) := begins_dumps seps (hgood v hv)
    intro rest _
    have htext : (Json.arr items).dumps seps ++ rest =
        91 :: (Text.join seps.item (items.map (dumps seps)) ++ 93 :: rest) := by
      simp [dumps, dumpsItems_eq_map]
    rw [htext, scanOnce, scanValue]
    by_cases hne : items = []
    · subst hne
      rfl
    · exact scanArray_of_list (begins_elements hb hne) (scanList_join hs (.inl rfl) _ hne
        (fun v hv => ⟨ih v hv (hgood v hv) (hdepth v hv), hb v hv⟩)
          (length_le_elements hb) rest)
  | obj fields ih =>
    rw [depth] at hd
    obtain ⟨levels, rfl⟩ : ∃ k, levels = k + 1 := ⟨levels - 1, by omega⟩
    have hdepth := depthFields_le_iff.mp (Nat.le_of_succ_le_succ hd)
    obtain ⟨hkeys, hgood⟩ := hv
    have hgood := goodFields_iff.mp hgood
    have hb (f : Text × Json) (_ : f ∈ fields) : Begins (dumpsField seps f) :=
      ⟨34, _, rfl, rfl, by decide, by decide, by decide⟩
    intro rest _
    have htext : (Json.obj fields).dumps seps ++ rest =
        123 :: (Text.join seps.item (fields.map (dumpsField seps)) ++ 125 :: rest) := by
      simp [dumps, dumpsFields_eq_map]
    rw [htext, scanOnce, scanValue]
    by_cases hne : fields = []
    · subst hne
      rfl
    · rw [scanObject_of_list (begins_elements hb hne) (scanList_join hs (.inr rfl) _ hne
        (fun f hf => ⟨scanField_dumps hs f (ih f hf (hgood f hf) (hdepth f hf))
          (begins_dumps seps (hgood f hf)), hb f hf⟩) (length_le_elements hb) rest),
        dictOf_of_nodup hkeys]

theorem loads_dumps (hs : seps.Fine) {v : Json} (hv : v.Good F) (hd : v.depth ≤ levels) :
    loads F levels (v.dumps seps) = .ok v := by
  have hb := begins_dumps seps hv
  have hread := scanOnce_dumps hs hv hd [] (by rintro c hc; cases hc)
  rw [List.append_nil] at hread
  have hbom : (v.dumps seps).head? ≠ some 0xFEFF := by
    obtain ⟨c, t, ht, -, -, -, hc⟩ := hb
    rw [ht]
    simp only [List.head?_cons, ne_eq, Option.some.injEq]
    omega
  have hend : skipWs [] = [] := rfl
  simp only [loads, if_neg hbom, hb.skipWs, hread, bind, Except.bind, hend, if_true]

end Json
