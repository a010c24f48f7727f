import UbkiUploader.Lib.JsonLaws

/-!
# What json.loads returns, and the characters of json.dumps

Every value that was loaded is one that can be dumped and loaded again. What a
dumped text is made of beyond ASCII are the characters of the value's strings.
-/

namespace Json

variable {F : Floats}

-- ---------------------------------------------------------------------------
-- Loaded values
-- ---------------------------------------------------------------------------

/-- A value within the reach of a scanner that recurses so deep. -/
def Within (F : Floats) (levels : Nat) (v : Json) : Prop := v.Good F ∧ v.depth ≤ levels

theorem digitsValue_lt (ds : Text) (h : ∀ c ∈ ds, isAsciiDigit c) :
    digitsValue ds < 10 ^ ds.length := by
  rw [digitsValue]
  induction ds using List.reverseRecOn with
  | nil => simp
  | append_singleton ds c ih =>
    have hc := h c (by simp)
    have hlt := ih fun d hd => h d (by simp [hd])
    simp only [isAsciiDigit, Bool.and_eq_true, decide_eq_true_eq] at hc
    rw [List.foldl_append, List.length_append, List.length_singleton, Nat.pow_succ]
    simp only [List.foldl_cons, List.foldl_nil]
    omega

theorem length_ofNat_le (h : n < 10 ^ k) (hk : 1 ≤ k) : (Text.ofNat n).length ≤ k := by
  rw [Text.ofNat]
  split
  · exact hk
  · rw [List.length_map, List.length_reverse]
    exact (Nat.digits_length_le_iff (by omega) n).mpr h

theorem good_nat {n : Nat} (h : n < 10 ^ 10) : (Json.int n).Good F :=
  (length_ofNat_le h (by decide)).trans (by decide)

theorem scanWhole_digits (t : Text) : ∀ c ∈ (scanWhole t).1, isAsciiDigit c := by
  unfold scanWhole
  split
  · simp [isAsciiDigit]
  · rw [List.span_eq_takeWhile_dropWhile]
    exact fun c hc => List.mem_takeWhile_imp hc

theorem literal_whole (h : scanLiteral t = some (l, rest)) :
    l.whole ≠ [] ∧ ∀ c ∈ l.whole, isAsciiDigit c := by
  simp only [scanLiteral] at h
  split at h
  · cases h
  · rename_i hne
    obtain ⟨rfl, -⟩ := Prod.mk.inj (Option.some.inj h)
    exact ⟨hne, scanWhole_digits _⟩

theorem scanNumber_good (h : scanNumber F t = .ok (v, rest)) : v.Good F ∧ v.depth = 0 := by
  rw [scanNumber] at h
  split at h
  · cases h
  · rename_i l rest' hl
    obtain ⟨hne, hds⟩ := literal_whole hl
    simp only [Literal.value] at h
    split at h
    · split at h
      · cases h
      · rename_i hlen
        cases h
        refine ⟨?_, rfl⟩
        have habs : (if l.sign = [] then (digitsValue l.whole : Int)
            else -digitsValue l.whole).natAbs = digitsValue l.whole := by
          split <;> simp
        rw [Good, habs]
        exact (length_ofNat_le (digitsValue_lt _ hds) (List.length_pos_of_ne_nil hne)).trans
          (by omega)
    · rename_i hfloat
      cases h
      refine ⟨?_, rfl⟩
      rcases F.repr_repr t l _ hl hfloat with h | h | ⟨hlit, hrepr⟩
      · exact .inr (.inl h)
      · exact .inr (.inr (.inl h))
      · exact .inr (.inr (.inr ⟨hlit, hrepr⟩))

theorem scanConstant_good (h : scanConstant t = some (v, rest)) : v.Good F ∧ v.depth = 0 := by
  obtain ⟨c, hc, heq⟩ := Option.map_eq_some_iff.mp h
  cases heq
  have := List.mem_of_find?_eq_some hc
  simp only [constants, List.mem_cons, List.not_mem_nil, or_false] at this
  rcases this with rfl | rfl | rfl | rfl | rfl | rfl <;> simp [Good, GoodFloat, depth]

theorem scanList_forall {α : Type} {scan : Text → Except LoadError (α × Text)}
    (P : α → Prop)
    (hscan : ∀ t v rest, scan t = .ok (v, rest) → P v) {items : List α}
    (h : scanList close scan fuel t = .ok (items, rest)) : ∀ v ∈ items, P v := by
  induction fuel generalizing t items rest with
  | zero =>
    obtain ⟨-, -, h⟩ := Except.bind_eq_ok.mp h
    cases h
  | succ fuel ih =>
    rw [scanList] at h
    obtain ⟨⟨v, rest'⟩, hs, h⟩ := Except.bind_eq_ok.mp h
    have hv := hscan t v rest' hs
    simp only at h
    split at h
    · cases h
    · split at h
      · cases h
        simpa using hv
      · split at h
        · obtain ⟨⟨vs, rest''⟩, hvs, h⟩ := Except.bind_eq_ok.mp h
          cases h
          simpa using ⟨hv, ih hvs⟩
        · cases h

theorem map_fst_setField (d : Fields) : (setField key v d).map (·.1) =
    if key ∈ d.map (·.1) then d.map (·.1) else d.map (·.1) ++ [key] := by
  induction d with
  | nil => simp [setField]
  | cons f d ih =>
    obtain ⟨k, w⟩ := f
    rw [setField]
    split
    · rename_i h
      simp [h]
    · rename_i h
      rw [List.map_cons, ih]
      simp only [List.map_cons, List.mem_cons, Ne.symm h, false_or]
      split <;> rfl

theorem mem_setField {d : Fields} (h : f ∈ setField key v d) : f ∈ d ∨ f.2 = v := by
  induction d with
  | nil =>
    rw [List.mem_singleton.mp h]
    exact .inr rfl
  | cons g d ih =>
    obtain ⟨k, w⟩ := g
    rw [setField] at h
    split at h
    · rcases List.mem_cons.mp h with rfl | h
      · exact .inr rfl
      · exact .inl (List.mem_cons_of_mem _ h)
    · rcases List.mem_cons.mp h with rfl | h
      · exact .inl List.mem_cons_self
      · exact (ih h).imp (List.mem_cons_of_mem _) id

theorem good_lookup {fields : Fields} (h : (Json.obj fields).Good F)
    (hv : fields.lookup key = some v) : v.Good F := by
  obtain ⟨before, after, rfl, -⟩ := List.lookup_eq_some_iff.mp hv
  exact goodFields_iff.mp h.2 (key, v) (by simp)

theorem mem_setField_iff {fields : Fields} (h : (fields.map (·.1)).Nodup) :
    f ∈ setField key v fields ↔ f = (key, v) ∨ f ∈ fields ∧ f.1 ≠ key := by
  induction fields with
  | nil => simp [setField]
  | cons g fields ih =>
    obtain ⟨k, w⟩ := g
    obtain ⟨hnew, hnodup⟩ := List.nodup_cons.mp h
    have hother (hmem : f ∈ fields) : f.1 ≠ k := by
      rintro rfl
      exact hnew (List.mem_map.mpr ⟨f, hmem, rfl⟩)
    rw [setField]
    split
    · rename_i hk
      subst hk
      simp only [List.mem_cons]
      constructor
      · rintro (rfl | hmem)
        · exact .inl rfl
        · exact .inr ⟨.inr hmem, hother hmem⟩
      · rintro (rfl | ⟨rfl | hmem, hne⟩)
        · exact .inl rfl
        · exact absurd rfl hne
        · exact .inr hmem
    · rename_i hk
      rw [List.mem_cons, ih hnodup, List.mem_cons]
      constructor
      · rintro (rfl | rfl | ⟨hmem, hne⟩)
        · exact .inr ⟨.inl rfl, hk⟩
        · exact .inl rfl
        · exact .inr ⟨.inr hmem, hne⟩
      · rintro (rfl | ⟨rfl | hmem, hne⟩)
        · exact .inr (.inl rfl)
        · exact .inl rfl
        · exact .inr (.inr ⟨hmem, hne⟩)

theorem nodup_setField {fields : Fields} (h : (fields.map (·.1)).Nodup) :
    ((setField key v fields).map (·.1)).Nodup := by
  rw [map_fst_setField]
  split
  · exact h
  · rename_i hnew
    rw [List.nodup_append']
    exact ⟨h, by simp, by simpa using hnew⟩

theorem good_setField {fields : Fields} (h : (Json.obj fields).Good F) (hv : v.Good F) :
    (Json.obj (setField key v fields)).Good F := by
  refine ⟨nodup_setField h.1, goodFields_iff.mpr fun f hf => ?_⟩
  rcases mem_setField hf with hf | hf
  · exact goodFields_iff.mp h.2 f hf
  · exact hf ▸ hv

/-- A `dict` has no key twice, and no value that its items do not have. -/
theorem dictOf_good (P : Json → Prop) {fields : Fields} (h : ∀ f ∈ fields, P f.2) :
    ((dictOf fields).map (·.1)).Nodup ∧ ∀ f ∈ dictOf fields, P f.2 := by
  induction fields using List.reverseRecOn with
  | nil => simp [dictOf]
  | append_singleton fields g ih =>
    obtain ⟨hkeys, hvalues⟩ := ih fun f hf => h f (by simp [hf])
    have hstep : dictOf (fields ++ [g]) = setField g.1 g.2 (dictOf fields) := by simp [dictOf]
    rw [hstep]
    refine ⟨nodup_setField hkeys, ?_⟩
    intro f hf
    rcases mem_setField hf with hf | hf
    · exact hvalues f hf
    · rw [hf]
      exact h g (by simp)

theorem scanField_value {scan : Text → Except LoadError (Json × Text)}
    (h : scanField scan t = .ok (f, rest)) : ∃ t' rest', scan t' = .ok (f.2, rest') := by
  unfold scanField at h
  split at h
  · obtain ⟨⟨key, rest'⟩, -, h⟩ := Except.bind_eq_ok.mp h
    simp only at h
    split at h
    · obtain ⟨⟨v, rest''⟩, hv, h⟩ := Except.bind_eq_ok.mp h
      cases h
      exact ⟨_, _, hv⟩
    · cases h
  · cases h

theorem scanArray_within {scan : Text → Except LoadError (Json × Text)}
    (hscan : ∀ t v rest, scan t = .ok (v, rest) → Within F levels v)
    (h : scanArray scan t = .ok (v, rest)) : Within F (levels + 1) v := by
  rw [scanArray] at h
  split at h
  · cases h
    exact ⟨trivial, by simp [depth, depthItems]⟩
  · obtain ⟨⟨items, rest'⟩, hs, h⟩ := Except.bind_eq_ok.mp h
    cases h
    have hall := scanList_forall (Within F levels) hscan hs
    refine ⟨goodItems_iff.mpr fun v hv => (hall v hv).1, ?_⟩
    rw [depth]
    exact Nat.succ_le_succ (depthItems_le_iff.mpr fun v hv => (hall v hv).2)

theorem scanObject_within {scan : Text → Except LoadError (Json × Text)}
    (hscan : ∀ t v rest, scan t = .ok (v, rest) → Within F levels v)
    (h : scanObject scan t = .ok (v, rest)) : Within F (levels + 1) v := by
  rw [scanObject] at h
  split at h
  · cases h
    exact ⟨⟨by simp, trivial⟩, by simp [depth, depthFields]⟩
  · obtain ⟨⟨fields, rest'⟩, hs, h⟩ := Except.bind_eq_ok.mp h
    cases h
    have hall := scanList_forall (fun f => Within F levels f.2) (fun t f rest hf => by
      obtain ⟨t', rest', hv⟩ := scanField_value hf
      exact hscan t' f.2 rest' hv) hs
    obtain ⟨hkeys, hvalues⟩ := dictOf_good (Within F levels) hall
    refine ⟨⟨hkeys, goodFields_iff.mpr fun f hf => (hvalues f hf).1⟩, ?_⟩
    rw [depth]
    exact Nat.succ_le_succ (depthFields_le_iff.mpr fun f hf => (hvalues f hf).2)

theorem scanValue_within {array object : Text → Except LoadError (Json × Text)}
    (harray : ∀ t v rest, array t = .ok (v, rest) → Within F levels v)
    (hobject : ∀ t v rest, object t = .ok (v, rest) → Within F levels v)
    (h : scanValue F array object t = .ok (v, rest)) : Within F levels v := by
  have hflat {v : Json} (hv : v.Good F ∧ v.depth = 0) : Within F levels v :=
    ⟨hv.1, by rw [hv.2]; exact Nat.zero_le _⟩
  unfold scanValue at h
  split at h
  · cases h
  · obtain ⟨⟨s, rest'⟩, -, h⟩ := Except.bind_eq_ok.mp h
    cases h
    exact hflat ⟨trivial, rfl⟩
  · exact hobject _ _ _ h
  · exact harray _ _ _ h
  · split at h
    · rename_i hc
      cases h
      exact hflat (scanConstant_good hc)
    · exact hflat (scanNumber_good h)

theorem scanOnce_within (h : scanOnce F levels t = .ok (v, rest)) : Within F levels v := by
  induction levels generalizing t v rest with
  | zero =>
    rw [scanOnce] at h
    exact scanValue_within (fun _ _ _ h => by cases h) (fun _ _ _ h => by cases h) h
  | succ levels ih =>
    rw [scanOnce] at h
    exact scanValue_within (fun t v rest => scanArray_within fun t v rest => ih)
      (fun t v rest => scanObject_within fun t v rest => ih) h

theorem loads_within (h : loads F levels t = .ok v) : Within F levels v := by
  rw [loads] at h
  split at h
  · cases h
  · obtain ⟨⟨v', rest⟩, hs, h⟩ := Except.bind_eq_ok.mp h
    simp only at h
    split at h
    · cases h
      exact scanOnce_within hs
    · cases h

-- ---------------------------------------------------------------------------
-- Characters
-- ---------------------------------------------------------------------------

theorem mem_escape (h : c ∈ escape d) : 32 ≤ c ∧ (c = d ∨ c < 128) := by
  have hhex (n : Nat) (hn : n < 16) : 32 ≤ Text.hexDigit n ∧ Text.hexDigit n < 128 := by
    unfold Text.hexDigit
    split <;> omega
  unfold escape at h
  repeat' split at h
  all_goals simp [Text.lit, Text.hex] at h
  all_goals
    try omega
  · have h₁ := hhex (d / 16 / 16 / 16 % 16) (by omega)
    have h₂ := hhex (d / 16 / 16 % 16) (by omega)
    have h₃ := hhex (d / 16 % 16) (by omega)
    have h₄ := hhex (d % 16) (by omega)
    omega

theorem mem_escape_self (h : 32 ≤ d) : d ∈ escape d := by
  unfold escape
  repeat' split
  all_goals simp_all [Text.lit]
  all_goals omega

variable {P : Nat → Prop}

theorem forall_mem_quote (hascii : ∀ c, 32 ≤ c → c < 128 → P c) (t : Text) :
    (∀ c ∈ quote t, P c) ↔ ∀ c ∈ t, 32 ≤ c → P c := by
  simp only [quote, List.cons_append, List.forall_mem_cons, List.forall_mem_append,
    List.mem_flatMap, hascii 34 (by decide) (by decide), true_and]
  constructor
  · rintro ⟨h, -⟩ c hc h32
    exact h c ⟨c, hc, mem_escape_self h32⟩
  · intro h
    refine ⟨?_, by simp⟩
    rintro c ⟨d, hd, hc⟩
    obtain ⟨h32, rfl | hlt⟩ := mem_escape hc
    · exact h _ hd h32
    · exact hascii c h32 hlt

theorem ofInt_ascii (n : Int) : ∀ c ∈ Text.ofInt n, 32 ≤ c ∧ c < 128 := by
  have hnat (n : Nat) : ∀ c ∈ Text.ofNat n, 32 ≤ c ∧ c < 128 := by
    intro c hc
    rw [Text.ofNat] at hc
    split at hc
    · rw [List.mem_singleton.mp hc]
      decide
    · obtain ⟨d, hd, rfl⟩ := List.mem_map.mp hc
      have : d < 10 := Nat.digits_lt_base (by omega) (List.mem_reverse.mp hd)
      omega
  rw [Text.ofInt]
  split
  · rw [List.forall_mem_cons]
    exact ⟨by decide, hnat _⟩
  · exact hnat _

theorem literal_ascii (h : scanLiteral t = some (l, rest)) :
    ∀ c ∈ l.text, 32 ≤ c ∧ c < 128 := by
  have hdigit {c : Nat} (hc : isAsciiDigit c) : 32 ≤ c ∧ c < 128 := by
    simp only [isAsciiDigit, Bool.and_eq_true, decide_eq_true_eq] at hc
    omega
  have hspan (t : Text) : ∀ c ∈ (t.span isAsciiDigit).1, 32 ≤ c ∧ c < 128 := by
    rw [List.span_eq_takeWhile_dropWhile]
    exact fun c hc => hdigit (List.mem_takeWhile_imp hc)
  have hsign (t : Text) : ∀ c ∈ (scanSign t).1, 32 ≤ c ∧ c < 128 := by
    unfold scanSign
    split <;> simp
  have hfrac (t : Text) : ∀ c ∈ (scanFrac t).1, 32 ≤ c ∧ c < 128 := by
    unfold scanFrac
    split
    · split
      · simp only [List.forall_mem_cons]
        exact ⟨by decide, hspan _⟩
      · simp
    · simp
  have hexpSign (t : Text) : ∀ c ∈ (scanExpSign t).1, 32 ≤ c ∧ c < 128 := by
    unfold scanExpSign
    split
    · split
      · rename_i h
        rcases h with rfl | rfl <;> simp
      · simp
    · simp
  have hexp (t : Text) : ∀ c ∈ (scanExp t).1, 32 ≤ c ∧ c < 128 := by
    unfold scanExp
    split
    · rename_i c rest
      split
      · rename_i hc
        simp only
        split
        · simp
        · rw [List.cons_append, List.forall_mem_cons, List.forall_mem_append]
          exact ⟨by omega, hexpSign _, hspan _⟩
      · simp
    · simp
  simp only [scanLiteral] at h
  split at h
  · cases h
  · obtain ⟨rfl, -⟩ := Prod.mk.inj (Option.some.inj h)
    simp only [Literal.text, List.forall_mem_append]
    exact ⟨⟨⟨hsign _, fun c hc => hdigit (scanWhole_digits _ c hc)⟩, hfrac _⟩, hexp _⟩

theorem floatText_ascii (h : GoodFloat F r) : ∀ c ∈ floatText r, 32 ≤ c ∧ c < 128 := by
  rw [floatText]
  repeat' split
  · decide
  · decide
  · decide
  · rcases h with rfl | rfl | rfl | ⟨⟨l, hl, -⟩, -⟩
    · exact absurd rfl ‹_›
    · exact absurd rfl ‹_›
    · exact absurd rfl ‹_›
    · have htext : l.text = r := by simpa using literal_text hl
      exact htext ▸ literal_ascii hl

def Separators.Ascii (seps : Separators) : Prop :=
  (∀ c ∈ seps.item, 32 ≤ c ∧ c < 128) ∧ ∀ c ∈ seps.key, 32 ≤ c ∧ c < 128

theorem Separators.standard_ascii : Separators.standard.Ascii := by
  constructor <;> decide

theorem Separators.compact_ascii : Separators.compact.Ascii := by
  constructor <;> decide

theorem allTexts_of_forall {p : Text → Prop} (h : ∀ t, p t) (v : Json) : v.AllTexts p := by
  induction v with
  | str t => exact h t
  | arr items ih => exact allTextsItems_iff.mpr ih
  | obj fields ih => exact allTextsFields_iff.mpr fun f hf => ⟨h f.1, ih f hf⟩
  | _ => trivial

theorem forall_mem_dumps (hascii : ∀ c, 32 ≤ c → c < 128 → P c) (hs : seps.Ascii) {v : Json}
    (hv : v.Good F) :
    (∀ c ∈ v.dumps seps, P c) ↔ v.AllTexts fun t => ∀ c ∈ t, 32 ≤ c → P c := by
  have hof {t : Text} (ht : ∀ c ∈ t, 32 ≤ c ∧ c < 128) : ∀ c ∈ t, P c :=
    fun c hc => hascii c (ht c hc).1 (ht c hc).2
  induction v with
  | null => exact iff_of_true (hof (by simp [dumps, Text.lit])) trivial
  | bool b => exact iff_of_true (hof (by cases b <;> simp [dumps, Text.lit])) trivial
  | int n => exact iff_of_true (hof (ofInt_ascii n)) trivial
  | float r => exact iff_of_true (hof (floatText_ascii hv)) trivial
  | str t => exact forall_mem_quote hascii t
  | arr items ih =>
    have hgood := goodItems_iff.mp hv
    rw [dumps, List.cons_append, List.forall_mem_cons, List.forall_mem_append,
      Text.forall_mem_join (hof hs.1), AllTexts, allTextsItems_iff, dumpsItems_eq_map,
      List.forall_mem_map]
    refine ⟨fun h v hv => (ih v hv (hgood v hv)).mp (h.2.1 v hv), fun h => ⟨?_, ?_, ?_⟩⟩
    · exact hascii 91 (by decide) (by decide)
    · exact fun v hv => (ih v hv (hgood v hv)).mpr (h v hv)
    · simpa using hascii 93 (by decide) (by decide)
  | obj fields ih =>
    have hgood := goodFields_iff.mp hv.2
    have hfield (f : Text × Json) (hf : f ∈ fields) : (∀ c ∈ dumpsField seps f, P c) ↔
        (∀ c ∈ f.1, 32 ≤ c → P c) ∧ f.2.AllTexts fun t => ∀ c ∈ t,
          32 ≤ c → P c := by
      have hvalue : (∀ c ∈ f.2.dumps seps, P c) ↔
          f.2.AllTexts fun t => ∀ c ∈ t, 32 ≤ c → P c := ih f hf (hgood f hf)
      rw [dumpsField, List.forall_mem_append, List.forall_mem_append, forall_mem_quote hascii,
        hvalue, and_iff_left (hof hs.2)]
    rw [dumps, List.cons_append, List.forall_mem_cons, List.forall_mem_append,
      Text.forall_mem_join (hof hs.1), AllTexts, allTextsFields_iff, dumpsFields_eq_map,
      List.forall_mem_map]
    refine ⟨fun h f hf => (hfield f hf).mp (h.2.1 f hf), fun h => ⟨?_, ?_, ?_⟩⟩
    · exact hascii 123 (by decide) (by decide)
    · exact fun f hf => (hfield f hf).mpr (h f hf)
    · simpa using hascii 125 (by decide) (by decide)

theorem encodes_dumps (hs : seps.Ascii) {v : Json} (hv : v.Good F) :
    (v.dumps seps).Encodes ↔ v.AllTexts Text.Encodes := by
  show (∀ c ∈ v.dumps seps, c.isValidChar) ↔ v.AllTexts Text.Encodes
  have htexts : (fun t : Text => ∀ c ∈ t, 32 ≤ c → c.isValidChar) = Text.Encodes := by
    funext t
    refine propext (forall₂_congr fun c _ => ⟨fun h => ?_, fun h _ => h⟩)
    by_cases h32 : 32 ≤ c
    · exact h h32
    · exact .inl (by omega)
  have hascii : ∀ c : Nat, 32 ≤ c → c < 128 → c.isValidChar := fun c _ h => .inl (by omega)
  rw [← htexts]
  exact forall_mem_dumps hascii hs hv

theorem le_of_mem_dumps (hs : seps.Ascii) {v : Json} (hv : v.Good F) :
    ∀ c ∈ v.dumps seps, 32 ≤ c :=
  (forall_mem_dumps (fun _ hc _ => hc) hs hv).mpr (allTexts_of_forall (fun _ _ _ hc => hc) v)

-- ---------------------------------------------------------------------------
-- Errors
-- ---------------------------------------------------------------------------

end Json

def LoadError.Worded : LoadError → Prop
  | .decode msg _ => ∀ c ∈ msg, 32 ≤ c ∧ c < 128
  | _ => True

namespace Json

variable {α : Type}

abbrev Words (x : Except LoadError α) : Prop := Except.Post (fun _ => True) LoadError.Worded x

theorem Words.bind {β : Type} {x : Except LoadError α} {f : α → Except LoadError β}
    (h : Words x)
    (hf : ∀ a, Words (f a)) : Words (x >>= f) := by
  cases x with
  | error e => exact h
  | ok a => exact hf a

theorem words_stop (t : Text) : Words (stop t : Except LoadError α) := by
  show ∀ c ∈ Text.lit "Expecting value", 32 ≤ c ∧ c < 128
  decide

theorem scanUnicode_words (t : Text) : Words (scanUnicode t) := by
  have hfail (left : Nat) :
      Words (failAt "Invalid \\uXXXX escape" left : Except LoadError (Nat × Text)) := by
    show ∀ c ∈ Text.lit "Invalid \\uXXXX escape", 32 ≤ c ∧ c < 128
    decide
  unfold scanUnicode
  split
  · exact hfail _
  · split
    · split
      · trivial
      · split
        · exact hfail _
        · split <;> trivial
    · trivial

theorem scanEscape_words (start : Nat) (t : Text) : Words (scanEscape start t) := by
  unfold scanEscape
  split
  · show ∀ c ∈ Text.lit "Unterminated string starting at", 32 ≤ c ∧ c < 128
    decide
  · exact scanUnicode_words _
  · split
    · trivial
    · show ∀ c ∈ Text.lit "Invalid \\escape", 32 ≤ c ∧ c < 128
      decide

theorem scanChars_words (start fuel : Nat) (t : Text) : Words (scanChars start fuel t) := by
  have hopen : ∀ c ∈ Text.lit "Unterminated string starting at", 32 ≤ c ∧
    c < 128 := by decide
  induction fuel generalizing t with
  | zero => exact hopen
  | succ fuel ih =>
    cases t with
    | nil => exact hopen
    | cons c rest =>
      rw [scanChars]
      split
      · trivial
      · split
        · refine (scanEscape_words start rest).bind fun out => ?_
          exact (ih out.2).bind fun _ => trivial
        · split
          · show ∀ c ∈ Text.lit "Invalid control character at", 32 ≤ c ∧ c < 128
            decide
          · exact (ih rest).bind fun _ => trivial

theorem scanNumber_words (t : Text) : Words (scanNumber F t) := by
  unfold scanNumber
  split
  · exact words_stop t
  · refine Words.bind ?_ fun _ => trivial
    unfold Literal.value
    repeat' split
    all_goals trivial

theorem scanList_words {scan : Text → Except LoadError (α × Text)}
    (hscan : ∀ t, Words (scan t))
    (fuel : Nat) (t : Text) : Words (scanList close scan fuel t) := by
  have hcomma : ∀ c ∈ Text.lit "Expecting ',' delimiter", 32 ≤ c ∧ c < 128 := by decide
  induction fuel generalizing t with
  | zero => exact (hscan t).bind fun _ => words_stop t
  | succ fuel ih =>
    rw [scanList]
    refine (hscan t).bind fun out => ?_
    simp only
    split
    · exact hcomma
    · split
      · trivial
      · split
        · exact (ih _).bind fun _ => trivial
        · exact hcomma

theorem scanField_words {scan : Text → Except LoadError (Json × Text)}
    (hscan : ∀ t, Words (scan t))
    (t : Text) : Words (scanField scan t) := by
  unfold scanField
  split
  · refine (scanChars_words _ _ _).bind fun out => ?_
    simp only
    split
    · exact (hscan _).bind fun _ => trivial
    · show ∀ c ∈ Text.lit "Expecting ':' delimiter", 32 ≤ c ∧ c < 128
      decide
  · show ∀ c ∈ Text.lit "Expecting property name enclosed in double quotes",
      32 ≤ c ∧ c < 128
    decide

theorem scanValue_words {array object : Text → Except LoadError (Json × Text)}
    (harray : ∀ t, Words (array t)) (hobject : ∀ t, Words (object t)) (t : Text) :
    Words (scanValue F array object t) := by
  unfold scanValue
  split
  · exact words_stop []
  · exact Words.bind (scanChars_words _ _ _) fun _ => trivial
  · exact hobject _
  · exact harray _
  · split
    · trivial
    · exact scanNumber_words t

theorem scanOnce_words (levels : Nat) (t : Text) : Words (scanOnce F levels t) := by
  induction levels generalizing t with
  | zero => refine scanValue_words ?_ ?_ t <;> exact fun _ => trivial
  | succ levels ih =>
    refine scanValue_words (fun t => ?_) (fun t => ?_) t
    · unfold scanArray
      split
      · trivial
      · exact (scanList_words ih _ _).bind fun _ => trivial
    · unfold scanObject
      split
      · trivial
      · exact (scanList_words (scanField_words ih) _ _).bind fun _ => trivial

theorem loads_words (F : Floats) (levels : Nat) (t : Text) : Words (loads F levels t) := by
  unfold loads
  split
  · show ∀ c ∈ Text.lit "Unexpected UTF-8 BOM (decode using utf-8-sig)", 32 ≤ c ∧ c < 128
    decide
  · refine (scanOnce_words levels _).bind fun out => ?_
    simp only
    split
    · trivial
    · show ∀ c ∈ Text.lit "Extra data", 32 ≤ c ∧ c < 128
      decide

theorem ofNat_ascii (n : Nat) : ∀ c ∈ Text.ofNat n, 32 ≤ c ∧ c < 128 := by
  have h := ofInt_ascii (n : Int)
  rwa [Text.ofInt, if_neg (by omega), Int.natAbs_natCast] at h

end Json

theorem LoadError.Worded.text {e : LoadError} (h : e.Worded) (doc : Text) :
    ∀ c ∈ e.text doc, 32 ≤ c ∧ c < 128 := by
  cases e with
  | decode msg left =>
    simp only [LoadError.text, List.forall_mem_append]
    exact ⟨⟨⟨⟨⟨⟨⟨h, by decide⟩, Json.ofNat_ascii _⟩, by decide⟩,
      Json.ofNat_ascii _⟩, by decide⟩,
      Json.ofNat_ascii _⟩, by decide⟩
  | digits count =>
    simp only [LoadError.text, List.forall_mem_append]
    exact ⟨⟨by decide, Json.ofNat_ascii _⟩, by decide⟩
  | recursion =>
    simp only [LoadError.text]
    decide
