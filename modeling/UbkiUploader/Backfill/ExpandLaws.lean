import UbkiUploader.Backfill.Expand

/-!
# What becomes of a deal

A deal that `expand_deal` returns has one of three fates, and only the last counts as
expanded. And the shapes and values on which nothing raises.
-/

namespace UbkiUploader

open Calendar (Date)

variable {I : Interpreter} {maxStep : Int} {includeFinal : Bool} {stats : ExpandStats}

-- ---------------------------------------------------------------------------
-- Counters
-- ---------------------------------------------------------------------------

theorem clean_dealsExpanded (s : Fields) (stats : ExpandStats) :
    (clean I s stats).2.dealsExpanded = stats.dealsExpanded := by
  unfold clean
  split <;> rfl

theorem makeSlice_dealsExpanded :
    (makeSlice I template dpf clc historical stats).2.dealsExpanded = stats.dealsExpanded := by
  unfold makeSlice
  simp only
  split <;> exact clean_dealsExpanded template stats

theorem countKept_dealsExpanded (keep : Keep) :
    (stats.countKept keep).dealsExpanded = stats.dealsExpanded := by
  cases keep <;> rfl

theorem keepDeal_dealsExpanded (deal current : Fields) (stats : ExpandStats) :
    (keepDeal I deal current stats).2.dealsExpanded = stats.dealsExpanded :=
  clean_dealsExpanded current stats

theorem historicalSlices_dealsExpanded
    (h : historicalSlices I template dpf months stats = .ok (chain, stats')) :
    stats'.dealsExpanded = stats.dealsExpanded := by
  induction months generalizing chain stats with
  | nil =>
    cases h
    rfl
  | cons month months ih =>
    obtain ⟨clc, -, h⟩ := Except.bind_eq_ok.mp h
    simp only at h
    split at h
    · exact (ih h).trans makeSlice_dealsExpanded
    · obtain ⟨⟨rest, stats''⟩, hrest, h⟩ := Except.bind_eq_ok.mp h
      cases h
      exact (ih hrest).trans makeSlice_dealsExpanded

-- ---------------------------------------------------------------------------
-- Fates
-- ---------------------------------------------------------------------------

/-- What `expand_deal` can return of an object. -/
inductive Fate (I : Interpreter) (maxStep : Int) (includeFinal : Bool) (deal : Fields)
    (stats : ExpandStats) : Fields × ExpandStats → Prop
  | unexpected (hslice : onlySlice (Json.getOr deal (Text.lit "deallife")) = .ok none) :
    Fate I maxStep includeFinal deal stats
      (deal, { stats with dealUnexpectedShape := stats.dealUnexpectedShape + 1 })
  | kept (current : Fields) (keep : Keep)
    (hslice : onlySlice (Json.getOr deal (Text.lit "deallife")) = .ok (some current)) :
    Fate I maxStep includeFinal deal stats (keepDeal I deal current (stats.countKept keep))
  | expanded (current : Fields) (dpf : Date) (endYear endMonth : Int)
    (out : Fields × ExpandStats)
    (hslice : onlySlice (Json.getOr deal (Text.lit "deallife")) = .ok (some current))
    (hstart : chainStart I current maxStep includeFinal = .ok (.ok dpf))
    (hyear : intField I current "dlyear" = .ok endYear)
    (hmonth : intField I current "dlmonth" = .ok endMonth)
    (hrange : 1 ≤ endMonth ∧ endMonth ≤ 12 ∧ 2000 ≤ endYear)
    (hchain : expandChain I deal current dpf endYear.toNat endMonth.toNat stats = .ok out) :
    Fate I maxStep includeFinal deal stats out

theorem expandFields_fate (h : expandFields I maxStep includeFinal deal stats = .ok out) :
    Fate I maxStep includeFinal deal stats out := by
  obtain ⟨slice, hslice, h⟩ := Except.bind_eq_ok.mp h
  cases slice with
  | none =>
    cases h
    exact .unexpected hslice
  | some current =>
    obtain ⟨start, hstart, h⟩ := Except.bind_eq_ok.mp h
    cases start with
    | error keep =>
      cases h
      exact .kept current keep hslice
    | ok dpf =>
      obtain ⟨endYear, hyear, h⟩ := Except.bind_eq_ok.mp h
      obtain ⟨endMonth, hmonth, h⟩ := Except.bind_eq_ok.mp h
      split at h
      · rename_i hrange
        exact .expanded current dpf endYear endMonth out hslice hstart hyear hmonth hrange h
      · cases h
        exact .kept current .badPeriod hslice

theorem expandChain_eq_ok (h : expandChain I deal current dpf endYear endMonth stats = .ok out) :
    ∃ clc chain stats₁, finalClc I current endYear endMonth = .ok clc ∧
      historicalSlices I current dpf (monthIter dpf endYear endMonth) stats =
      .ok (chain, stats₁) ∧
      out.1 = Json.setField (Text.lit "deallife")
        (slicesValue (chain ++ [(makeSlice I current dpf clc false stats₁).1])) deal ∧
      out.2.dealsExpanded = (makeSlice I current dpf clc false stats₁).2.dealsExpanded + 1 := by
  obtain ⟨clc, hclc, h⟩ := Except.bind_eq_ok.mp h
  obtain ⟨⟨chain, stats₁⟩, hchain, h⟩ := Except.bind_eq_ok.mp h
  exact ⟨clc, chain, stats₁, hclc, hchain, congrArg (·.1) (Except.ok.inj h).symm,
    congrArg (·.2.dealsExpanded) (Except.ok.inj h).symm⟩

theorem expandChain_dealsExpanded
    (h : expandChain I deal current dpf endYear endMonth stats = .ok out) :
    out.2.dealsExpanded = stats.dealsExpanded + 1 := by
  obtain ⟨clc, chain, stats₁, -, hchain, -, hstats⟩ := expandChain_eq_ok h
  rw [hstats, makeSlice_dealsExpanded, historicalSlices_dealsExpanded hchain]

-- ---------------------------------------------------------------------------
-- Slices
-- ---------------------------------------------------------------------------

theorem onlySlice_eq_some (h : onlySlice (Json.getOr deal key) = .ok (some current)) :
    deal.lookup key = some (.arr [.obj current]) := by
  unfold onlySlice at h
  split at h <;> cases h
  rename_i hget
  exact Option.filter_eq_some_iff.mp hget |>.1

/-- A slice comes out as it was, or without a `dldff` that is no date. -/
def SliceKept (I : Interpreter) (s s' : Json) : Prop :=
  s' = s ∨ ∃ fields, s = .obj fields ∧ parseIso I (getField fields "dldff") = none ∧
    s' = .obj (eraseField (Text.lit "dldff") fields)

theorem clean_kept (s : Fields) (stats : ExpandStats) :
    SliceKept I (.obj s) (.obj (clean I s stats).1) := by
  unfold clean
  split
  · rename_i h
    exact .inr ⟨s, rfl, h.2, rfl⟩
  · exact .inl rfl

def DealKept (I : Interpreter) (deal out : Json) : Prop :=
  out = deal ∨ ∃ fields slices slices', deal = .obj fields ∧
    fields.lookup (Text.lit "deallife") = some (.arr slices) ∧
    List.Forall₂ (SliceKept I) slices slices' ∧
    out = .obj (Json.setField (Text.lit "deallife") (.arr slices') fields)

theorem keepDeal_kept {current : Fields}
    (h : deal.lookup (Text.lit "deallife") = some (.arr [.obj current])) (stats : ExpandStats) :
    DealKept I (.obj deal) (.obj (keepDeal I deal current stats).1) :=
  .inr ⟨deal, _, _, rfl, h, .cons (clean_kept current stats) .nil, rfl⟩

theorem expandDeal_kept (h : expandDeal I maxStep includeFinal deal stats = .ok (out, stats')) :
    DealKept I deal out ∨ stats'.dealsExpanded = stats.dealsExpanded + 1 := by
  unfold expandDeal at h
  split at h
  · rename_i fields
    obtain ⟨⟨out', stats₁⟩, hfields, h⟩ := Except.bind_eq_ok.mp h
    cases h
    cases expandFields_fate hfields with
    | unexpected => exact .inl (.inl rfl)
    | kept current keep hslice => exact .inl (keepDeal_kept (onlySlice_eq_some hslice) _)
    | expanded current dpf y m _ _ _ _ _ _ hchain => exact .inr (expandChain_dealsExpanded hchain)
  · cases h

-- ---------------------------------------------------------------------------
-- Deals that can be read
-- ---------------------------------------------------------------------------

structure Readable (I : Interpreter) (current : Fields) : Prop where
  dldayexp : ∀ r, Json.getOr current (Text.lit "dldayexp") = some (.float r) →
    ¬Json.isInfinite r
  dlflstat : ∀ r, getField current "dlflstat" = .float r → ¬Json.isInfinite r
  dlamtexp : ∀ n, Json.getOr current (Text.lit "dlamtexp") = some (.int n) →
    (I.floatOfInt n).isSome

/-- The period and the calculation date of a slice, where the years that have dates are
enough for them. -/
def Dated (I : Interpreter) (current : Fields) : Prop :=
  ∃ endYear endMonth, intField I current "dlyear" = .ok endYear ∧
    intField I current "dlmonth" = .ok endMonth ∧
    (1 ≤ endMonth ∧ endMonth ≤ 12 ∧ 2000 ≤ endYear →
      (endYear < 10000 ∨ endYear = 10000 ∧ endMonth = 1) ∧
      (endYear < 10000 ∨ (parseIso I (getField current "dldateclc")).isSome))

def Guarded (I : Interpreter) (maxStep : Int) (includeFinal : Bool) (deal : Json) : Prop :=
  ∃ fields slice, deal = .obj fields ∧
    onlySlice (Json.getOr fields (Text.lit "deallife")) = .ok slice ∧
    ∀ current, slice = some current → Readable I current ∧
      ∀ dpf, chainStart I current maxStep includeFinal = .ok (.ok dpf) → Dated I current

theorem caught_isOk {α : Type} {default : α} {x : Except PyError α} (hx : ∀ e, x = .error e →
    e = .typeError ∨ e = .valueError ∨ e = .overflowError) :
    (∃ a, caught default x = .ok a) ↔ x ≠ .error .overflowError := by
  cases x with
  | ok a => simp [caught]
  | error e => rcases hx e rfl with rfl | rfl | rfl <;> simp [caught]

theorem toInt_error {v : Json} (h : v.toInt I = .error e) :
    e = .typeError ∨ e = .valueError ∨ e = .overflowError := by
  cases v with
  | float r =>
    simp only [Json.toInt] at h
    split at h
    · cases h
      exact .inr (.inl rfl)
    · split at h
      · cases h
        exact .inr (.inr rfl)
      · cases h
  | str t =>
    simp only [Json.toInt] at h
    split at h
    · cases h
    · cases h
      exact .inr (.inl rfl)
  | null => cases h; exact .inl rfl
  | arr items => cases h; exact .inl rfl
  | obj fields => cases h; exact .inl rfl
  | bool b => cases h
  | int n => cases h

theorem dldayexp_isOk {current : Fields} {key : String} :
    (∃ n, caught 0 (intField I current key) = .ok n) ↔
      ∀ r, Json.getOr current (Text.lit key) = some (.float r) → ¬Json.isInfinite r := by
  rw [caught_isOk]
  · rw [intField]
    cases hget : Json.getOr current (Text.lit key) with
    | none => simp
    | some v =>
      simp only [ne_eq, Json.toInt_eq_overflowError, Option.some.injEq, not_exists, not_and]
  · intro e he
    rw [intField] at he
    split at he
    · cases he
    · exact toInt_error he

theorem dlflstat_isOk {v : Json} : (∃ n, caught none ((v.toInt I).map some) = .ok n) ↔
    ∀ r, v = .float r → ¬Json.isInfinite r := by
  rw [caught_isOk]
  · have herr : (v.toInt I).map some = .error .overflowError ↔
      v.toInt I = .error .overflowError := by
      cases v.toInt I <;> simp [Except.map]
    simp only [ne_eq, herr, Json.toInt_eq_overflowError, not_exists, not_and]
  · intro e he
    cases hv : v.toInt I with
    | ok n =>
      rw [hv] at he
      cases he
    | error e' =>
      rw [hv] at he
      cases he
      exact toInt_error hv

theorem dlamtexp_isOk {current : Fields} {key : String} :
    (∃ b, caught true (amountZero I current key) = .ok b) ↔
      ∀ n, Json.getOr current (Text.lit key) = some (.int n) → (I.floatOfInt n).isSome := by
  have hcases : (∀ e, amountZero I current key = .error e →
      e = .typeError ∨ e = .valueError ∨ e = .overflowError) ∧
      (amountZero I current key ≠ .error .overflowError ↔
        ∀ n, Json.getOr current (Text.lit key) = some (.int n) → (I.floatOfInt n).isSome) := by
    rw [amountZero]
    cases Json.getOr current (Text.lit key) with
    | none => simp
    | some v =>
      cases v with
      | int n => cases h : I.floatOfInt n <;> simp [Json.toFloat, Except.map, h]
      | str t => cases h : I.floatOfText t <;> simp [Json.toFloat, Except.map, h]
      | _ => simp [Json.toFloat, Except.map]
  rw [caught_isOk hcases.1]
  exact hcases.2

theorem chainStart_isOk {current : Fields} :
    (∃ start, chainStart I current maxStep includeFinal = .ok start) ↔ Readable I current := by
  simp only [chainStart, Except.bind_eq_ok]
  constructor
  · rintro ⟨_, exp, hexp, flstat, hflstat, amtZero, hamt, -⟩
    exact ⟨dldayexp_isOk.mp ⟨exp, hexp⟩, dlflstat_isOk.mp ⟨flstat, hflstat⟩,
      dlamtexp_isOk.mp ⟨amtZero, hamt⟩⟩
  · rintro ⟨hexp, hflstat, hamt⟩
    obtain ⟨exp, hexp⟩ := dldayexp_isOk.mpr hexp
    obtain ⟨flstat, hflstat⟩ := dlflstat_isOk.mpr hflstat
    obtain ⟨amtZero, hamt⟩ := dlamtexp_isOk.mpr hamt
    exact ⟨_, exp, hexp, flstat, hflstat, amtZero, hamt, rfl⟩

-- ---------------------------------------------------------------------------
-- Months
-- ---------------------------------------------------------------------------

def IsMonth (p : Nat × Nat) : Prop := 1 ≤ p.1 ∧ 1 ≤ p.2 ∧ p.2 ≤ 12

theorem isMonth_nextMonth (h : IsMonth p) : IsMonth (nextMonth p) := by
  obtain ⟨y, m⟩ := p
  simp only [IsMonth, nextMonth] at h ⊢
  split <;> simp only <;> omega

theorem number_nextMonth (h : IsMonth p) :
    12 * (nextMonth p).1 + (nextMonth p).2 = 12 * p.1 + p.2 + 1 := by
  obtain ⟨y, m⟩ := p
  simp only [IsMonth, nextMonth] at h ⊢
  split <;> simp only <;> omega

theorem isMonth_of_mem_monthsFrom (h : IsMonth p) (hq : q ∈ monthsFrom n p) : IsMonth q := by
  induction n generalizing p with
  | zero => cases hq
  | succ n ih =>
    rcases List.mem_cons.mp hq with rfl | hq
    · exact h
    · exact ih (isMonth_nextMonth h) hq

theorem forall_year_monthsFrom (h : IsMonth p) :
    (∀ q ∈ monthsFrom n p, q.1 ≤ 9999) ↔ n = 0 ∨ 12 * p.1 + p.2 + n ≤ 120001 := by
  induction n generalizing p with
  | zero => simp [monthsFrom]
  | succ n ih =>
    rw [monthsFrom, List.forall_mem_cons, ih (isMonth_nextMonth h), number_nextMonth h]
    obtain ⟨-, h1, h12⟩ := h
    omega

theorem daysInMonth_pos (y m : Nat) : 1 ≤ Calendar.daysInMonth y m := by
  unfold Calendar.daysInMonth
  split
  · split <;> omega
  · split <;> omega

theorem monthEnd_eq_ok {d : Date} : monthEnd y m = .ok d ↔
    d.year = y ∧ d.month = m ∧ d.day = Calendar.daysInMonth y m := by
  rw [← Date.mk?_eq_some_iff, monthEnd]
  cases Date.mk? y m (Calendar.daysInMonth y m) <;> simp

theorem monthEnd_isOk (h : IsMonth (y, m)) : (∃ d, monthEnd y m = .ok d) ↔ y ≤ 9999 := by
  obtain ⟨hy, h1, h12⟩ := h
  constructor
  · rintro ⟨d, hd⟩
    exact (monthEnd_eq_ok.mp hd).1 ▸ d.year_valid.2
  · intro hle
    exact ⟨⟨y, m, _, ⟨hy, hle⟩, ⟨h1, h12⟩, ⟨daysInMonth_pos y m, le_rfl⟩⟩,
      monthEnd_eq_ok.mpr ⟨rfl, rfl, rfl⟩⟩

theorem historicalSlices_isOk {months : List (Nat × Nat)} (h : ∀ p ∈ months, IsMonth p) :
    (∃ out, historicalSlices I template dpf months stats = .ok out) ↔
    ∀ p ∈ months, p.1 ≤ 9999 := by
  induction months generalizing stats with
  | nil => exact iff_of_true ⟨_, rfl⟩ (by simp)
  | cons p months ih =>
    obtain ⟨y, m⟩ := p
    rw [List.forall_mem_cons] at h ⊢
    rw [← monthEnd_isOk h.1]
    simp only [historicalSlices, Except.bind_eq_ok]
    constructor
    · rintro ⟨out, clc, hclc, hrest⟩
      refine ⟨⟨clc, hclc⟩, ?_⟩
      split at hrest
      · exact (ih h.2).mp ⟨out, hrest⟩
      · obtain ⟨rest, hrest, -⟩ := Except.bind_eq_ok.mp hrest
        exact (ih h.2).mp ⟨rest, hrest⟩
    · rintro ⟨⟨clc, hclc⟩, hyears⟩
      by_cases hzero : daysSince clc dpf = 0
      · obtain ⟨out, hout⟩ := (ih h.2).mpr hyears
        exact ⟨out, clc, hclc, by rw [if_pos hzero, hout]⟩
      · obtain ⟨out, hout⟩ := (ih h.2).mpr hyears
        exact ⟨_, clc, hclc, by rw [if_neg hzero, hout]; rfl⟩

theorem isMonth_start (dpf : Date) : IsMonth (dpf.year, dpf.month) :=
  ⟨dpf.year_valid.1, dpf.month_valid⟩

theorem expandChain_isOk {current : Fields} (hmonth : 1 ≤ endMonth ∧ endMonth ≤ 12)
    (hyear : 2000 ≤ endYear) :
    (∃ out, expandChain I deal current dpf endYear endMonth stats = .ok out) ↔
      (endYear < 10000 ∨ endYear = 10000 ∧ endMonth = 1) ∧
        (endYear < 10000 ∨ (parseIso I (getField current "dldateclc")).isSome) := by
  have hstart := isMonth_start dpf
  have hclc : (∃ clc, finalClc I current endYear endMonth = .ok clc) ↔
      (endYear < 10000 ∨ (parseIso I (getField current "dldateclc")).isSome) := by
    rw [finalClc]
    cases parseIso I (getField current "dldateclc") with
    | some clc => simp
    | none =>
      have hend : IsMonth (endYear, endMonth) := ⟨Nat.le_trans (by decide) hyear, hmonth⟩
      simp only [monthEnd_isOk hend, Option.isSome_none, Bool.false_eq_true, or_false]
      omega
  have hhist : (∃ out,
    historicalSlices I current dpf (monthIter dpf endYear endMonth) stats = .ok out) ↔
      (endYear < 10000 ∨ endYear = 10000 ∧ endMonth = 1) := by
    have := dpf.year_valid
    have := dpf.month_valid
    rw [monthIter, historicalSlices_isOk fun _ => isMonth_of_mem_monthsFrom hstart,
      forall_year_monthsFrom hstart]
    simp only
    omega
  rw [← hclc, ← hhist]
  simp only [expandChain, Except.bind_eq_ok]
  constructor
  · rintro ⟨out, clc, hclc, hist, hhist, -⟩
    exact ⟨⟨hist, hhist⟩, clc, hclc⟩
  · rintro ⟨⟨hist, hhist⟩, clc, hclc⟩
    exact ⟨_, clc, hclc, hist, hhist, rfl⟩

/-- `expand_deal` returns exactly on the deals that are guarded. -/
theorem expandDeal_isOk (deal : Json) (stats : ExpandStats) :
    (∃ out, expandDeal I maxStep includeFinal deal stats = .ok out) ↔
      Guarded I maxStep includeFinal deal := by
  constructor
  · rintro ⟨out, h⟩
    unfold expandDeal at h
    split at h
    · rename_i fields
      obtain ⟨made, h, -⟩ := Except.bind_eq_ok.mp h
      obtain ⟨slice, hslice, h⟩ := Except.bind_eq_ok.mp h
      refine ⟨fields, slice, rfl, hslice, ?_⟩
      rintro current rfl
      obtain ⟨start, hstart, h⟩ := Except.bind_eq_ok.mp h
      refine ⟨chainStart_isOk.mp ⟨start, hstart⟩, fun dpf hdpf => ?_⟩
      cases hstart.symm.trans hdpf
      obtain ⟨endYear, hyear, h⟩ := Except.bind_eq_ok.mp h
      obtain ⟨endMonth, hmonth, h⟩ := Except.bind_eq_ok.mp h
      refine ⟨endYear, endMonth, hyear, hmonth, fun hrange => ?_⟩
      rw [if_pos hrange] at h
      obtain ⟨hend, hclc⟩ := (expandChain_isOk (by omega) (by omega)).mp ⟨made, h⟩
      exact ⟨by omega, hclc.imp_left fun hlt => by omega⟩
    · cases h
  · rintro ⟨fields, slice, rfl, hslice, hguard⟩
    suffices ∃ made, expandFields I maxStep includeFinal fields stats = .ok made by
      obtain ⟨made, hmade⟩ := this
      exact ⟨_, Except.bind_eq_ok.mpr ⟨made, hmade, rfl⟩⟩
    cases slice with
    | none => exact ⟨_, Except.bind_eq_ok.mpr ⟨_, hslice, rfl⟩⟩
    | some current =>
      obtain ⟨hread, hdated⟩ := hguard current rfl
      obtain ⟨start, hstart⟩ := chainStart_isOk.mpr hread
      simp only [expandFields, Except.bind_eq_ok]
      cases start with
      | error keep => exact ⟨_, _, hslice, Except.bind_eq_ok.mpr ⟨_, hstart, rfl⟩⟩
      | ok dpf =>
        obtain ⟨endYear, endMonth, hyear, hmonth, hend⟩ := hdated dpf hstart
        by_cases hrange : 1 ≤ endMonth ∧ endMonth ≤ 12 ∧ 2000 ≤ endYear
        · obtain ⟨hlast, hclc⟩ := hend hrange
          have hchain : ∃ made,
            expandChain I fields current dpf endYear.toNat endMonth.toNat stats =
              .ok made :=
            (expandChain_isOk (by omega) (by omega)).mpr
              ⟨by omega, hclc.imp_left fun hlt => by omega⟩
          obtain ⟨made, hmade⟩ := hchain
          exact ⟨made, _, hslice, Except.bind_eq_ok.mpr ⟨_, hstart, Except.bind_eq_ok.mpr
            ⟨_, hyear,
              Except.bind_eq_ok.mpr ⟨_, hmonth, by rw [if_pos hrange, hmade]⟩⟩⟩⟩
        · exact ⟨_, _, hslice, Except.bind_eq_ok.mpr ⟨_, hstart, Except.bind_eq_ok.mpr
            ⟨_, hyear, Except.bind_eq_ok.mpr ⟨_, hmonth, if_neg hrange⟩⟩⟩⟩

end UbkiUploader
