import UbkiUploader.Backfill.ExpandLaws

/-!
# The law of a chain

One slice for each month from the first one that ends after `dldpf` to the deal's own,
with overdue days that grow by a month at a time. It holds of a chain exactly when the
calculation date lies in the deal's own month and after `dldpf`, and nothing checks that.
-/

namespace UbkiUploader

open Calendar (Date daysInMonth)

variable {I : Interpreter} {maxStep : Int} {includeFinal : Bool} {stats : ExpandStats}

-- ---------------------------------------------------------------------------
-- Months and days
-- ---------------------------------------------------------------------------

def endOrdinal (p : Nat × Nat) : Nat :=
  Calendar.daysBeforeYear p.1 + Calendar.daysBeforeMonth p.1 p.2 + daysInMonth p.1 p.2

theorem endOrdinal_nextMonth (h : IsMonth p) :
    endOrdinal (nextMonth p) = endOrdinal p + daysInMonth (nextMonth p).1 (nextMonth p).2 := by
  obtain ⟨y, m⟩ := p
  obtain ⟨-, h1, h12⟩ := h
  by_cases hlast : m = 12
  · subst hlast
    have hnext : nextMonth (y, 12) = (y + 1, 1) := rfl
    have hmonths : Calendar.daysBeforeMonth y 12 + daysInMonth y 12 = Calendar.yearLength y :=
      Calendar.daysBeforeMonth_year y
    have hyear : Calendar.daysBeforeYear (y + 1) =
        Calendar.daysBeforeYear y + Calendar.yearLength y := rfl
    have hfirst : Calendar.daysBeforeMonth (y + 1) 1 = 0 := rfl
    simp only [endOrdinal, hnext]
    omega
  · obtain ⟨k, rfl⟩ : ∃ k, m = k + 1 := ⟨m - 1, (Nat.sub_add_cancel h1).symm⟩
    have hnext : nextMonth (y, k + 1) = (y, k + 1 + 1) := if_neg (by simp only at h12; omega)
    simp only [endOrdinal, hnext, Calendar.daysBeforeMonth]
    omega

theorem ordinal_add_daysInMonth (d : Date) :
    d.ordinal + daysInMonth d.year d.month = endOrdinal (d.year, d.month) + d.day := by
  simp only [Date.ordinal, endOrdinal]
  omega

theorem isMonth_ext (hp : IsMonth p) (hq : IsMonth q) (h : 12 * p.1 + p.2 = 12 * q.1 + q.2) :
    p = q := by
  obtain ⟨-, hp1, hp12⟩ := hp
  obtain ⟨-, hq1, hq12⟩ := hq
  exact Prod.ext (by omega) (by omega)

theorem isMonth_iterate (h : IsMonth p) (k : Nat) : IsMonth (nextMonth^[k] p) := by
  induction k generalizing p with
  | zero => exact h
  | succ k ih => exact ih (isMonth_nextMonth h)

theorem number_iterate (h : IsMonth p) (k : Nat) :
    12 * (nextMonth^[k] p).1 + (nextMonth^[k] p).2 = 12 * p.1 + p.2 + k := by
  induction k generalizing p with
  | zero => rfl
  | succ k ih =>
    rw [Function.iterate_succ_apply, ih (isMonth_nextMonth h), number_nextMonth h]
    omega

theorem endOrdinal_lt (hp : IsMonth p) (hq : IsMonth q) (h : 12 * p.1 + p.2 < 12 * q.1 + q.2) :
    endOrdinal p + daysInMonth q.1 q.2 ≤ endOrdinal q := by
  obtain ⟨k, hk⟩ : ∃ k, 12 * q.1 + q.2 = 12 * p.1 + p.2 + (k + 1) :=
    ⟨12 * q.1 + q.2 - (12 * p.1 + p.2) - 1, by omega⟩
  obtain rfl : q = nextMonth^[k + 1] p :=
    isMonth_ext hq (isMonth_iterate hp _) (hk.trans (number_iterate hp _).symm)
  clear hq h hk
  induction k generalizing p with
  | zero => exact (endOrdinal_nextMonth hp).ge
  | succ k ih =>
    have hnext := endOrdinal_nextMonth hp
    have := ih (isMonth_nextMonth hp)
    rw [Function.iterate_succ_apply]
    omega

theorem exists_iterate_of_mem_monthsFrom (h : q ∈ monthsFrom n p) :
    ∃ k, q = nextMonth^[k] p := by
  induction n generalizing p with
  | zero => cases h
  | succ n ih =>
    rcases List.mem_cons.mp h with rfl | h
    · exact ⟨0, rfl⟩
    · obtain ⟨k, hk⟩ := ih h
      exact ⟨k + 1, hk⟩

def firstMonth (dpf : Date) : Nat × Nat :=
  if dpf.day = daysInMonth dpf.year dpf.month then nextMonth (dpf.year, dpf.month)
  else (dpf.year, dpf.month)

theorem isMonth_firstMonth (dpf : Date) : IsMonth (firstMonth dpf) := by
  unfold firstMonth
  split
  · exact isMonth_nextMonth (isMonth_start dpf)
  · exact isMonth_start dpf

theorem firstMonth_begin (dpf : Date) :
    endOrdinal (firstMonth dpf) ≤ dpf.ordinal + daysInMonth (firstMonth dpf).1
    (firstMonth dpf).2 := by
  have hstart := ordinal_add_daysInMonth dpf
  have hday := dpf.day_valid
  unfold firstMonth
  split
  · have hnext := endOrdinal_nextMonth (isMonth_start dpf)
    omega
  · simp only
    omega

theorem firstMonth_end (dpf : Date) : dpf.ordinal < endOrdinal (firstMonth dpf) ∧
    endOrdinal (firstMonth dpf) ≤ dpf.ordinal + 31 := by
  have hstart := ordinal_add_daysInMonth dpf
  have hday := dpf.day_valid
  unfold firstMonth
  split
  · have hnext := endOrdinal_nextMonth (isMonth_start dpf)
    have := daysInMonth_pos (nextMonth (dpf.year, dpf.month)).1 (nextMonth (dpf.year, dpf.month)).2
    have := Calendar.daysInMonth_le (nextMonth (dpf.year, dpf.month)).1
      (nextMonth (dpf.year, dpf.month)).2
    omega
  · have := Calendar.daysInMonth_le dpf.year dpf.month
    omega

/-- Of the months from that of the date on, those from the first one on end after it. -/
theorem filter_monthIter (dpf : Date) (endYear endMonth : Nat) :
    (monthIter dpf endYear endMonth).filter (fun p => dpf.ordinal < endOrdinal p) =
      monthsFrom (12 * endYear + endMonth - (12 * (firstMonth dpf).1 + (firstMonth dpf).2))
        (firstMonth dpf) := by
  have hlater {n : Nat} : ∀ q ∈ monthsFrom n (firstMonth dpf), dpf.ordinal < endOrdinal q := by
    intro q hq
    have hfirst := (firstMonth_end dpf).1
    obtain ⟨k, rfl⟩ := exists_iterate_of_mem_monthsFrom hq
    cases k with
    | zero => exact hfirst
    | succ k =>
      have :=
        endOrdinal_lt (isMonth_firstMonth dpf) (isMonth_iterate (isMonth_firstMonth dpf) (k + 1))
        (by rw [number_iterate (isMonth_firstMonth dpf)]; omega)
      omega
  have hstart := ordinal_add_daysInMonth dpf
  have hnumber := number_nextMonth (isMonth_start dpf)
  unfold monthIter
  by_cases hday : dpf.day = daysInMonth dpf.year dpf.month
  · -- the month of the date ends with it
    have hfirst : firstMonth dpf = nextMonth (dpf.year, dpf.month) := if_pos hday
    rw [hfirst] at hlater ⊢
    rw [hnumber]
    cases hn : 12 * endYear + endMonth - (12 * dpf.year + dpf.month) with
    | zero =>
      rw [show 12 * endYear + endMonth - (12 * dpf.year + dpf.month + 1) = 0 by omega]
      rfl
    | succ n =>
      rw [show 12 * endYear + endMonth - (12 * dpf.year + dpf.month + 1) = n by omega, monthsFrom,
        List.filter_cons_of_neg (by simp only [decide_eq_true_eq]; omega), List.filter_eq_self]
      exact fun q hq => decide_eq_true (hlater q hq)
  · have hfirst : firstMonth dpf = (dpf.year, dpf.month) := if_neg hday
    rw [hfirst] at hlater ⊢
    rw [List.filter_eq_self]
    exact fun q hq => decide_eq_true (hlater q hq)

-- ---------------------------------------------------------------------------
-- Slices
-- ---------------------------------------------------------------------------

theorem lookup_eraseField (fields : Fields) :
    (eraseField key fields).lookup k = if k = key then none else fields.lookup k := by
  induction fields with
  | nil => simp [eraseField]
  | cons f fields ih =>
    obtain ⟨k₀, v⟩ := f
    have ih : (fields.filter (·.1 ≠ key)).lookup k = if k =
      key then none else fields.lookup k := ih
    rw [eraseField, List.filter_cons, Json.lookup_cons]
    by_cases hk : k₀ = key
    · subst hk
      rw [if_neg (by simp), ih]
      split <;> rfl
    · rw [if_pos (by simpa using hk), Json.lookup_cons, ih]
      split
      · rename_i heq
        rw [if_neg (heq ▸ hk)]
      · rfl

/-- A slice made for a date. -/
structure MadeFor (template : Fields) (dpf d : Date) (slice : Fields) : Prop where
  year : slice.lookup (Text.lit "dlyear") = some (.int d.year)
  month : slice.lookup (Text.lit "dlmonth") = some (.int d.month)
  dateclc : slice.lookup (Text.lit "dldateclc") = some (.str d.isoformat)
  dayexp : slice.lookup (Text.lit "dldayexp") = some (.int (daysSince d dpf))
  amtexp : slice.lookup (Text.lit "dlamtexp") = template.lookup (Text.lit "dlamtexp")

theorem makeSlice_madeFor (template : Fields) (dpf d : Date) (historical : Bool)
    (stats : ExpandStats) :
    MadeFor template dpf d (makeSlice I template dpf d historical stats).1 := by
  have hclean : (clean I template stats).1.lookup (Text.lit "dlamtexp") =
      template.lookup (Text.lit "dlamtexp") := by
    unfold clean
    split
    · rw [lookup_eraseField, if_neg (by decide)]
    · rfl
  unfold makeSlice
  cases historical with
  | false =>
    refine ⟨?_, ?_, ?_, ?_, ?_⟩ <;> simp only [Bool.false_eq_true, if_false,
      Json.lookup_setField]
    · rfl
    · rfl
    · rfl
    · rfl
    · exact hclean
  | true =>
    refine ⟨?_, ?_, ?_, ?_, ?_⟩ <;> simp only [if_true, lookup_eraseField, Json.lookup_setField]
    · rfl
    · rfl
    · rfl
    · rfl
    · exact hclean

/-- The slices before the last are made for the ends of the months that end after
`dldpf`. -/
theorem historicalSlices_spec {months : List (Nat × Nat)}
    (h : historicalSlices I template dpf months stats = .ok (chain, stats')) :
    ∃ dates, List.Forall₂ (fun p d => monthEnd p.1 p.2 = .ok d ∧ dpf.ordinal < d.ordinal)
        (months.filter fun p => dpf.ordinal < endOrdinal p) dates ∧
      List.Forall₂ (MadeFor template dpf) dates chain := by
  induction months generalizing chain stats stats' with
  | nil =>
    cases h
    exact ⟨[], .nil, .nil⟩
  | cons p months ih =>
    obtain ⟨clc, hclc, h⟩ := Except.bind_eq_ok.mp h
    obtain ⟨hyear, hmonth, hday⟩ := monthEnd_eq_ok.mp hclc
    have hend : clc.ordinal = endOrdinal p := by
      have := ordinal_add_daysInMonth clc
      rw [hyear, hmonth] at this
      simp only [Prod.mk.eta] at this
      omega
    simp only at h
    split at h
    · rename_i hzero
      obtain ⟨dates, hdates, hchain⟩ := ih h
      refine ⟨dates, ?_, hchain⟩
      rwa [List.filter_cons_of_neg]
      simp only [daysSince] at hzero
      simp only [decide_eq_true_eq]
      omega
    · rename_i hpos
      obtain ⟨⟨rest, stats₁⟩, hrest, h⟩ := Except.bind_eq_ok.mp h
      obtain ⟨dates, hdates, hchain⟩ := ih hrest
      obtain rfl : _ = chain := congrArg (·.1) (Except.ok.inj h)
      refine ⟨clc :: dates, ?_, .cons (makeSlice_madeFor template dpf clc true _) hchain⟩
      have hlt : dpf.ordinal < clc.ordinal := by
        simp only [daysSince] at hpos
        omega
      rw [List.filter_cons_of_pos]
      · exact .cons ⟨hclc, hlt⟩ hdates
      · exact decide_eq_true (hend ▸ hlt)

-- ---------------------------------------------------------------------------
-- The law
-- ---------------------------------------------------------------------------

/-- What a slice states: its period, its calculation date, and the days overdue until
then, which are some. -/
structure SliceLaw (dpf : Date) (slice : Fields) (period : Nat × Nat) (d : Date) : Prop where
  year : slice.lookup (Text.lit "dlyear") = some (.int period.1)
  month : slice.lookup (Text.lit "dlmonth") = some (.int period.2)
  dateclc : slice.lookup (Text.lit "dldateclc") = some (.str d.isoformat)
  dayexp : slice.lookup (Text.lit "dldayexp") = some (.int (d.ordinal - dpf.ordinal))
  overdue : dpf.ordinal < d.ordinal

/-- One slice comes a calendar month after the other, and its date by at most `maxStep`
days. -/
def Follows (maxStep : Int) (a b : (Nat × Nat) × Date) : Prop :=
  b.1 = nextMonth a.1 ∧ a.2.ordinal < b.2.ordinal ∧
    (b.2.ordinal : Int) - a.2.ordinal ≤ maxStep

/-- A full chain from the first month that ends after `dldpf` to the deal's own period,
where the last slice has the deal's own calculation date. -/
structure ChainLaw (maxStep : Int) (dpf : Date) (own : Nat × Nat) (clc : Date)
    (chain : List Fields) (entries : List ((Nat × Nat) × Date)) : Prop where
  slices : List.Forall₂ (fun slice e => SliceLaw dpf slice e.1 e.2) chain entries
  first : ∀ e ∈ entries.head?, e.1 = firstMonth dpf ∧ e.2.ordinal ≤ dpf.ordinal + 31
  follows : entries.IsChain (Follows maxStep)
  last : entries.getLast? = some (own, clc)

/-- The calculation date lies in the deal's own period and after `dldpf`. -/
def OnPeriod (dpf : Date) (own : Nat × Nat) (clc : Date) : Prop :=
  (clc.year, clc.month) = own ∧ dpf.ordinal < clc.ordinal

theorem SliceLaw.of_madeFor (h : MadeFor template dpf d slice) (hd : dpf.ordinal < d.ordinal) :
    SliceLaw dpf slice (d.year, d.month) d where
  year := h.year
  month := h.month
  dateclc := h.dateclc
  dayexp := by
    rw [h.dayexp, daysSince]
    congr 2
    omega
  overdue := hd

/-- A chain that is lawful ends in the deal's own period, after `dldpf`. -/
theorem onPeriod_of_law (hlast : MadeFor template dpf clc last)
    (h : ChainLaw maxStep dpf own clc (chain ++ [last]) entries) : OnPeriod dpf own clc := by
  obtain ⟨front, rfl⟩ := List.getLast?_eq_some_iff.mp h.last
  have hslice := h.slices.last
  have hyear := hlast.year.symm.trans hslice.year
  have hmonth := hlast.month.symm.trans hslice.month
  simp only [Option.some.injEq, Json.int.injEq, Nat.cast_inj] at hyear hmonth
  exact ⟨Prod.ext hyear hmonth, hslice.overdue⟩

theorem ordinal_in_month {d : Date} (h : (d.year, d.month) = p) : d.ordinal ≤ endOrdinal p ∧
    endOrdinal p < d.ordinal + daysInMonth p.1 p.2 := by
  have hd := ordinal_add_daysInMonth d
  have hday := d.day_valid
  subst h
  simp only at hday ⊢
  omega

theorem follows_monthsFrom {clc : Date} (hmax : 31 ≤ maxStep) (hp : IsMonth p)
    (hdates : List.Forall₂ (fun (q : Nat × Nat) d => monthEnd q.1 q.2 = .ok d)
      (monthsFrom n p) dates)
    (hclc : (clc.year, clc.month) = nextMonth^[n] p) :
    ((monthsFrom n p).zip dates ++ [(nextMonth^[n] p, clc)]).IsChain (Follows maxStep) ∧
      ∀ e ∈ ((monthsFrom n p).zip dates ++ [(nextMonth^[n] p, clc)]).head?,
        e.1 = p ∧ (e.2.year, e.2.month) = p := by
  induction n generalizing p dates with
  | zero =>
    refine ⟨List.isChain_singleton _, ?_⟩
    intro e he
    cases he
    exact ⟨rfl, hclc⟩
  | succ n ih =>
    obtain ⟨d, rest, hd, hrest, rfl⟩ := List.forall₂_cons_left_iff.mp hdates
    obtain ⟨hyear, hmonth, hday⟩ := monthEnd_eq_ok.mp hd
    obtain ⟨hchain, hhead⟩ := ih (isMonth_nextMonth hp) hrest hclc
    rw [monthsFrom, List.zip_cons_cons, List.cons_append]
    refine ⟨List.isChain_cons.mpr ⟨fun e he => ?_, hchain⟩, ?_⟩
    · obtain ⟨hnext, hin⟩ := hhead e he
      have hbounds := ordinal_in_month hin
      have hend := endOrdinal_nextMonth hp
      have hlast : d.ordinal = endOrdinal p := by
        have := ordinal_add_daysInMonth d
        rw [hyear, hmonth, Prod.mk.eta] at this
        omega
      have := Calendar.daysInMonth_le (nextMonth p).1 (nextMonth p).2
      exact ⟨hnext, by simp only; omega, by simp only; omega⟩
    · intro e he
      cases he
      exact ⟨rfl, Prod.ext hyear hmonth⟩

/-- A date after `dldpf` is in no month before the first. -/
theorem firstMonth_le {clc : Date} (hown : IsMonth own) (h : OnPeriod dpf own clc) :
    12 * (firstMonth dpf).1 + (firstMonth dpf).2 ≤ 12 * own.1 + own.2 := by
  by_contra hlt
  have hend := endOrdinal_lt hown (isMonth_firstMonth dpf) (by omega)
  have hbegin := firstMonth_begin dpf
  have hclc := (ordinal_in_month h.1).1
  have := h.2
  omega

theorem chainLaw_of_onPeriod {clc : Date} (hmax : 31 ≤ maxStep) (hown : IsMonth own)
    (hhist : historicalSlices I current dpf (monthIter dpf own.1 own.2) stats = .ok (chain, stats'))
    (hlast : MadeFor current dpf clc last) (h : OnPeriod dpf own clc) :
    ∃ entries, ChainLaw maxStep dpf own clc (chain ++ [last]) entries := by
  obtain ⟨dates, hdates, hchain⟩ := historicalSlices_spec hhist
  rw [filter_monthIter] at hdates
  have hfirst := isMonth_firstMonth dpf
  generalize hn : 12 * own.1 + own.2 - (12 * (firstMonth dpf).1 + (firstMonth dpf).2) = n at hdates
  have hend : own = nextMonth^[n] (firstMonth dpf) := by
    refine isMonth_ext hown (isMonth_iterate hfirst n) ?_
    have := firstMonth_le hown h
    rw [number_iterate hfirst]
    omega
  obtain ⟨hfollows, hhead⟩ := follows_monthsFrom hmax hfirst (hdates.imp fun _ _ hd => hd.1)
    (h.1.trans hend)
  rw [← hend] at hfollows hhead
  refine ⟨_, ⟨(hdates.zip hchain ?_).append (.cons ?_ .nil), ?_, hfollows,
    List.getLast?_concat⟩⟩
  · intro p d slice hd hmade
    obtain ⟨hyear, hmonth, -⟩ := monthEnd_eq_ok.mp hd.1
    obtain rfl : (d.year, d.month) = p := Prod.ext hyear hmonth
    exact .of_madeFor hmade hd.2
  · have := SliceLaw.of_madeFor hlast h.2
    rwa [h.1] at this
  · intro e he
    obtain ⟨heq, hin⟩ := hhead e he
    exact ⟨heq, (ordinal_in_month hin).1.trans (firstMonth_end dpf).2⟩

end UbkiUploader
