import UbkiUploader.Backfill.Chain
import UbkiUploader.Backfill.Frame

/-!
# Lawful chains pass the check

What `assert_chain_sane` finds in the result of `expand_subject`: nothing, where every
chain is lawful and what was left as it was is sane already.
-/

namespace UbkiUploader

open Calendar (Date)

variable {I : Interpreter} {maxStep : Int} {includeFinal includeMultiDeal : Bool}
  {stats : ExpandStats}

-- ---------------------------------------------------------------------------
-- Deals that are expanded
-- ---------------------------------------------------------------------------

/-- What `expand_deal` reads of a deal that it expands. -/
structure Expanding (I : Interpreter) (maxStep : Int) (includeFinal : Bool) (deal : Json)
    (current : Fields) (dpf : Date) (own : Nat × Nat) (clc : Date) : Prop where
  slice : ∃ fields, deal = .obj fields ∧
    onlySlice (Json.getOr fields (Text.lit "deallife")) = .ok (some current)
  start : chainStart I current maxStep includeFinal = .ok (.ok dpf)
  year : intField I current "dlyear" = .ok own.1
  month : intField I current "dlmonth" = .ok own.2
  range : 1 ≤ own.2 ∧ own.2 ≤ 12 ∧ 2000 ≤ own.1
  date : finalClc I current own.1 own.2 = .ok clc

theorem Expanding.unique (h : Expanding I maxStep includeFinal deal current dpf own clc)
    (h' : Expanding I maxStep includeFinal deal current' dpf' own' clc') :
    current = current' ∧ dpf = dpf' ∧ own = own' ∧ clc = clc' := by
  obtain ⟨fields, rfl, hslice⟩ := h.slice
  obtain ⟨fields', heq, hslice'⟩ := h'.slice
  cases heq
  cases hslice.symm.trans hslice'
  cases h.start.symm.trans h'.start
  have hyear := h.year.symm.trans h'.year
  have hmonth := h.month.symm.trans h'.month
  simp only [Except.ok.injEq, Nat.cast_inj] at hyear hmonth
  obtain rfl : own = own' := Prod.ext hyear hmonth
  cases h.date.symm.trans h'.date
  exact ⟨rfl, rfl, rfl, rfl⟩

theorem Expanding.comes_out (h : Expanding I maxStep includeFinal deal current dpf own clc)
    (hrun : expandDeal I maxStep includeFinal deal stats = .ok (out, stats')) :
    stats'.dealsExpanded = stats.dealsExpanded + 1 ∧ ∃ fields chain before after,
      historicalSlices I current dpf (monthIter dpf own.1 own.2) stats = .ok (chain, before) ∧
      MadeFor current dpf clc after ∧ out = .obj fields ∧
      fields.lookup (Text.lit "deallife") = some (slicesValue (chain ++ [after])) := by
  obtain ⟨deal, rfl, hslice⟩ := h.slice
  obtain ⟨made, hmade, hrun⟩ := Except.bind_eq_ok.mp hrun
  have hchain : expandChain I deal current dpf own.1 own.2 stats = .ok made := by
    obtain ⟨slice, hslice', hmade⟩ := Except.bind_eq_ok.mp hmade
    cases hslice.symm.trans hslice'
    obtain ⟨start, hstart, hmade⟩ := Except.bind_eq_ok.mp hmade
    cases h.start.symm.trans hstart
    obtain ⟨endYear, hyear, hmade⟩ := Except.bind_eq_ok.mp hmade
    cases h.year.symm.trans hyear
    obtain ⟨endMonth, hmonth, hmade⟩ := Except.bind_eq_ok.mp hmade
    cases h.month.symm.trans hmonth
    have hrange := h.range
    rwa [if_pos (by omega)] at hmade
  obtain ⟨clc', chain, before, hclc, hhist, hout, -⟩ := expandChain_eq_ok hchain
  cases hclc.symm.trans h.date
  have hcount := expandChain_dealsExpanded hchain
  cases hrun
  exact ⟨hcount, made.1, chain, before, _, hhist,
    makeSlice_madeFor current dpf clc false before, rfl,
    by rw [hout, Json.lookup_setField, if_pos rfl]⟩

theorem exists_expanding (hrun : expandDeal I maxStep includeFinal deal stats = .ok (out, stats'))
    (hcount : stats'.dealsExpanded = stats.dealsExpanded + 1) :
    ∃ current dpf own clc, Expanding I maxStep includeFinal deal current dpf own clc := by
  unfold expandDeal at hrun
  split at hrun
  · rename_i fields
    obtain ⟨made, hmade, hrun⟩ := Except.bind_eq_ok.mp hrun
    cases hrun
    cases expandFields_fate hmade with
    | unexpected => simp at hcount
    | kept current keep =>
      rw [keepDeal_dealsExpanded, countKept_dealsExpanded] at hcount
      omega
    | expanded current dpf endYear endMonth _ hslice hstart hyear hmonth hrange hchain =>
      obtain ⟨clc, -, -, hclc, -⟩ := expandChain_eq_ok hchain
      exact ⟨current, dpf, (endYear.toNat, endMonth.toNat), clc,
        ⟨fields, rfl, hslice⟩, hstart,
        by rw [hyear]; congr 1; omega, by rw [hmonth]; congr 1; omega, by simp only; omega, hclc⟩
  · cases hrun

def LawfulChain (I : Interpreter) (maxStep : Int) (includeFinal : Bool) (deal out : Json) : Prop :=
  ∃ current dpf own clc fields chain entries,
    Expanding I maxStep includeFinal deal current dpf own clc ∧ out = .obj fields ∧
    fields.lookup (Text.lit "deallife") = some (slicesValue chain) ∧
    ChainLaw maxStep dpf own clc chain entries

/-- The calculation date of a deal that is to be expanded lies in its own period and
after its `dldpf`. -/
def Consistent (I : Interpreter) (maxStep : Int) (includeFinal : Bool) (deal : Json) : Prop :=
  ∀ current dpf own clc, Expanding I maxStep includeFinal deal current dpf own clc →
    OnPeriod dpf own clc

theorem Expanding.isMonth (h : Expanding I maxStep includeFinal deal current dpf own clc) :
    IsMonth own := by
  have := h.range
  exact ⟨by omega, by omega, by omega⟩

theorem slicesValue_inj : slicesValue a = slicesValue b ↔ a = b := by
  rw [slicesValue, slicesValue, Json.arr.injEq]
  exact List.map_inj_right fun _ _ => Json.obj.inj

/-- The chain of a deal that is expanded is lawful exactly when the deal is consistent. -/
theorem lawful_iff (hmax : 31 ≤ maxStep)
    (hrun : expandDeal I maxStep includeFinal deal stats = .ok (out, stats'))
    (hcount : stats'.dealsExpanded = stats.dealsExpanded + 1) :
    LawfulChain I maxStep includeFinal deal out ↔ Consistent I maxStep includeFinal deal := by
  obtain ⟨current, dpf, own, clc, h⟩ := exists_expanding hrun hcount
  obtain ⟨-, fields, chain, before, last, hhist, hlast, rfl, hlife⟩ := h.comes_out hrun
  constructor
  · rintro ⟨_, _, _, _, fields', chain', entries, h', heq, hlife', hlaw⟩ _ _ _ _ h''
    cases heq
    obtain ⟨rfl, rfl, rfl, rfl⟩ := h.unique h'
    obtain ⟨rfl, rfl, rfl, rfl⟩ := h.unique h''
    rw [hlife, Option.some.injEq, slicesValue_inj] at hlife'
    subst hlife'
    exact onPeriod_of_law hlast hlaw
  · intro hconsistent
    obtain ⟨entries, hlaw⟩ :=
      chainLaw_of_onPeriod hmax h.isMonth hhist hlast (hconsistent _ _ _ _ h)
    exact ⟨current, dpf, own, clc, fields, _, entries, h, rfl, hlife, hlaw⟩

-- ---------------------------------------------------------------------------
-- The check
-- ---------------------------------------------------------------------------

def seen (dpf : Date) (e : (Nat × Nat) × Date) : SliceAt :=
  ⟨e.2.ordinal - dpf.ordinal, e.1.1, e.1.2⟩

theorem sliceAt_eq (h : SliceLaw dpf slice e.1 e.2) :
    sliceAt I (.obj slice) = .ok (seen dpf e) := by
  simp only [sliceAt, index, h.dayexp, h.year, h.month, Except.ok_bind, Json.toInt]
  rfl

theorem assert_true {p : Prop} [Decidable p] (h : p) : assert p = .ok () := if_pos h

theorem follows_seen (h : Follows maxStep a b) :
    follows maxStep (seen dpf a) (seen dpf b) = .ok () := by
  obtain ⟨hnext, hlt, hstep⟩ := h
  have hperiod : a.1.1 < b.1.1 ∨ a.1.1 = b.1.1 ∧ a.1.2 < b.1.2 := by
    rw [hnext, nextMonth]
    split
    · exact .inl (Nat.lt_succ_self _)
    · exact .inr ⟨rfl, Nat.lt_succ_self _⟩
  have hrise : (seen dpf a).exp ≤ (seen dpf b).exp := by
    simp only [seen]
    omega
  have hcap : (seen dpf b).exp - (seen dpf a).exp ≤ maxStep := by
    simp only [seen]
    omega
  have hafter : (seen dpf a).year < (seen dpf b).year ∨
      (seen dpf a).year = (seen dpf b).year ∧ (seen dpf a).month < (seen dpf b).month := by
    simp only [seen]
    omega
  rw [follows, assert_true hrise, assert_true hcap, assert_true hafter]
  rfl

theorem assertSlices_of_law {chain : List Fields} {entries : List ((Nat × Nat) × Date)}
    (hslices : List.Forall₂ (fun slice e => SliceLaw dpf slice e.1 e.2) chain entries)
    (hamt : ∀ slice ∈ chain, amountZero I slice "dlamtexp" = .ok false)
    (hchain : entries.IsChain (Follows maxStep)) (prev : Option ((Nat × Nat) × Date))
    (hprev : ∀ p ∈ prev, ∀ e ∈ entries.head?, Follows maxStep p e) :
    assertSlices I maxStep (prev.map (seen dpf)) (chain.map .obj) = .ok () := by
  induction hslices generalizing prev with
  | nil => cases prev <;> rfl
  | cons hslice hrest ih =>
    rename_i slice e chain entries
    rw [List.isChain_cons] at hchain
    have ih := ih (fun s hs => hamt s (List.mem_cons_of_mem _ hs)) hchain.2 (some e)
      (by rintro p hp; cases hp; exact hchain.1)
    have hzero : assert (decide ((seen dpf e).exp = 0) = false) = .ok () := by
      have := hslice.overdue
      refine assert_true (decide_eq_false ?_)
      simp only [seen]
      omega
    rw [List.map_cons, assertSlices, sliceAt_eq hslice, Except.ok_bind, sliceAmountZero,
      hamt slice List.mem_cons_self, Except.ok_bind, hzero, Except.ok_bind]
    cases prev with
    | none => exact ih
    | some p =>
      simp only [Option.map_some]
      rw [follows_seen (hprev p rfl e rfl), Except.ok_bind]
      exact ih

theorem assertDealSane_of_law
    (hlife : fields.lookup (Text.lit "deallife") = some (slicesValue chain))
    (hlaw : ChainLaw maxStep dpf own clc chain entries)
    (hamt : ∀ slice ∈ chain, amountZero I slice "dlamtexp" = .ok false) :
    assertDealSane I maxStep (.obj fields) = .ok () := by
  have hslices := hlaw.slices
  cases hslices with
  | nil => cases hlaw.last
  | cons hslice hrest =>
    rename_i slice e chain entries
    have hget : Json.getOr fields (Text.lit "deallife") = some (slicesValue (slice :: chain)) := by
      rw [Json.getOr, hlife]
      rfl
    have hfirst : assert ((seen dpf e).exp ≤ 31) = .ok () := by
      have := (hlaw.first e rfl).2
      refine assert_true ?_
      simp only [seen]
      omega
    rw [assertDealSane, hget, slicesValue]
    simp only
    split
    · rfl
    · simp only [List.map_cons, assertLife, index, hslice.dayexp, Except.ok_bind, Json.toInt]
      rw [show ((e.2.ordinal : Int) - dpf.ordinal) = (seen dpf e).exp from rfl,
        hfirst, Except.ok_bind]
      exact assertSlices_of_law hlaw.slices hamt hlaw.follows none (by rintro p hp; cases hp)

theorem assertDealSane_of_one (hlife : fields.lookup (Text.lit "deallife") = some (.arr [slice])) :
    assertDealSane I maxStep (.obj fields) = .ok () := by
  have hget : Json.getOr fields (Text.lit "deallife") = some (.arr [slice]) := by
    rw [Json.getOr, hlife]
    rfl
  rw [assertDealSane, hget]
  rfl

theorem keepDeal_sane (deal current : Fields) (stats : ExpandStats) :
    assertDealSane I maxStep (.obj (keepDeal I deal current stats).1) = .ok () := by
  have hlife : (keepDeal I deal current stats).1.lookup (Text.lit "deallife") =
      some (.arr [.obj (clean I current stats).1]) := by
    rw [keepDeal, Json.lookup_setField, if_pos rfl]
    rfl
  exact assertDealSane_of_one hlife

theorem amountZero_of_chainStart
    (h : chainStart I current maxStep includeFinal = .ok (.ok dpf)) :
    amountZero I current "dlamtexp" = .ok false := by
  obtain ⟨exp, -, h⟩ := Except.bind_eq_ok.mp h
  obtain ⟨flstat, -, h⟩ := Except.bind_eq_ok.mp h
  obtain ⟨amtZero, hamt, h⟩ := Except.bind_eq_ok.mp h
  have h := Except.ok.inj h
  cases amtZero with
  | true =>
    simp only [if_true] at h
    repeat' split at h
    all_goals cases h
  | false =>
    unfold caught at hamt
    split at hamt
    · cases hamt
    · cases hamt
    · exact hamt

theorem amountZero_madeFor (h : MadeFor current dpf d slice) :
    amountZero I slice "dlamtexp" = amountZero I current "dlamtexp" := by
  rw [amountZero, amountZero, Json.getOr, Json.getOr, h.amtexp]

theorem Expanding.sane (hmax : 31 ≤ maxStep)
    (h : Expanding I maxStep includeFinal deal current dpf own clc)
    (hrun : expandDeal I maxStep includeFinal deal stats = .ok (out, stats'))
    (hon : OnPeriod dpf own clc) : assertDealSane I maxStep out = .ok () := by
  obtain ⟨-, fields, chain, before, last, hhist, hlast, rfl, hlife⟩ := h.comes_out hrun
  obtain ⟨entries, hlaw⟩ := chainLaw_of_onPeriod hmax h.isMonth hhist hlast hon
  obtain ⟨dates, -, hmade⟩ := historicalSlices_spec hhist
  have hzero := amountZero_of_chainStart h.start
  refine assertDealSane_of_law hlife hlaw fun slice hslice => ?_
  rcases List.mem_append.mp hslice with hslice | hslice
  · obtain ⟨d, -, hd⟩ := hmade.exists_left hslice
    rw [amountZero_madeFor hd, hzero]
  · rw [List.mem_singleton.mp hslice, amountZero_madeFor hlast, hzero]

-- ---------------------------------------------------------------------------
-- Subjects
-- ---------------------------------------------------------------------------

def Unexpected (deal : Json) : Prop :=
  ∃ fields, deal = .obj fields ∧ onlySlice (Json.getOr fields (Text.lit "deallife")) = .ok none

theorem Unexpected.returned (h : Unexpected deal)
    (hrun : expandDeal I maxStep includeFinal deal stats = .ok (out, stats')) : out = deal := by
  obtain ⟨fields, rfl, hslice⟩ := h
  obtain ⟨made, hmade, hrun⟩ := Except.bind_eq_ok.mp hrun
  rw [expandFields, hslice, Except.ok_bind] at hmade
  cases hmade
  cases hrun
  rfl

theorem expandDeal_sane (hmax : 31 ≤ maxStep)
    (hrun : expandDeal I maxStep includeFinal deal stats = .ok (out, stats'))
    (hconsistent : Consistent I maxStep includeFinal deal)
    (hsane : Unexpected deal → assertDealSane I maxStep deal = .ok ()) :
    assertDealSane I maxStep out = .ok () := by
  by_cases hcount : stats'.dealsExpanded = stats.dealsExpanded + 1
  · obtain ⟨current, dpf, own, clc, h⟩ := exists_expanding hrun hcount
    exact h.sane hmax hrun (hconsistent _ _ _ _ h)
  · by_cases hshape : Unexpected deal
    · rw [hshape.returned hrun]
      exact hsane hshape
    · unfold expandDeal at hrun
      split at hrun
      · rename_i fields
        obtain ⟨made, hmade, hrun⟩ := Except.bind_eq_ok.mp hrun
        cases hrun
        cases expandFields_fate hmade with
        | unexpected hslice => exact absurd ⟨fields, rfl, hslice⟩ hshape
        | kept current keep => exact keepDeal_sane fields current _
        | expanded current dpf endYear endMonth _ _ _ _ _ _ hchain =>
          exact absurd (expandChain_dealsExpanded hchain) hcount
      · cases hrun

theorem subjectDeals_setField (outs : List Json) (subject : Fields) :
    subjectDeals (Json.setField (Text.lit "deals") (.arr outs) subject) = .ok outs := by
  rw [subjectDeals, Json.getOr, Json.lookup_setField, if_pos rfl]
  cases outs <;> rfl

/-- The chains that `expand_subject` makes are lawful, and the check finds nothing. -/
def AllLawful (I : Interpreter) (maxStep : Int) (includeFinal includeMultiDeal : Bool)
    (subject out : Fields) : Prop :=
  ∃ deals outs, subjectDeals subject = .ok deals ∧ subjectDeals out = .ok outs ∧
    List.Forall₂ (fun deal out => ¬Several includeMultiDeal deals →
      ExpandedTo I maxStep includeFinal deal out → LawfulChain I maxStep includeFinal deal out)
      deals outs ∧
    assertChainSane I out maxStep = .ok ()

theorem allLawful_iff (hmax : 31 ≤ maxStep)
    (h : expandSubject I subject stats maxStep includeFinal includeMultiDeal = .ok (out, stats')) :
    AllLawful I maxStep includeFinal includeMultiDeal subject out ↔
      ∀ deals, subjectDeals subject = .ok deals → ¬Several includeMultiDeal deals →
        ∀ deal ∈ deals, Consistent I maxStep includeFinal deal ∧
          (Unexpected deal → assertDealSane I maxStep deal = .ok ()) := by
  obtain ⟨deals, hdeals, h⟩ := Except.bind_eq_ok.mp h
  obtain ⟨made, hmade, h⟩ := Except.bind_eq_ok.mp h
  obtain rfl : _ = out := congrArg (·.1) (Except.ok.inj h)
  have hsane : assertChainSane I (Json.setField (Text.lit "deals") (.arr made.1) subject) maxStep =
      .ok () ↔ ∀ out ∈ made.1, assertDealSane I maxStep out = .ok () := by
    rw [assertChainSane, subjectDeals_setField, Except.ok_bind, Except.forM_eq_ok]
  have hall : AllLawful I maxStep includeFinal includeMultiDeal subject
      (Json.setField (Text.lit "deals") (.arr made.1) subject) ↔
      List.Forall₂ (fun deal out => ¬Several includeMultiDeal deals →
        ExpandedTo I maxStep includeFinal deal out → LawfulChain I maxStep includeFinal deal out)
        deals made.1 ∧ ∀ out ∈ made.1, assertDealSane I maxStep out = .ok () := by
    constructor
    · rintro ⟨deals', outs, hdeals', houts, hlaw, hcheck⟩
      cases hdeals.symm.trans hdeals'
      cases (subjectDeals_setField made.1 subject).symm.trans houts
      exact ⟨hlaw, hsane.mp hcheck⟩
    · rintro ⟨hlaw, hcheck⟩
      exact ⟨deals, made.1, hdeals, subjectDeals_setField _ _, hlaw, hsane.mpr hcheck⟩
  have hcond (P : List Json → Prop) : (∀ deals,
    subjectDeals subject = .ok deals → P deals) ↔
      P deals := by
    rw [hdeals]
    simp
  refine Iff.trans hall (Iff.trans ?_ (hcond _).symm)
  unfold expandDeals at hmade
  split at hmade
  · rename_i hseveral
    have hseveral : Several includeMultiDeal deals := hseveral
    have hsteps := eachDeal_eq_ok hmade
    refine iff_of_true ⟨hsteps.imp fun deal out _ hno => absurd hseveral hno,
      fun out hout => ?_⟩
      fun hno => absurd hseveral hno
    obtain ⟨deal, -, before, after, hstep⟩ := hsteps.exists_left hout
    obtain ⟨fields, template, -, rfl⟩ := keepMultiDeal_eq_ok hstep
    exact keepDeal_sane fields template before
  · rename_i hseveral
    have hseveral : ¬Several includeMultiDeal deals := hseveral
    have hsteps := eachDeal_eq_ok hmade
    constructor
    · rintro ⟨hlawful, hsane⟩ - deal hdeal
      obtain ⟨out, hout, ⟨before, after, hstep⟩, hlaw⟩ :=
        (hsteps.and hlawful).exists_right hdeal
      refine ⟨fun current dpf own clc h => ?_,
        fun hshape => hshape.returned hstep ▸ hsane out hout⟩
      have hcount := (h.comes_out hstep).1
      exact (lawful_iff hmax hstep hcount).mp (hlaw hseveral ⟨before, after, hstep, hcount⟩)
        current dpf own clc h
    · intro hgood
      have hgood := hgood hseveral
      refine ⟨hsteps.imp_of_mem fun deal hdeal out _ _ ⟨before, after, hstep, hcount⟩ => ?_,
        fun out hout => ?_⟩
      · exact (lawful_iff hmax hstep hcount).mpr (hgood deal hdeal).1
      · obtain ⟨deal, hdeal, before, after, hstep⟩ := hsteps.exists_left hout
        exact expandDeal_sane hmax hstep (hgood deal hdeal).1 (hgood deal hdeal).2

/-- When a deal that is expanded gets a lawful chain, and when the check finds nothing
in the result. -/
theorem expandSubject_chains (hmax : 31 ≤ maxStep) :
    (∀ deal stats out stats',
      expandDeal I maxStep includeFinal deal stats = .ok (out, stats') →
      stats'.dealsExpanded = stats.dealsExpanded + 1 →
      (LawfulChain I maxStep includeFinal deal out ↔ Consistent I maxStep includeFinal deal)) ∧
    ∀ subject stats out stats',
      expandSubject I subject stats maxStep includeFinal includeMultiDeal = .ok (out, stats') →
      (AllLawful I maxStep includeFinal includeMultiDeal subject out ↔
        ∀ deals, subjectDeals subject = .ok deals → ¬Several includeMultiDeal deals →
          ∀ deal ∈ deals, Consistent I maxStep includeFinal deal ∧
            (Unexpected deal → assertDealSane I maxStep deal = .ok ())) := by
  refine ⟨?_, ?_⟩
  · intro deal stats out stats' hrun hcount
    exact lawful_iff hmax hrun hcount
  · intro subject stats out stats' hrun
    exact allLawful_iff hmax hrun

def augustSlice (dateclc : String) : Fields :=
  [(Text.lit "dlyear", .int 2026), (Text.lit "dlmonth", .int 8),
    (Text.lit "dldpf", .str (Text.lit "2026-05-31")),
    (Text.lit "dldateclc", .str (Text.lit dateclc)), (Text.lit "dldayexp", .int 100),
    (Text.lit "dlamtexp", .int 5), (Text.lit "dlflstat", .int 1)]

def augustDeal (dateclc : String) : Json :=
  .obj [(Text.lit "deallife", .arr [.obj (augustSlice dateclc)])]

def endOfMay : Date := ⟨2026, 5, 31, by decide, by decide, by decide⟩

def endOfJuly : Date := ⟨2026, 7, 31, by decide, by decide, by decide⟩

def inAugust : Date := ⟨2026, 8, 20, by decide, by decide, by decide⟩

theorem augustDeal_expanding : Expanding .ascii 92 false (augustDeal "2026-08-20")
    (augustSlice "2026-08-20") endOfMay (2026, 8) inAugust where
  slice := ⟨_, rfl, rfl⟩
  start := by decide
  year := rfl
  month := rfl
  range := by decide
  date := by decide

theorem augustDeal_expanding_july : Expanding .ascii 92 false (augustDeal "2026-07-31")
    (augustSlice "2026-07-31") endOfMay (2026, 8) endOfJuly where
  slice := ⟨_, rfl, rfl⟩
  start := by decide
  year := rfl
  month := rfl
  range := by decide
  date := by decide

theorem expandDeal_of_isOk (h : (expandDeal I maxStep includeFinal deal stats).isOk = true)
    (hexp : Expanding I maxStep includeFinal deal current dpf own clc) :
    ∃ out stats', expandDeal I maxStep includeFinal deal stats = .ok (out, stats') ∧
      stats'.dealsExpanded = stats.dealsExpanded + 1 := by
  cases hrun : expandDeal I maxStep includeFinal deal stats with
  | error e => rw [hrun] at h; cases h
  | ok made => exact ⟨made.1, made.2, rfl, (hexp.comes_out hrun).1⟩

theorem augustDeal_consistent : Consistent .ascii 92 false (augustDeal "2026-08-20") := by
  intro current dpf own clc h
  obtain ⟨-, rfl, rfl, rfl⟩ := augustDeal_expanding.unique h
  exact ⟨rfl, by decide +kernel⟩

def augustSubject : Fields := [(Text.lit "deals", .arr [augustDeal "2026-08-20"])]

theorem expandSubject_chains_august :
    (∃ out stats', expandDeal .ascii 92 false (augustDeal "2026-08-20") {} = .ok (out, stats') ∧
      LawfulChain .ascii 92 false (augustDeal "2026-08-20") out) ∧
    ∃ out stats', expandSubject .ascii augustSubject {} 92 false false = .ok (out, stats') ∧
      AllLawful .ascii 92 false false augustSubject out := by
  have hisOk : (expandDeal .ascii 92 false (augustDeal "2026-08-20") {}).isOk = true := by
    decide +kernel
  obtain ⟨out, stats', hrun, hcount⟩ := expandDeal_of_isOk hisOk augustDeal_expanding
  obtain ⟨hdeal, hsubject⟩ := @expandSubject_chains .ascii 92 false false (by decide)
  refine ⟨⟨out, stats', hrun, (hdeal _ _ _ _ hrun hcount).mpr augustDeal_consistent⟩, ?_⟩
  have hisOk' : (expandSubject .ascii augustSubject {} 92 false false).isOk = true := by
    decide +kernel
  cases hexpand : expandSubject .ascii augustSubject {} 92 false false with
  | error e =>
    rw [hexpand] at hisOk'
    cases hisOk'
  | ok made =>
    refine ⟨made.1, made.2, rfl, (hsubject _ _ _ _ hexpand).mpr ?_⟩
    rintro deals hdeals - deal hmem
    obtain rfl : [augustDeal "2026-08-20"] = deals := Except.ok.inj hdeals
    obtain rfl := List.mem_singleton.mp hmem
    exact ⟨augustDeal_consistent, fun _ => by decide⟩

/-- Calculated at the end of July, the deal of August comes out with July twice and without
August, and the check fails. -/
theorem expandDeal_repeats : ∃ out stats',
    expandDeal .ascii 92 false (augustDeal "2026-07-31") {} = .ok (out, stats') ∧
      stats'.dealsExpanded = 1 ∧ ¬LawfulChain .ascii 92 false (augustDeal "2026-07-31") out ∧
      assertDealSane .ascii 92 out = .error .assertionError := by
  have hisOk : (expandDeal .ascii 92 false (augustDeal "2026-07-31") {}).isOk = true := by
    decide +kernel
  obtain ⟨out, stats', hrun, hcount⟩ := expandDeal_of_isOk hisOk augustDeal_expanding_july
  have hcheck : (expandDeal .ascii 92 false (augustDeal "2026-07-31") {}).bind
      (fun made => assertDealSane .ascii 92 made.1) = .error .assertionError := by decide +kernel
  rw [hrun] at hcheck
  refine ⟨out, stats', hrun, hcount, fun hlawful => ?_, hcheck⟩
  have hconsistent := (lawful_iff (by decide) hrun hcount).mp hlawful
  exact absurd (hconsistent _ _ _ _ augustDeal_expanding_july).1 (by decide)

end UbkiUploader
