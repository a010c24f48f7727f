import UbkiUploader.Backfill.Sane
import UbkiUploader.Backfill.Texts

/-!
# Subjects that go through

The subjects that are expanded, found sane and written, told by what they hold. The
check lets a chain pass that is not lawful: the last slice may lie in a month after the
deal's own.
-/

namespace UbkiUploader

open Calendar (Date)

variable {I : Interpreter} {maxStep : Int} {includeFinal includeMultiDeal : Bool}
  {stats : ExpandStats}

-- ---------------------------------------------------------------------------
-- Chains
-- ---------------------------------------------------------------------------

abbrev Point := (Nat × Nat) × Nat

/-- One comes in a later month than the other, by at most `maxStep` days. -/
def Climbs (maxStep : Int) (a b : Point) : Prop :=
  (a.1.1 < b.1.1 ∨ a.1.1 = b.1.1 ∧ a.1.2 < b.1.2) ∧ (b.2 : Int) - a.2 ≤ maxStep

/-- From the first month that ends after `dldpf` to the one before the deal's own, and
then to the calculation date, each climbs from the one before. -/
def ChainFits (maxStep : Int) (dpf : Date) (own : Nat × Nat) (clc : Date) : Prop :=
  (((monthIter dpf own.1 own.2).filter fun p => dpf.ordinal < endOrdinal p).map
      (fun p => (p, endOrdinal p)) ++ [((clc.year, clc.month), clc.ordinal)]).IsChain
    (Climbs maxStep)

def datePoint (d : Date) : Point := ((d.year, d.month), d.ordinal)

def shownAt (dpf d : Date) : SliceAt := ⟨daysSince d dpf, d.year, d.month⟩

theorem assert_eq_ok {p : Prop} [Decidable p] : assert p = .ok () ↔ p := by
  rw [assert]
  split
  · exact iff_of_true rfl (by assumption)
  · exact iff_of_false nofun (by assumption)

theorem monthEnd_point {d : Date} (h : monthEnd p.1 p.2 = .ok d) :
    (p, endOrdinal p) = datePoint d := by
  obtain ⟨hyear, hmonth, hday⟩ := monthEnd_eq_ok.mp h
  obtain rfl : (d.year, d.month) = p := Prod.ext hyear hmonth
  have hend := ordinal_add_daysInMonth d
  simp only at hday
  exact congrArg (Prod.mk _) (by omega)

theorem follows_eq_ok : follows maxStep prev next = .ok () ↔
    prev.exp ≤ next.exp ∧ next.exp - prev.exp ≤ maxStep ∧
      (prev.year < next.year ∨ prev.year = next.year ∧ prev.month < next.month) := by
  simp only [follows, Except.unit_bind_eq_ok, assert_eq_ok]

theorem ordinal_lt_of_month {a b : Date}
    (h : a.year < b.year ∨ a.year = b.year ∧ a.month < b.month) : a.ordinal < b.ordinal := by
  have ha := (ordinal_in_month (d := a) rfl).1
  have hb := (ordinal_in_month (d := b) rfl).2
  have hmonth := a.month_valid
  have hmonth' := b.month_valid
  have hlt := endOrdinal_lt (isMonth_start a) (isMonth_start b) (by simp only; omega)
  simp only at hlt hb
  omega

theorem climbs_iff {a b : Date} (ha : dpf.ordinal < a.ordinal) :
    Climbs maxStep (datePoint a) (datePoint b) ↔
      daysSince b dpf ≠ 0 ∧ follows maxStep (shownAt dpf a) (shownAt dpf b) = .ok () := by
  simp only [follows_eq_ok, shownAt, daysSince, Climbs, datePoint]
  constructor
  · rintro ⟨hmonth, hstep⟩
    have hlt := ordinal_lt_of_month hmonth
    exact ⟨by omega, by omega, by omega, by omega⟩
  · rintro ⟨hdays, -, hstep, hmonth⟩
    exact ⟨by omega, by omega⟩

theorem sliceAt_madeFor (h : MadeFor template dpf d slice) :
    sliceAt I (.obj slice) = .ok (shownAt dpf d) := by
  simp only [sliceAt, index, h.dayexp, h.year, h.month, Except.ok_bind, Json.toInt]
  rfl

theorem assertSlices_iff {dates : List Date} {slices : List Fields}
    (hmade : List.Forall₂ (MadeFor current dpf) dates slices)
    (hamt : amountZero I current "dlamtexp" = .ok false) {a : Date} (ha : dpf.ordinal < a.ordinal) :
    assertSlices I maxStep (some (shownAt dpf a)) (slices.map .obj) = .ok () ↔
      ((a :: dates).map datePoint).IsChain (Climbs maxStep) := by
  induction hmade generalizing a with
  | nil => exact iff_of_true rfl (List.isChain_singleton _)
  | cons hslice _ ih =>
    rename_i b slice dates slices _
    have hzero : amountZero I slice "dlamtexp" = .ok false := (amountZero_madeFor hslice).trans hamt
    have hdays : ¬(shownAt dpf b).exp = 0 ↔ daysSince b dpf ≠ 0 :=
      not_congr Int.natCast_eq_zero
    simp only [List.map_cons, List.isChain_cons_cons, assertSlices, sliceAt_madeFor hslice,
      sliceAmountZero, hzero, Except.ok_bind, Except.unit_bind_eq_ok, assert_eq_ok, climbs_iff ha,
      decide_eq_false_iff_not, hdays, and_assoc] at ih ⊢
    refine and_congr_right fun hb => and_congr_right fun _ => ih ?_
    rw [daysSince] at hb
    omega

/-- The check finds nothing in a deal that was expanded exactly when its chain fits. -/
theorem Expanding.sane_iff
    (h : Expanding I maxStep includeFinal deal current dpf own clc)
    (hrun : expandDeal I maxStep includeFinal deal stats = .ok (out, stats')) :
    assertDealSane I maxStep out = .ok () ↔ ChainFits maxStep dpf own clc := by
  obtain ⟨-, fields, chain, before, last, hhist, hlast, rfl, hlife⟩ := h.comes_out hrun
  obtain ⟨dates, hdates, hmade⟩ := historicalSlices_spec hhist
  have hamt := amountZero_of_chainStart h.start
  have hpoints : ((monthIter dpf own.1 own.2).filter fun p => dpf.ordinal < endOrdinal p).map
      (fun p => (p, endOrdinal p)) = dates.map datePoint := by
    rw [← List.forall₂_eq_eq_eq, List.forall₂_map_left_iff, List.forall₂_map_right_iff]
    exact hdates.imp fun p d hd => monthEnd_point hd.1
  have hfits : ChainFits maxStep dpf own clc ↔
      ((dates ++ [clc]).map datePoint).IsChain (Climbs maxStep) := by
    rw [ChainFits, hpoints, List.map_append]
    rfl
  rw [hfits]
  cases hmade with
  | nil => exact iff_of_true (assertDealSane_of_one hlife) (List.isChain_singleton _)
  | cons hfirst hrest =>
    rename_i first slice dates chain
    rw [filter_monthIter] at hdates
    have hget : Json.getOr fields (Text.lit "deallife") =
        some (.arr (.obj slice :: (chain ++ [last]).map .obj)) := by
      rw [Json.getOr, hlife]
      rfl
    have hlength : ¬(Json.obj slice :: (chain ++ [last]).map Json.obj).length < 2 := by simp
    -- the first month ends at most 31 days after `dldpf`
    obtain ⟨p, rest, ⟨hp, hafter⟩, -, hmonths⟩ := List.forall₂_cons_right_iff.mp hdates
    obtain rfl : p = firstMonth dpf := by
      cases hn : 12 * own.1 + own.2 - (12 * (firstMonth dpf).1 + (firstMonth dpf).2) with
      | zero =>
        rw [hn] at hmonths
        cases hmonths
      | succ n =>
        rw [hn, monthsFrom, List.cons.injEq] at hmonths
        exact hmonths.1.symm
    have hbegin : (daysSince first dpf : Int) ≤ 31 := by
      have hend := (firstMonth_end dpf).2
      have hpoint := congrArg (·.2) (monthEnd_point hp)
      simp only [datePoint] at hpoint
      rw [daysSince]
      omega
    have hdays : (shownAt dpf first).exp ≠ 0 := by
      simp only [shownAt, daysSince]
      omega
    have hloop :=
      @assertSlices_iff I maxStep _ _ _ _ (hrest.append (.cons hlast .nil)) hamt _ hafter
    rw [List.cons_append, ← hloop, assertDealSane, hget]
    simp only [hlength, if_false, assertLife, index, hfirst.dayexp, Except.ok_bind,
      Json.toInt, Except.unit_bind_eq_ok, assert_eq_ok, assertSlices,
      sliceAt_madeFor hfirst, sliceAmountZero, amountZero_madeFor hfirst, hamt, hbegin,
      decide_eq_false hdays, true_and]

-- ---------------------------------------------------------------------------
-- Deals
-- ---------------------------------------------------------------------------

/-- A deal on which nothing raises, that comes out sane and can be written. -/
structure DealFits (I : Interpreter) (maxStep : Int) (includeFinal : Bool) (deal : Json) :
    Prop where
  guarded : Guarded I maxStep includeFinal deal
  /-- A deal that is left as it is has to be sane. -/
  unexpected : Unexpected deal →
    assertDealSane I maxStep deal = .ok () ∧ deal.AllTexts Text.Encodes
  others : ∀ fields current, deal = .obj fields →
    onlySlice (Json.getOr fields (Text.lit "deallife")) = .ok (some current) →
    EncodesBut [Text.lit "deallife"] fields
  kept : ∀ fields current, deal = .obj fields →
    onlySlice (Json.getOr fields (Text.lit "deallife")) = .ok (some current) →
    (∀ dpf own clc, ¬Expanding I maxStep includeFinal deal current dpf own clc) →
    EncodesBut (cleanedKeys I current) current
  expanded : ∀ current dpf own clc, Expanding I maxStep includeFinal deal current dpf own clc →
    ChainFits maxStep dpf own clc ∧ EncodesBut (cleanedKeys I current ++ madeKeys) current

def Passes (I : Interpreter) (maxStep : Int) (out : Json) : Prop :=
  assertDealSane I maxStep out = .ok () ∧ out.AllTexts Text.Encodes

theorem expandDeal_eq_ok (hrun : expandDeal I maxStep includeFinal deal stats = .ok made) :
    ∃ fields out, deal = .obj fields ∧ made = (.obj out.1, out.2) ∧
      Fate I maxStep includeFinal fields stats out := by
  unfold expandDeal at hrun
  split at hrun
  · rename_i fields
    obtain ⟨out, hout, hrun⟩ := Except.bind_eq_ok.mp hrun
    cases hrun
    exact ⟨fields, out, rfl, rfl, expandFields_fate hout⟩
  · cases hrun

theorem onlySlice_unique {deal : Json} {fields fields' : Fields} (hdeal : deal = .obj fields)
    (hslice : onlySlice (Json.getOr fields (Text.lit "deallife")) = .ok slice)
    (hdeal' : deal = .obj fields')
    (hslice' : onlySlice (Json.getOr fields' (Text.lit "deallife")) = .ok slice') :
    fields = fields' ∧ slice = slice' := by
  subst hdeal
  cases hdeal'
  exact ⟨rfl, Except.ok.inj (hslice.symm.trans hslice')⟩

theorem not_unexpected {fields : Fields}
    (hslice : onlySlice (Json.getOr fields (Text.lit "deallife")) = .ok (some current)) :
    ¬Unexpected (.obj fields) := by
  rintro ⟨fields', hdeal, hnone⟩
  exact nomatch (onlySlice_unique rfl hslice hdeal hnone).2

/-- Which of the deals that `expand_deal` returns pass. -/
theorem passes_iff (h : deal.Good F) (hguard : Guarded I maxStep includeFinal deal)
    (hrun : expandDeal I maxStep includeFinal deal stats = .ok made) :
    Passes I maxStep made.1 ↔ DealFits I maxStep includeFinal deal := by
  obtain ⟨fields, out, rfl, rfl, hfate⟩ := expandDeal_eq_ok hrun
  cases hfate with
  | unexpected hslice =>
    have hshape : Unexpected (.obj fields) := ⟨fields, rfl, hslice⟩
    have hnone (fields' current) (hdeal : Json.obj fields = .obj fields')
        (hslice' : onlySlice (Json.getOr fields' (Text.lit "deallife")) = .ok (some current)) :
        False := nomatch (onlySlice_unique rfl hslice hdeal hslice').2
    refine ⟨fun hpass => ⟨hguard, fun _ => hpass, ?_, ?_, ?_⟩,
      fun hfits => hfits.unexpected hshape⟩
    · exact fun fields' current hdeal hslice' => (hnone fields' current hdeal hslice').elim
    · exact fun fields' current hdeal hslice' => (hnone fields' current hdeal hslice').elim
    · intro current dpf own clc hexp
      obtain ⟨fields', hdeal, hslice'⟩ := hexp.slice
      exact (hnone fields' current hdeal hslice').elim
  | kept current keep hslice =>
    have hexp (current' dpf own clc) :
        ¬Expanding I maxStep includeFinal (.obj fields) current' dpf own clc := by
      intro hexp
      have hcount := (hexp.comes_out hrun).1
      rw [keepDeal_dealsExpanded, countKept_dealsExpanded] at hcount
      omega
    rw [Passes, ← encodesBut_nil, encodesBut_keepDeal h, and_iff_right (keepDeal_sane _ _ _)]
    constructor
    · rintro ⟨hcurrent, hothers⟩
      refine ⟨hguard, fun hshape => (not_unexpected hslice hshape).elim, ?_, ?_,
        fun _ _ _ _ h => (hexp _ _ _ _ h).elim⟩
      · intro fields' current' hdeal hslice'
        obtain ⟨rfl, -⟩ := onlySlice_unique rfl hslice hdeal hslice'
        exact hothers
      · rintro fields' current' hdeal hslice' -
        cases (onlySlice_unique rfl hslice hdeal hslice').2
        exact hcurrent
    · intro hfits
      exact ⟨hfits.kept fields current rfl hslice (hexp current),
        hfits.others fields current rfl hslice⟩
  | expanded current dpf endYear endMonth _ hslice _ _ _ _ hchain =>
    obtain ⟨current', dpf', own, clc, hexp⟩ :=
      exists_expanding hrun (expandChain_dealsExpanded hchain)
    obtain ⟨fields', hdeal, hslice'⟩ := hexp.slice
    cases (onlySlice_unique rfl hslice hdeal hslice').2
    rw [Passes, ← encodesBut_nil, encodesBut_expandChain h (good_onlySlice h hslice) hchain,
      hexp.sane_iff hrun]
    constructor
    · rintro ⟨hfits, hcurrent, hothers⟩
      refine ⟨hguard, fun hshape => (not_unexpected hslice hshape).elim, ?_, ?_, ?_⟩
      · intro fields'' current'' hdeal hslice''
        obtain ⟨rfl, -⟩ := onlySlice_unique rfl hslice hdeal hslice''
        exact hothers
      · intro fields'' current'' hdeal hslice'' hno
        cases (onlySlice_unique rfl hslice hdeal hslice'').2
        exact (hno _ _ _ hexp).elim
      · intro current'' dpf'' own'' clc'' hexp'
        obtain ⟨rfl, rfl, rfl, rfl⟩ := hexp.unique hexp'
        exact ⟨hfits, hcurrent⟩
    · intro hfits
      obtain ⟨hchain, hcurrent⟩ := hfits.expanded _ _ _ _ hexp
      exact ⟨hchain, hcurrent, hfits.others fields current rfl hslice⟩

theorem expandDeal_passes (h : deal.Good F) (stats : ExpandStats) :
    (∃ made, expandDeal I maxStep includeFinal deal stats = .ok made ∧
      Passes I maxStep made.1) ↔
      DealFits I maxStep includeFinal deal := by
  constructor
  · rintro ⟨made, hrun, hpass⟩
    exact (passes_iff h ((expandDeal_isOk deal stats).mp ⟨made, hrun⟩) hrun).mp hpass
  · intro hfits
    obtain ⟨made, hrun⟩ := (expandDeal_isOk deal stats).mpr hfits.guarded
    exact ⟨made, hrun, (passes_iff h hfits.guarded hrun).mpr hfits⟩

/-- One deal of several, whose first slice is kept: all of the deal is written but its
other slices. -/
def KeepFits (I : Interpreter) (deal : Json) : Prop :=
  ∃ fields first template, deal = .obj fields ∧
    firstSlice (Json.getOr fields (Text.lit "deallife")) = .ok first ∧
    toDict first = .ok template ∧ EncodesBut [Text.lit "deallife"] fields ∧
    EncodesBut (cleanedKeys I template) template

theorem good_keepMultiDeal (hrun : keepMultiDeal I deal stats = .ok made) (h : deal.Good F) :
    made.1.Good F := by
  unfold keepMultiDeal at hrun
  split at hrun
  · obtain ⟨first, hfirst, hrun⟩ := Except.bind_eq_ok.mp hrun
    obtain ⟨template, htemplate, hrun⟩ := Except.bind_eq_ok.mp hrun
    cases hrun
    exact good_keepDeal h (good_toDict (good_firstSlice h hfirst) htemplate)
  · cases hrun

theorem keepMultiDeal_passes (h : deal.Good F) (stats : ExpandStats) :
    (∃ made, keepMultiDeal I deal stats = .ok made ∧ Passes I maxStep made.1) ↔
      KeepFits I deal := by
  constructor
  · rintro ⟨made, hrun, -, htexts⟩
    unfold keepMultiDeal at hrun
    split at hrun
    · rename_i fields
      obtain ⟨first, hfirst, hrun⟩ := Except.bind_eq_ok.mp hrun
      obtain ⟨template, htemplate, hrun⟩ := Except.bind_eq_ok.mp hrun
      cases hrun
      obtain ⟨hslice, hothers⟩ := (encodesBut_keepDeal h).mp (encodesBut_nil.mpr htexts)
      exact ⟨fields, first, template, rfl, hfirst, htemplate, hothers, hslice⟩
    · cases hrun
  · rintro ⟨fields, first, template, rfl, hfirst, htemplate, hothers, hslice⟩
    refine ⟨_, Except.bind_eq_ok.mpr ⟨first, hfirst,
      Except.bind_eq_ok.mpr ⟨template, htemplate, rfl⟩⟩,
      keepDeal_sane fields template stats, ?_⟩
    exact encodesBut_nil.mp ((encodesBut_keepDeal h).mpr ⟨hslice, hothers⟩)

-- ---------------------------------------------------------------------------
-- Subjects
-- ---------------------------------------------------------------------------

theorem eachDeal_passes {step : Json → ExpandStats → Except PyError (Json × ExpandStats)}
    {fits : Json → Prop} {deals : List Json} (hgood : ∀ deal ∈ deals, deal.Good F)
    (hstep : ∀ deal stats, deal.Good F →
      ((∃ made, step deal stats = .ok made ∧ Passes I maxStep made.1) ↔ fits deal)) :
    (∃ made, eachDeal step deals stats = .ok made ∧ ∀ out ∈ made.1,
      Passes I maxStep out) ↔
      ∀ deal ∈ deals, fits deal := by
  have hiff := @eachDeal_iff step (fun deal out => deal.Good F ∧ Passes I maxStep out)
    (fun deal => deal.Good F ∧ fits deal)
    (fun deal stats hok => by
      obtain ⟨made, hmade, hpass⟩ := (hstep deal stats hok.1).mpr hok.2
      exact ⟨made, hmade, hok.1, hpass⟩)
    (fun deal stats made hmade hpass =>
      ⟨hpass.1, (hstep deal stats hpass.1).mp ⟨made, hmade, hpass.2⟩⟩) deals stats
  have hboth : (∀ deal ∈ deals, fits deal) ↔ ∀ deal ∈ deals, deal.Good F ∧ fits deal :=
    forall₂_congr fun deal hdeal => (and_iff_right (hgood deal hdeal)).symm
  rw [hboth, ← hiff]
  refine exists_congr fun made => and_congr_right fun hmade => ?_
  constructor
  · intro hpass
    have hsteps := (eachDeal_eq_ok hmade).imp_of_mem
      fun deal hdeal out _ => (hgood deal hdeal : deal.Good F)
    exact (hsteps.flip.imp_of_mem fun out hout deal h => ⟨h, hpass out hout⟩).flip
  · intro hsteps out hout
    obtain ⟨deal, -, -, hpass⟩ := hsteps.exists_left hout
    exact hpass

/-- A subject that is written. -/
def SubjectFits (I : Interpreter) (maxStep : Int) (includeFinal includeMultiDeal : Bool)
    (subject : Fields) : Prop :=
  ∃ deals, subjectDeals subject = .ok deals ∧ EncodesBut [Text.lit "deals"] subject ∧
    ∀ deal ∈ deals, (Several includeMultiDeal deals → KeepFits I deal) ∧
      (¬Several includeMultiDeal deals → DealFits I maxStep includeFinal deal)

theorem good_subjectDeals (h : (Json.obj subject).Good F)
    (hdeals : subjectDeals subject = .ok deals) :
    ∀ deal ∈ deals, deal.Good F := by
  unfold subjectDeals at hdeals
  split at hdeals <;> cases hdeals
  · simp
  · rename_i hget
    have hlookup := (Option.filter_eq_some_iff.mp hget).1
    exact Json.goodItems_iff.mp (Json.good_lookup h hlookup)

theorem expandDeals_passes {deals : List Json} (hgood : ∀ deal ∈ deals, deal.Good F) :
    (∃ made, expandDeals I maxStep includeFinal includeMultiDeal deals stats = .ok made ∧
        ∀ out ∈ made.1, Passes I maxStep out) ↔
      ∀ deal ∈ deals, (Several includeMultiDeal deals → KeepFits I deal) ∧
        (¬Several includeMultiDeal deals → DealFits I maxStep includeFinal deal) := by
  rw [expandDeals]
  by_cases hseveral : Several includeMultiDeal deals
  · rw [if_pos (show deals.length > 1 ∧ includeMultiDeal = false from hseveral)]
    simp only [hseveral, true_implies, not_true_eq_false, false_implies, and_true]
    exact eachDeal_passes hgood fun deal stats h => keepMultiDeal_passes h stats
  · rw [if_neg (show ¬(deals.length > 1 ∧ includeMultiDeal = false) from hseveral)]
    simp only [hseveral, false_implies, not_false_eq_true, true_implies, true_and]
    exact eachDeal_passes hgood fun deal stats h => expandDeal_passes h stats

theorem good_expandDeals {deals : List Json} (hgood : ∀ deal ∈ deals, deal.Good F)
    (hrun : expandDeals I maxStep includeFinal includeMultiDeal deals stats = .ok made) :
    ∀ out ∈ made.1, out.Good F := by
  intro out hout
  unfold expandDeals at hrun
  split at hrun
  · obtain ⟨deal, hdeal, before, after, hstep⟩ := (eachDeal_eq_ok hrun).exists_left hout
    exact good_keepMultiDeal hstep (hgood deal hdeal)
  · obtain ⟨deal, hdeal, before, after, hstep⟩ := (eachDeal_eq_ok hrun).exists_left hout
    exact good_expandDeal hstep (hgood deal hdeal)

/-- Exactly the subjects that fit are expanded, found sane and can be written. -/
theorem expandSubject_passes (h : (Json.obj subject).Good F) (stats : ExpandStats) :
    (∃ out stats', expandSubject I subject stats maxStep includeFinal includeMultiDeal =
        .ok (out, stats') ∧ assertChainSane I out maxStep = .ok () ∧
        ((Json.obj out).dumps .compact).Encodes) ↔
      SubjectFits I maxStep includeFinal includeMultiDeal subject := by
  cases hdeals : subjectDeals subject with
  | error e => simp [expandSubject, SubjectFits, hdeals]
  | ok deals =>
    have hgood := good_subjectDeals h hdeals
    have hout (made : List Json × ExpandStats)
        (hmade : expandDeals I maxStep includeFinal includeMultiDeal deals stats = .ok made) :
        assertChainSane I (Json.setField (Text.lit "deals") (.arr made.1) subject)
          maxStep = .ok () ∧
          ((Json.obj (Json.setField (Text.lit "deals") (.arr made.1) subject)).dumps
            .compact).Encodes ↔
        (∀ out ∈ made.1, Passes I maxStep out) ∧ EncodesBut [Text.lit "deals"] subject := by
      have houts : (Json.arr made.1).Good F := Json.goodItems_iff.mpr (good_expandDeals hgood hmade)
      rw [Json.encodes_dumps Json.Separators.compact_ascii (Json.good_setField h houts),
        ← encodesBut_nil, encodesBut_setField h.1 (Text.encodes_lit _), assertChainSane,
        subjectDeals_setField, Except.ok_bind, Except.forM_eq_ok, Json.AllTexts,
        Json.allTextsItems_iff]
      simp only [List.not_mem_nil, not_false_eq_true, true_implies, Passes, forall_and, and_assoc]
    constructor
    · rintro ⟨_, _, hrun, hsane, htexts⟩
      rw [expandSubject, hdeals, Except.ok_bind] at hrun
      obtain ⟨made, hmade, hrun⟩ := Except.bind_eq_ok.mp hrun
      cases hrun
      obtain ⟨hpass, hothers⟩ := (hout made hmade).mp ⟨hsane, htexts⟩
      exact ⟨deals, hdeals, hothers, (expandDeals_passes hgood).mp ⟨made, hmade, hpass⟩⟩
    · rintro ⟨deals', hdeals', hothers, hfits⟩
      cases hdeals.symm.trans hdeals'
      obtain ⟨made, hmade, hpass⟩ :=
        (@expandDeals_passes I maxStep includeFinal includeMultiDeal
        stats F deals hgood).mpr hfits
      obtain ⟨hsane, htexts⟩ := (hout made hmade).mpr ⟨hpass, hothers⟩
      refine ⟨_, made.2, ?_, hsane, htexts⟩
      rw [expandSubject, hdeals, Except.ok_bind, hmade, Except.ok_bind]

end UbkiUploader
