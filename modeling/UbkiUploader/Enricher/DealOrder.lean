import UbkiUploader.Enricher.Identity
import UbkiUploader.Lib.Chronology

/-!
# The order of a line's deals

The deals of a line are looked up one by one, and everything else is taken from the
newest application among them. Where their applications were made at different moments,
there is one newest, whatever the order of the deals.
-/

namespace UbkiUploader

variable {u : Ucd} {config : Config} {rows : Rows} {peers : Peers} {line line' : Fields}
variable {deals deals' : List Json}

structure Reordered (line line' : Fields) (deals deals' : List Json) : Prop where
  before : line.lookup (Text.lit "deals") = some (.arr deals)
  after : line'.lookup (Text.lit "deals") = some (.arr deals')
  perm : deals.Perm deals'
  rest : ∀ key, key ≠ Text.lit "deals" → line.lookup key = line'.lookup key

/-- The cabinet keeps naive datetimes for the moments of application. -/
def Rows.Timed (rows : Rows) : Prop :=
  ∀ entry ∈ rows.entries, ∃ d t, entry.2.appliedAt = .datetime d t

/-- The different applications of the deals were made at different moments. -/
def AppliedApart (u : Ucd) (rows : Rows) (deals : List Json) : Prop :=
  ∀ deal ∈ deals, ∀ other ∈ deals, ∀ row row',
    rows.lookup (dealDlref u deal) = some row →
    rows.lookup (dealDlref u other) = some row' → row.appliedAt = row'.appliedAt →
    dealDlref u deal = dealDlref u other

def Row.instant (row : Row) : Nat :=
  match row.appliedAt with
  | .datetime d t => Calendar.instant d t
  | _ => 0

/-- The row is of the application that is the latest among those of the deals. -/
structure Row.Latest (u : Ucd) (rows : Rows) (deals : List Json) (newest : Row) : Prop where
  own : ∃ deal ∈ deals, rows.lookup (dealDlref u deal) = some newest
  latest : ∀ deal ∈ deals, ∀ row, rows.lookup (dealDlref u deal) = some row →
    row.instant ≤ newest.instant

/-- Identity, dates, document, address and phone of a subject come from one row. -/
structure Subject.OfRow (u : Ucd) (peers : Peers) (subject : Subject) (newest : Row) : Prop where
  personId : subject.personId = newest.userId.toText
  inn : newest.userInn.stripped = subject.inn
  vdate : isoDate u newest.appliedAt = some subject.ident.vdate
  doc : ∃ stats, buildDoc u newest subject.ident.vdate (peers newest.userId) =
    .ok (subject.doc, stats)
  addr : subject.addr = buildAddr newest subject.ident.vdate
  contact : subject.contact.vdate = subject.ident.vdate ∧
    rowPhone u newest = .ok subject.contact.cval

-- ---------------------------------------------------------------------------
-- The newest row
-- ---------------------------------------------------------------------------

theorem sortKey_le_iff {row row' : Row} (h : row.appliedAt = .datetime d t)
    (h' : row'.appliedAt = .datetime d' t') :
    sortKey row.appliedAt ≤ sortKey row'.appliedAt ↔ row.instant ≤ row'.instant := by
  rw [Row.instant, Row.instant, h, h']
  exact Calendar.isoMoment_le_iff

theorem Rows.Timed.of_lookup (hrows : rows.Timed) (h : rows.lookup dlref = some row) :
    ∃ d t, row.appliedAt = .datetime d t :=
  hrows ⟨dlref, row⟩ (AList.mem_lookup_iff.mp h)

theorem eq_of_instant (hrows : rows.Timed) (hapart : AppliedApart u rows deals)
    (hdeal : deal ∈ deals) (hother : other ∈ deals)
    (h : rows.lookup (dealDlref u deal) = some row)
    (h' : rows.lookup (dealDlref u other) = some row') (hinstant : row.instant = row'.instant) :
    row = row' := by
  obtain ⟨d, t, hat⟩ := hrows.of_lookup h
  obtain ⟨d', t', hat'⟩ := hrows.of_lookup h'
  rw [Row.instant, Row.instant, hat, hat'] at hinstant
  obtain ⟨rfl, rfl⟩ := Calendar.instant_inj hinstant
  have hsame := hapart deal hdeal other hother row row' h h' (hat.trans hat'.symm)
  rw [hsame, h'] at h
  exact (Option.some.inj h).symm

theorem dealRows_lookup
    (h : List.Forall₂ (fun deal row => dealRow u rows deal = .ok row) deals dealRows) :
    (∀ row ∈ dealRows, ∃ deal ∈ deals, rows.lookup (dealDlref u deal) = some row) ∧
    (∀ deal ∈ deals, ∃ row ∈ dealRows, rows.lookup (dealDlref u deal) = some row) := by
  constructor
  · intro row hrow
    obtain ⟨deal, hdeal, heq⟩ := h.exists_left hrow
    exact ⟨deal, hdeal, (dealRow_eq_ok.mp heq).2⟩
  · intro deal hdeal
    obtain ⟨row, hrow, heq⟩ := h.exists_right hdeal
    exact ⟨row, hrow, (dealRow_eq_ok.mp heq).2⟩

theorem latest_of_newestRow (hrows : rows.Timed)
    (h : List.Forall₂ (fun deal row => dealRow u rows deal = .ok row) deals dealRows)
    (hnewest : newestRow dealRows = .ok newest) : newest.Latest u rows deals := by
  obtain ⟨hmem, hmax⟩ := newestRow_eq_ok hnewest
  obtain ⟨hown, hall⟩ := dealRows_lookup h
  obtain ⟨deal₀, hdeal₀, hlookup₀⟩ := hown newest hmem
  refine ⟨⟨deal₀, hdeal₀, hlookup₀⟩, ?_⟩
  intro deal hdeal row hlookup
  obtain ⟨row', hrow', hlookup'⟩ := hall deal hdeal
  cases hlookup.symm.trans hlookup'
  obtain ⟨d, t, hat⟩ := hrows.of_lookup hlookup
  obtain ⟨d', t', hat'⟩ := hrows.of_lookup hlookup₀
  exact (sortKey_le_iff hat hat').mp (hmax row hrow')

theorem Row.Latest.unique {newest newest' : Row} (hrows : rows.Timed)
    (hapart : AppliedApart u rows deals) (h : newest.Latest u rows deals)
    (h' : newest'.Latest u rows deals) : newest = newest' := by
  obtain ⟨deal, hdeal, hlookup⟩ := h.own
  obtain ⟨other, hother, hlookup'⟩ := h'.own
  exact eq_of_instant hrows hapart hdeal hother hlookup hlookup'
    (Nat.le_antisymm (h'.latest deal hdeal newest hlookup) (h.latest other hother newest' hlookup'))

theorem Row.Latest.perm {newest : Row} (h : newest.Latest u rows deals)
    (hperm : deals.Perm deals') :
    newest.Latest u rows deals' := by
  obtain ⟨⟨deal, hdeal, hlookup⟩, hlatest⟩ := h
  exact ⟨⟨deal, hperm.subset hdeal, hlookup⟩,
    fun other hother => hlatest other (hperm.symm.subset hother)⟩

theorem AppliedApart.perm (h : AppliedApart u rows deals) (hperm : deals.Perm deals') :
    AppliedApart u rows deals' := by
  intro deal hdeal other hother
  exact h deal (hperm.symm.subset hdeal) other (hperm.symm.subset hother)

theorem newestRow_isSome (h : dealRows ≠ []) : ∃ newest, newestRow dealRows = .ok newest := by
  rw [newestRow]
  split
  · rename_i hnone
    exact absurd (List.argmax_eq_none.mp hnone) h
  · exact ⟨_, rfl⟩

-- ---------------------------------------------------------------------------
-- The stages
-- ---------------------------------------------------------------------------

theorem Reordered.symm (h : Reordered line line' deals deals') :
    Reordered line' line deals' deals :=
  ⟨h.after, h.before, h.perm.symm, fun key hkey => (h.rest key hkey).symm⟩

theorem Reordered.lineText (h : Reordered line line' deals deals') (key : String)
    (hkey : Text.lit key ≠ Text.lit "deals") : lineText u line' key = lineText u line key := by
  rw [UbkiUploader.lineText, UbkiUploader.lineText, Json.textOr, Json.textOr, h.rest _ hkey]

theorem lineDeals_eq_ok_iff : lineDeals line = .ok deals ↔
    line.lookup (Text.lit "deals") = some (.arr deals) ∧ deals ≠ [] := by
  refine ⟨lineDeals_eq_ok, ?_⟩
  rintro ⟨h, hne⟩
  obtain ⟨deal, deals, rfl⟩ := List.exists_cons_of_ne_nil hne
  rw [lineDeals, h]

/-- The stages run on the reordered line as well, and return the same but for the order. -/
theorem Stages.Ran.reordered (hline : Reordered line line' deals deals') (hrows : rows.Timed)
    (hapart : AppliedApart u rows deals) {s : Stages} (h : s.Ran u rows peers line) :
    ∃ dealRows', { s with deals := deals', dealRows := dealRows' }.Ran u rows peers line' := by
  obtain ⟨hdeals, hne⟩ := lineDeals_eq_ok h.deals
  cases hline.before.symm.trans hdeals
  obtain ⟨dealRows', hforall, hperm⟩ := List.perm_comp_forall₂ hline.perm.symm h.dealRows
  have hne' : deals' ≠ [] := fun hnil => hne (hline.perm.trans (hnil ▸ List.Perm.nil)).eq_nil
  have hrowsNe : dealRows' ≠ [] := by
    rintro rfl
    exact hne' (List.forall₂_nil_right_iff.mp hforall)
  obtain ⟨newest', hnewest'⟩ := newestRow_isSome hrowsNe
  have hlatest := (latest_of_newestRow hrows h.dealRows h.newest).perm hline.perm
  have hsame : newest' = s.newest := (latest_of_newestRow hrows hforall hnewest').unique hrows
    (hapart.perm hline.perm) hlatest
  refine ⟨dealRows', ?_⟩
  constructor
  case inn =>
    rw [lineInn, hline.lineText "inn" (by decide)]
    exact h.inn
  case deals => exact lineDeals_eq_ok_iff.mpr ⟨hline.after, hne'⟩
  case dealRows => exact hforall
  case oneClient =>
    have hone := oneClient_eq_ok.mp h.oneClient
    exact oneClient_eq_ok.mpr fun a ha b hb => hone a (hperm.subset ha) b (hperm.subset hb)
  case newest => exact hsame ▸ hnewest'
  case names =>
    rw [lineNames, hline.lineText "lname" (by decide), hline.lineText "fname" (by decide),
      hline.lineText "bdate" (by decide)]
    exact h.names
  case verified => exact h.verified
  case vdate => exact h.vdate
  case doc => exact h.doc
  case phone => exact h.phone
  case bdate => exact h.bdate
  case csex => exact h.csex

theorem Stages.Ran.ofRow {s : Stages} (h : s.Ran u rows peers line) :
    (s.subject u config line).OfRow u peers s.newest where
  personId := rfl
  inn := verifyInn_eq_ok.mp h.verified
  vdate := by
    have hvdate := h.vdate
    rw [rowVdate] at hvdate
    split at hvdate
    · cases hvdate
    · cases hvdate
      assumption
  doc := ⟨s.stats, h.doc⟩
  addr := rfl
  contact := ⟨rfl, h.phone⟩

/-- A subject for one order of the deals is one for every order, with its deals in that
order, and it is about the latest application. -/
theorem enrichLine_of_reordered (hline : Reordered line line' deals deals') (hrows : rows.Timed)
    (hapart : AppliedApart u rows deals)
    (h : enrichLine u config rows peers line = .ok (subject, stats)) :
    enrichLine u config rows peers line' =
      .ok ({ subject with deals := deals'.map (outDeal config) }, stats) ∧
    subject.deals = deals.map (outDeal config) ∧
    ∃ newest : Row, newest.Latest u rows deals ∧ subject.OfRow u peers newest := by
  obtain ⟨s, hs, rfl, rfl⟩ := enrichLine_eq_ok.mp h
  obtain ⟨dealRows', hs'⟩ := hs.reordered hline hrows hapart
  cases hline.before.symm.trans (lineDeals_eq_ok hs.deals).1
  refine ⟨enrichLine_eq_ok.mpr ⟨_, hs', ?_, rfl⟩, rfl, s.newest,
    latest_of_newestRow hrows hs.dealRows hs.newest, hs.ofRow⟩
  simp only [Stages.subject, hline.lineText "mname" (by decide), Json.textOr,
    hline.rest (Text.lit "reqlng") (by decide)]

/-- The order of a line's deals does not matter. -/
theorem enrichLine_reordered (hline : Reordered line line' deals deals') (hrows : rows.Timed)
    (hapart : AppliedApart u rows deals) :
    ((∃ r, enrichLine u config rows peers line = .ok r) ↔
      ∃ r, enrichLine u config rows peers line' = .ok r) ∧
    ∀ subject stats, enrichLine u config rows peers line = .ok (subject, stats) →
      enrichLine u config rows peers line' =
        .ok ({ subject with deals := deals'.map (outDeal config) }, stats) ∧
      subject.deals = deals.map (outDeal config) ∧
      ∃ newest : Row, newest.Latest u rows deals ∧ subject.OfRow u peers newest := by
  refine ⟨⟨?_, ?_⟩, fun subject stats h => enrichLine_of_reordered hline hrows hapart h⟩
  · rintro ⟨⟨subject, stats⟩, h⟩
    exact ⟨_, (enrichLine_of_reordered hline hrows hapart h).1⟩
  · rintro ⟨⟨subject, stats⟩, h⟩
    exact ⟨_, (enrichLine_of_reordered hline.symm hrows (hapart.perm hline.perm) h).1⟩

theorem sameDay_year : 1 ≤ 2026 ∧ 2026 ≤ 9999 := by decide

theorem sameDay_month : 1 ≤ 8 ∧ 8 ≤ 12 := by decide

def sameDay : Calendar.Date := ⟨2026, 8, 14, sameDay_year, sameDay_month, by decide⟩

def sameDayRows : Rows :=
  (AList.singleton (Text.lit "6")
    { forgetfulRow with appliedAt := .datetime sameDay ⟨9, 30, 0, ⟨5, by decide⟩⟩ }).insert
      (Text.lit "5")
    { forgetfulRow with appliedAt := .datetime sameDay ⟨9, 30, 0, ⟨0, by decide⟩⟩ }

def sameDayDeals : List Json :=
  [.obj [(Text.lit "dlref", .int 5)], .obj [(Text.lit "dlref", .int 6)]]

def sameDayLine (deals : List Json) : Fields := (Text.lit "deals", .arr deals) :: forgetfulLine

theorem enrichLine_reordered_sameDay :
    ∃ r, enrichLine .ascii {} sameDayRows (fun _ => []) (sameDayLine sameDayDeals) = .ok r ∧
      enrichLine .ascii {} sameDayRows (fun _ => []) (sameDayLine sameDayDeals.reverse) =
        .ok ({ r.1 with deals := sameDayDeals.reverse.map (outDeal {}) }, r.2) := by
  have hline : Reordered (sameDayLine sameDayDeals) (sameDayLine sameDayDeals.reverse)
      sameDayDeals sameDayDeals.reverse := by
    refine ⟨rfl, rfl, (List.reverse_perm _).symm, ?_⟩
    intro key hkey
    rw [sameDayLine, sameDayLine, Json.lookup_cons, Json.lookup_cons, if_neg hkey, if_neg hkey]
  have hrows : sameDayRows.Timed := by
    intro entry hentry
    fin_cases hentry
    · exact ⟨_, _, rfl⟩
    · exact ⟨_, _, rfl⟩
  have hapart : AppliedApart .ascii sameDayRows sameDayDeals := by
    intro deal hdeal other hother row row' h h' hsame
    fin_cases hdeal <;> fin_cases hother <;> cases h <;> cases h' <;> first | rfl | cases hsame
  obtain ⟨⟨subject, stats⟩, h⟩ : ∃ r, enrichLine .ascii {} sameDayRows (fun _ => [])
      (sameDayLine sameDayDeals) = .ok r := ⟨_, rfl⟩
  exact ⟨_, h, ((enrichLine_reordered hline hrows hapart).2 subject stats h).1⟩

end UbkiUploader
