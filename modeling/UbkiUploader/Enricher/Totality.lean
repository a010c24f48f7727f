import UbkiUploader.Enricher.Written

/-!
# When process_file comes to its end

Only errors of the JSON syntax are caught line by line. What else a line or its rows
can raise on the way, and what cannot be written in UTF-8, is collected here, stage
by stage; a file without it is processed to the end, with every line accounted for.
-/

namespace UbkiUploader

open Except (Post post_bind post_iff post_unit_iff post_true_iff post_iff_of_error)
open Text (Encodes)

variable {u : Ucd} {config : Config} {rows : Rows} {peers : Peers} {line : Fields}

-- ---------------------------------------------------------------------------
-- Reasons
-- ---------------------------------------------------------------------------

def Reason.quoted (u : Ucd) : Reason → List Text
  | .brokenJson exc => [exc]
  | .unknownDlref dlref => [dlref]
  | .differentClients ids => ids.map (Cell.repr u)
  | .cabinetHasNoInn inn => [inn]
  | .innMismatch inn => [inn]
  | .bdateContradicts bdate inn expected => [bdate, inn, expected]
  | _ => []

theorem Reason.encodes_text (r : Reason) :
    (r.text u).Encodes ↔ ∀ t ∈ r.quoted u, t.Encodes := by
  cases r with
  | differentClients ids =>
    simp only [text, quoted, Text.encodes_append, Text.encodes_lit, true_and, and_true]
    exact Text.encodes_join (Text.encodes_lit _)
  | bdateContradicts bdate inn expected => simp [text, quoted]
  | _ => simp [text, quoted]

def Halt.Told (u : Ucd) : Halt → Prop
  | .quarantine r => (r.text u).Encodes
  | .raise _ => False

theorem Halt.told_quarantine : (Halt.quarantine r).Told u ↔ ∀ t ∈ r.quoted u, t.Encodes :=
  Reason.encodes_text r

/-- User ids that `<` can put in order, whichever two it is asked about. -/
def Comparable (ids : List Cell) : Prop := ids.Pairwise fun a b => Cell.comparable a b

theorem sorted?_eq_none_iff : Cell.sorted? ids = none ↔ ¬Comparable ids := by
  unfold Cell.sorted? Comparable
  split <;> simp [*]

theorem comparable_of_short (h : ids.length ≤ 1) : Comparable ids := by
  cases ids with
  | nil => exact .nil
  | cons id ids =>
    cases ids with
    | nil => exact List.pairwise_singleton _ _
    | cons => simp at h

-- ---------------------------------------------------------------------------
-- Stages before the document
-- ---------------------------------------------------------------------------

theorem told_lineInn (h : lineInn u line = .error e) : e.Told u := by
  unfold lineInn at h
  split at h
  · cases h
    exact Text.encodes_lit _
  · cases h

theorem told_lineDeals (h : lineDeals line = .error e) : e.Told u := by
  unfold lineDeals at h
  split at h
  · cases h
  · cases h
    exact Text.encodes_lit _

/-- Of the rows only a `dlref` that is not found is quoted. -/
theorem told_dealRows {deals : List Json} :
    (∀ e, deals.mapM (dealRow u rows) = .error e → e.Told u) ↔
      ∀ dlref, deals.mapM (dealRow u rows) = .error (.quarantine (.unknownDlref dlref)) →
        dlref.Encodes := by
  constructor
  · intro h dlref hdlref
    exact Halt.told_quarantine.mp (h _ hdlref) dlref List.mem_cons_self
  · intro h e he
    obtain ⟨deal, -, hdeal⟩ := Except.mapM_eq_error he
    unfold dealRow at hdeal
    split at hdeal
    · cases hdeal
      exact Text.encodes_lit _
    · split at hdeal
      · cases hdeal
        refine Halt.told_quarantine.mpr fun t ht => ?_
        rw [List.mem_singleton.mp ht]
        exact h _ he
      · cases hdeal

theorem told_oneClient (hu : u.Scalar) {dealRows : List Row} :
    (∀ e, oneClient dealRows = .error e → e.Told u) ↔
      Comparable (dealRows.map (·.userId)).dedup := by
  unfold oneClient
  generalize (dealRows.map (·.userId)).dedup = ids
  simp only
  split
  · cases hsorted : Cell.sorted? ids with
    | none => simpa [Halt.Told] using sorted?_eq_none_iff.mp hsorted
    | some sorted =>
      refine iff_of_true ?_ (by_contra fun hno => ?_)
      · intro e he
        cases he
        refine Halt.told_quarantine.mpr fun t ht => ?_
        obtain ⟨id, -, rfl⟩ := List.mem_map.mp ht
        exact encodes_repr hu id
      · rw [sorted?_eq_none_iff.mpr hno] at hsorted
        cases hsorted
  · rename_i hlen
    exact iff_of_true (fun e he => by cases he) (comparable_of_short (by omega))

theorem newestRow_ne_error (h : dealRows ≠ []) : newestRow dealRows ≠ .error e := by
  unfold newestRow
  split
  · rename_i hmax
    exact absurd (List.argmax_eq_none.mp hmax) h
  · intro h
    cases h

theorem told_verifyInn :
    (∀ e, verifyInn inn newest = .error e → e.Told u) ↔
      (newest.userInn.stripped ≠ inn → inn.Encodes) := by
  have hquote (r : Reason) (hr : r.quoted u = [inn]) :
      (∀ e, (.error (.quarantine r) : Except Halt Unit) = .error e → e.Told u) ↔
        inn.Encodes := by
    simp only [Except.error.injEq, forall_eq', Halt.told_quarantine, hr, List.mem_singleton,
      forall_eq]
  unfold verifyInn
  split
  · simp [*]
  · rename_i hne
    simp only [ne_eq, hne, not_false_eq_true, true_implies]
    split
    · exact hquote _ rfl
    · exact hquote _ rfl

theorem told_rowVdate (h : rowVdate u newest = .error e) : e.Told u := by
  unfold rowVdate at h
  split at h
  · cases h
    exact Text.encodes_lit _
  · cases h

/-- Nothing before the document holds the file back: no unknown `dlref` and no foreign tax
id that cannot be written, and no clients that cannot be put in order. -/
def HarmlessBefore (u : Ucd) (rows : Rows) (line : Fields) : Prop :=
  ∀ inn, lineInn u line = .ok inn → ∀ deals, lineDeals line = .ok deals →
    (∀ dlref, deals.mapM (dealRow u rows) = .error (.quarantine (.unknownDlref dlref)) →
      dlref.Encodes) ∧
    ∀ dealRows, deals.mapM (dealRow u rows) = .ok dealRows →
      Comparable (dealRows.map (·.userId)).dedup ∧
      (oneClient dealRows = .ok () → ∀ newest, newestRow dealRows = .ok newest →
        newest.userInn.stripped ≠ inn → inn.Encodes)

theorem told_beforeDoc (hu : u.Scalar) :
    (∀ e, beforeDoc u rows line = .error e → e.Told u) ↔ HarmlessBefore u rows line := by
  rw [← post_true_iff, beforeDoc]
  simp only [post_bind]
  refine (post_iff_of_error fun e => told_lineInn).trans (forall₂_congr fun inn _ => ?_)
  refine (post_iff_of_error fun e => told_lineDeals).trans (forall₂_congr fun deals hdeals => ?_)
  refine post_iff.trans (and_congr told_dealRows (forall₂_congr fun dealRows hrows => ?_))
  have hne : dealRows ≠ [] := by
    rintro rfl
    exact (lineDeals_eq_ok hdeals).2 (List.forall₂_nil_right_iff.mp (Except.mapM_eq_ok.mp hrows))
  refine post_unit_iff.trans (and_congr (told_oneClient hu) (imp_congr_right fun _ => ?_))
  refine (post_iff_of_error fun e he => absurd he (newestRow_ne_error hne)).trans
    (forall₂_congr fun newest _ => ?_)
  have hvdate (inn : Text) (deals : List Json) :
      Post (fun vdate => Post (fun _ => True) (Halt.Told u)
        (.ok (inn, deals, newest, vdate) : Except Halt (Text × List Json × Row × Text)))
        (Halt.Told u) (rowVdate u newest) :=
    post_iff.mpr ⟨fun e => told_rowVdate, fun _ _ => trivial⟩
  refine post_unit_iff.trans ((and_congr_left' told_verifyInn).trans (and_iff_left ?_))
  exact fun _ => hvdate inn deals

-- ---------------------------------------------------------------------------
-- The document and what comes after it
-- ---------------------------------------------------------------------------

theorem buildDocFrom_eq_quarantine {apps : List Peer} {sources : List PassportCells}
    (h : buildDocFrom u vdate apps sources incomplete saw = .error (.quarantine r)) :
    r = .unsupportedPassport ∨ r = .noPassport := by
  induction sources generalizing incomplete saw with
  | nil =>
    cases incomplete with
    | some doc => cases h
    | none =>
      cases saw with
      | true =>
        cases h
        exact .inl rfl
      | false =>
        cases h
        exact .inr rfl
  | cons source sources ih =>
    rw [buildDocFrom_cons] at h
    split at h
    · exact ih h
    · rcases Except.bind_eq_error.mp h with hfields | ⟨doc, -, h⟩
      · cases (docFields_eq_error.mp hfields).1
      · split at h
        · cases h
        · exact ih h

theorem told_buildDoc {apps : List Peer} :
    (∀ e, buildDoc u row vdate apps = .error e → e.Told u) ↔ ¬Raises u apps row := by
  constructor
  · intro h hraises
    exact h _ (buildDoc_eq_raise.mpr ⟨rfl, hraises⟩)
  · rintro hno (r | e) he
    · rcases buildDocFrom_eq_quarantine he with rfl | rfl
      · exact Text.encodes_lit _
      · exact Text.encodes_lit _
    · exact absurd (buildDoc_eq_raise.mp he).2 hno

/-- Where no source raises, a document comes out if any is in a supported format. -/
theorem buildDoc_isOk_iff {apps : List Peer} (vdate : Text) (hno : ¬Raises u apps row) :
    (∃ made, buildDoc u row vdate apps = .ok made) ↔
    ∃ source ∈ row.sources, supported u source := by
  constructor
  · rintro ⟨made, hmade⟩
    by_contra hnone
    have hraise : ∀ e, buildDocFrom u vdate apps row.sources none false ≠ .error (.raise e) :=
      fun e he => hno (buildDoc_eq_raise.mp he).2
    have hsup : row.sources.find? (supported u) = none :=
      List.find?_eq_none.mpr fun source hs hsup => hnone ⟨source, hs, hsup⟩
    have hcomp : row.sources.find? (completes u apps) = none := by
      refine List.find?_eq_none.mpr fun source hs hcomp => hnone ⟨source, hs, ?_⟩
      simp only [completes, Bool.and_eq_true] at hcomp
      exact hcomp.1.1
    obtain ⟨reason, hreason⟩ := ((buildDocFrom_spec hraise).2 hcomp).2.2 rfl hsup
    cases hmade.symm.trans hreason
  · rintro ⟨source, hs, husable⟩
    exact buildDoc_isOk vdate hno hs husable

theorem told_rowPhone (h : rowPhone u newest = .error e) : e.Told u := by
  unfold rowPhone at h
  split at h
  · cases h
    exact Text.encodes_lit _
  · cases h

theorem told_lineNames (h : lineNames u line = .error e) : e.Told u := by
  simp only [lineNames] at h
  split at h
  · cases h
  · cases h
    exact Text.encodes_lit _

theorem encodes_innBirthday (h : innBirthday u inn = some expected) : expected.Encodes := by
  unfold innBirthday at h
  split at h
  · obtain ⟨day, -, rfl⟩ := Option.map_eq_some_iff.mp h
    exact Calendar.encodes_isoformat day
  · cases h

theorem told_checkBdate (hinn : inn.Encodes) :
    (∀ e, checkBdate u inn bdate = .error e → e.Told u) ↔
      (checkBdate u inn bdate ≠ .ok () → bdate.Encodes) := by
  unfold checkBdate
  split
  · simp
  · rename_i expected hexpected
    have hquoted := encodes_innBirthday hexpected
    split
    · simp [Halt.told_quarantine, Reason.quoted, hinn, hquoted]
    · simp

/-- The digit of the sex in a tax id is one that `int` reads. -/
def SexRead (u : Ucd) (inn : Text) : Prop := isTaxId u inn → (u.int? ((inn.drop 8).take 1)).isSome

theorem told_innSex : (∀ e, innSex u inn = .error e → e.Told u) ↔ SexRead u inn := by
  unfold innSex SexRead
  split
  · cases hdigit : u.int? ((inn.drop 8).take 1) with
    | none => simp [*, Halt.Told]
    | some digit => simp [*]
  · simp [*]

/-- Nothing after the document holds the file back: no birth date that contradicts the tax
id and cannot be written, and no digit that `int` does not read. -/
def HarmlessAfter (u : Ucd) (line : Fields) (inn : Text) (newest : Row) : Prop :=
  ∀ phone, rowPhone u newest = .ok phone →
    ∀ lname fname bdate, lineNames u line = .ok (lname, fname, bdate) →
      (checkBdate u inn bdate ≠ .ok () → bdate.Encodes) ∧
      (checkBdate u inn bdate = .ok () → SexRead u inn)

theorem told_afterDoc (hinn : inn.Encodes) :
    (∀ e, afterDoc u line inn newest = .error e → e.Told u) ↔
    HarmlessAfter u line inn newest := by
  rw [← post_true_iff, afterDoc]
  simp only [post_bind]
  refine (post_iff_of_error fun e => told_rowPhone).trans (forall₂_congr fun phone _ => ?_)
  refine (post_iff_of_error fun e => told_lineNames).trans ?_
  simp only [Prod.forall]
  refine forall₄_congr fun lname fname bdate _ => ?_
  refine post_unit_iff.trans (and_congr (told_checkBdate hinn) (imp_congr_right fun _ => ?_))
  exact post_iff.trans ((and_congr_left' told_innSex).trans (and_iff_left fun _ _ => trivial))

-- ---------------------------------------------------------------------------
-- Lines
-- ---------------------------------------------------------------------------

/-- A line does not hold its file back: where it gets to its document no source that is
tried is overdue, and where it is enriched its own texts can be written. -/
def HarmlessLine (u : Ucd) (config : Config) (rows : Rows) (peers : Peers) (line : Fields) : Prop :=
  HarmlessBefore u rows line ∧
  ∀ inn deals newest vdate, beforeDoc u rows line = .ok (inn, deals, newest, vdate) →
    ¬Raises u (peers newest.userId) newest ∧
    ((∃ source ∈ newest.sources, supported u source) →
      HarmlessAfter u line inn newest ∧
      ((∃ p, afterDoc u line inn newest = .ok p) → LineWritten u config line deals))

/-- What the three parts of `enrich_line` return is what its stages return. -/
theorem exists_ran (config : Config)
    (hbefore : beforeDoc u rows line = .ok (inn, deals, newest, vdate))
    (hdoc : buildDoc u newest vdate (peers newest.userId) = .ok (doc, stats))
    (hafter : afterDoc u line inn newest = .ok p) :
    ∃ s : Stages, s.Ran u rows peers line ∧ s.inn = inn ∧ s.deals = deals ∧
    s.newest = newest ∧
      s.subject u config line = subjectOf u config line inn deals newest vdate doc p ∧
      s.stats = stats := by
  obtain ⟨inn, hinn, h⟩ := Except.bind_eq_ok.mp hbefore
  obtain ⟨deals, hdeals, h⟩ := Except.bind_eq_ok.mp h
  obtain ⟨dealRows, hrows, h⟩ := Except.bind_eq_ok.mp h
  obtain ⟨hone, h⟩ := Except.unit_bind_eq_ok.mp h
  obtain ⟨newest, hnewest, h⟩ := Except.bind_eq_ok.mp h
  obtain ⟨hverified, h⟩ := Except.unit_bind_eq_ok.mp h
  obtain ⟨vdate, hvdate, h⟩ := Except.bind_eq_ok.mp h
  cases h
  obtain ⟨phone, hphone, h⟩ := Except.bind_eq_ok.mp hafter
  obtain ⟨⟨lname, fname, bdate⟩, hnames, h⟩ := Except.bind_eq_ok.mp h
  obtain ⟨hbdate, h⟩ := Except.unit_bind_eq_ok.mp h
  obtain ⟨csex, hcsex, h⟩ := Except.bind_eq_ok.mp h
  cases h
  exact ⟨⟨inn, deals, dealRows, newest, vdate, doc, stats, phone, lname, fname, bdate, csex⟩,
    ⟨hinn, hdeals, Except.mapM_eq_ok.mp hrows, hone, hnewest, hverified, hvdate, hdoc, hphone,
      hnames, hbdate, hcsex⟩, rfl, rfl, rfl, rfl, rfl⟩

theorem beforeDoc_inn (h : beforeDoc u rows line = .ok (inn, deals, newest, vdate)) :
    newest.userInn.stripped = inn := by
  obtain ⟨inn, -, h⟩ := Except.bind_eq_ok.mp h
  obtain ⟨deals, -, h⟩ := Except.bind_eq_ok.mp h
  obtain ⟨dealRows, -, h⟩ := Except.bind_eq_ok.mp h
  obtain ⟨-, h⟩ := Except.unit_bind_eq_ok.mp h
  obtain ⟨newest, -, h⟩ := Except.bind_eq_ok.mp h
  obtain ⟨hverified, h⟩ := Except.unit_bind_eq_ok.mp h
  obtain ⟨vdate, -, h⟩ := Except.bind_eq_ok.mp h
  cases h
  exact verifyInn_eq_ok.mp hverified

abbrev Settled (u : Ucd) (outcome : Except Halt (Subject × DocStats)) : Prop :=
  Post (fun made => made.1.dumps.Encodes) (Halt.Told u) outcome

theorem settled_enrichLine {env : EnrichEnv} (hu : env.ucd.Scalar)
    (hrows : ∀ e ∈ rows.entries, e.2.Decoded)
    (hpeers : ∀ client, ∀ peer ∈ peers client, peer.passport.Decoded)
    (hline : Json.Within env.floats env.levels (.obj line)) :
    Settled env.ucd (enrichLine env.ucd env.config rows peers line) ↔
      HarmlessLine env.ucd env.config rows peers line := by
  rw [enrichLine_eq]
  refine post_bind.trans (post_iff.trans (and_congr (told_beforeDoc hu) ?_))
  simp only [Prod.forall]
  refine forall₅_congr fun inn deals newest vdate hbefore => ?_
  obtain ⟨e, he, rfl⟩ := beforeDoc_newest hbefore
  have hrow := hrows e he
  have hinn : inn.Encodes := beforeDoc_inn hbefore ▸ hrow.userInn.stripped
  refine post_bind.trans (post_iff.trans ((and_congr_left' told_buildDoc).trans
    (and_congr_right fun hno => ?_)))
  rw [← buildDoc_isOk_iff vdate hno, forall_exists_index]
  refine forall₂_congr fun made hdoc => ?_
  refine post_bind.trans (post_iff.trans (and_congr (told_afterDoc hinn) ?_))
  rw [forall_exists_index]
  refine forall₂_congr fun p hafter => ?_
  obtain ⟨s, hran, -, rfl, hnewest, hsubject, hstats⟩ :=
    exists_ran env.config hbefore hdoc hafter
  have hbuilt : (s.subject env.ucd env.config line).Built env :=
    ⟨rows, peers, line, s.stats, hline, enrichLine_eq_ok.mpr ⟨s, hran, rfl, rfl⟩⟩
  show Encodes (Subject.dumps _) ↔ _
  rw [← hsubject, Subject.dumps, Json.encodes_dumps Json.Separators.compact_ascii hbuilt.within.1]
  exact hran.written_iff hu (hnewest ▸ hrow) fun peer => hnewest ▸ hpeers _ peer

end UbkiUploader
