import UbkiUploader.Enricher.Document

/-!
# Which clients are looked up (app/enricher.py, `_clients_missing_issuer`)

The peers of a client are fetched only if some row of the client has a usable number
without an issuer and no issuer at all. Whether a line then comes out as it would with
all peers at hand is settled here.
-/

namespace UbkiUploader

variable {u : Ucd} {config : Config} {rows : Rows} {peers : Peers} {line : Fields}
  {apps : List Peer} {row : Row}

/-- A source of the row carries a usable number without an issuer, and none an issuer. -/
def missesIssuer (u : Ucd) (row : Row) : Bool :=
  let usable := row.sources.filter (supported u)
  usable.any (·.issuedBy.stripped = []) && !usable.any (·.issuedBy.stripped ≠ [])

def clientsMissingIssuer (u : Ucd) (rows : Rows) : Except PyError (List Cell) :=
  let need := (((rows.entries.map (·.2)).filter (missesIssuer u)).map (·.userId)).dedup
  match Cell.sorted? need with
  | some ids => .ok ids
  | none => .error .typeError

def Peers.only (peers : Peers) (ids : List Cell) : Peers :=
  fun client => if client ∈ ids then peers client else []

theorem mem_clientsMissingIssuer (h : clientsMissingIssuer u rows = .ok need) :
    client ∈ need ↔ ∃ e ∈ rows.entries, missesIssuer u e.2 ∧ e.2.userId = client := by
  simp only [clientsMissingIssuer, Cell.sorted?] at h
  split at h
  · rename_i ids hids
    cases h
    split at hids
    · cases hids
      rw [(List.perm_insertionSort _ _).mem_iff]
      simp only [List.mem_dedup, List.mem_map, List.mem_filter]
      constructor
      · rintro ⟨row, ⟨⟨e, he, rfl⟩, hmiss⟩, hclient⟩
        exact ⟨e, he, hmiss, hclient⟩
      · rintro ⟨e, he, hmiss, hclient⟩
        exact ⟨e.2, ⟨⟨e, he, rfl⟩, hmiss⟩, hclient⟩
    · cases hids
  · cases h

-- ---------------------------------------------------------------------------
-- Before and after the document
-- ---------------------------------------------------------------------------

/-- The stages of `enrich_line` before the document. -/
def beforeDoc (u : Ucd) (rows : Rows) (line : Fields) :
    Except Halt (Text × List Json × Row × Text) := do
  let inn ← lineInn u line
  let deals ← lineDeals line
  let dealRows ← deals.mapM (dealRow u rows)
  oneClient dealRows
  let newest ← newestRow dealRows
  verifyInn inn newest
  let vdate ← rowVdate u newest
  .ok (inn, deals, newest, vdate)

structure Particulars where
  phone : Text
  lname : Text
  fname : Text
  bdate : Text
  csex : Option Text

/-- The stages of `enrich_line` after the document. -/
def afterDoc (u : Ucd) (line : Fields) (inn : Text) (newest : Row) : Except Halt Particulars := do
  let phone ← rowPhone u newest
  let (lname, fname, bdate) ← lineNames u line
  checkBdate u inn bdate
  let csex ← innSex u inn
  .ok { phone, lname, fname, bdate, csex }

def subjectOf (u : Ucd) (config : Config) (line : Fields) (inn : Text) (deals : List Json)
    (newest : Row) (vdate : Text) (doc : Doc) (p : Particulars) : Subject where
  reqlng := Json.textOr u line (Text.lit "reqlng") (Text.lit "1")
  inn
  personId := newest.userId.toText
  lname := p.lname
  fname := p.fname
  mname := lineText u line "mname"
  bdate := p.bdate
  ident :=
    { vdate, inn, lname := p.lname, fname := p.fname, mname := lineText u line "mname",
      bdate := p.bdate, csex := p.csex }
  doc
  addr := buildAddr newest vdate
  deals := deals.map (outDeal config)
  contact := { vdate, cval := p.phone }

/-- The document stands between stages that do not look at it. -/
theorem enrichLine_eq : enrichLine u config rows peers line =
    beforeDoc u rows line >>= fun (inn, deals, newest, vdate) =>
      buildDoc u newest vdate (peers newest.userId) >>= fun (doc, stats) =>
        afterDoc u line inn newest >>= fun p =>
          .ok (subjectOf u config line inn deals newest vdate doc p, stats) := by
  simp only [enrichLine, beforeDoc, afterDoc, bind_assoc, Except.ok_bind]
  rfl

-- ---------------------------------------------------------------------------
-- What a peer changes
-- ---------------------------------------------------------------------------

def OverdueAt (u : Ucd) (apps : List Peer) (source : PassportCells) : Prop :=
  ∃ n, parseDocNumber u source.number = some n ∧ Overdue n (issuerOf u apps source).2.1

def Raises (u : Ucd) (apps : List Peer) (row : Row) : Prop :=
  OverdueAt u apps row.snap ∨ (¬Completable u apps row.snap ∧ OverdueAt u apps row.user)

/-- One of the two sources states an issuer; the peers change nothing if there is none
for the other, or if they do not make it complete and the first is used anyway. -/
def SameDocument (u : Ucd) (apps : List Peer) (row : Row) : Prop :=
  supported u row.snap → supported u row.user →
    (row.snap.issuedBy.stripped = [] → row.user.issuedBy.stripped ≠ [] →
      ∀ peer, newestPeer u apps (normalizeNumber u row.snap.number) = some peer →
        isoDate u row.snap.date = none ∧ isoDate u peer.passport.date = none ∧
          (isoDate u row.user.date).isSome) ∧
    (row.snap.issuedBy.stripped ≠ [] → row.user.issuedBy.stripped = [] →
      ∀ peer, newestPeer u apps (normalizeNumber u row.user.number) = some peer →
        (isoDate u row.snap.date).isSome ∨
          isoDate u row.user.date = none ∧ isoDate u peer.passport.date = none)

theorem newestPeer_nil : newestPeer u [] number = none := rfl

theorem issuerOf_nil (u : Ucd) (source : PassportCells) :
    issuerOf u [] source = (source.issuedBy.stripped, isoDate u source.date, false) := by
  rw [issuerOf_eq, newestPeer_nil]
  split
  · rename_i h
    rw [h]
  · rfl

theorem buildDocFrom_congr {a b : List Peer} {sources : List PassportCells}
    (h : ∀ source ∈ sources, supported u source → issuerOf u a source = issuerOf u b source) :
    buildDocFrom u vdate a sources incomplete saw =
      buildDocFrom u vdate b sources incomplete saw := by
  induction sources generalizing incomplete saw with
  | nil => cases incomplete <;> cases saw <;> rfl
  | cons source sources ih =>
    have ih (incomplete : Option Doc) (saw : Bool) :
        buildDocFrom u vdate a sources incomplete saw =
          buildDocFrom u vdate b sources incomplete saw :=
      ih fun s hs => h s (List.mem_cons_of_mem _ hs)
    rw [buildDocFrom_cons, buildDocFrom_cons]
    cases hparsed : parseDocNumber u source.number with
    | none => exact ih _ _
    | some parsed =>
      have hsame := h source List.mem_cons_self (by simp [supported, hparsed])
      have hcomp : completes u a source = completes u b source := by
        unfold completes
        rw [hsame]
      simp only [hsame, hcomp, ih]

theorem buildDoc_two (hsnap : parseDocNumber u row.snap.number = some nsnap)
    (huser : parseDocNumber u row.user.number = some nuser) :
    buildDoc u row vdate apps =
      (docFields vdate nsnap (issuerOf u apps row.snap).1 (issuerOf u apps row.snap).2.1 >>=
        fun doc =>
        if completes u apps row.snap then
          .ok (doc, { issuerFromPeer := (issuerOf u apps row.snap).2.2 })
        else
          docFields vdate nuser (issuerOf u apps row.user).1 (issuerOf u apps row.user).2.1 >>=
            fun doc' =>
              if completes u apps row.user then
                .ok (doc', { issuerFromPeer := (issuerOf u apps row.user).2.2 })
              else .ok (doc, { docIncomplete := true })) := by
  rw [buildDoc, Row.sources, buildDocFrom_cons, hsnap]
  simp only [buildDocFrom_cons, huser]
  rfl

theorem docFields_isOk (h : ¬Overdue n issuedAt) :
    ∃ doc, docFields vdate n issuedBy issuedAt = .ok doc := by
  cases hfields : docFields vdate n issuedBy issuedAt with
  | ok doc => exact ⟨doc, rfl⟩
  | error halt => exact absurd (docFields_eq_error.mp hfields).2 h

theorem not_overdueAt (hn : parseDocNumber u source.number = some n)
    (h : docFields vdate n issuedBy (issuerOf u apps source).2.1 = .ok doc) :
    ¬OverdueAt u apps source := by
  rintro ⟨n', hn', hover⟩
  cases hn.symm.trans hn'
  have herr : docFields vdate n issuedBy (issuerOf u apps source).2.1 =
    .error (.raise .valueError) :=
    docFields_eq_error.mpr ⟨rfl, hover⟩
  cases h.symm.trans herr

/-- A document that cannot be dated is all that makes `build_doc` raise. -/
theorem buildDoc_eq_raise : buildDoc u row vdate apps = .error (.raise e) ↔
    e = .valueError ∧ Raises u apps row := by
  have hlast (incomplete : Option Doc) (saw : Bool) :
      buildDocFrom u vdate apps [row.user] incomplete saw = .error (.raise e) ↔
        e = .valueError ∧ OverdueAt u apps row.user := by
    have hnil (incomplete : Option Doc) (saw : Bool) :
        buildDocFrom u vdate apps [] incomplete saw ≠ .error (.raise e) := by
      cases incomplete <;> cases saw <;> exact fun h => by cases h
    rw [buildDocFrom_cons]
    cases hparsed : parseDocNumber u row.user.number with
    | none => simp [OverdueAt, hparsed, hnil]
    | some parsed =>
      cases hfields : docFields vdate parsed (issuerOf u apps row.user).1
          (issuerOf u apps row.user).2.1 with
      | error halt =>
        obtain ⟨rfl, hover⟩ := docFields_eq_error.mp hfields
        have hat : OverdueAt u apps row.user := ⟨parsed, hparsed, hover⟩
        simp only [hfields, Except.error_bind, Except.error.injEq, Halt.raise.injEq, hat, and_true]
        exact eq_comm
      | ok doc =>
        have hno := not_overdueAt hparsed hfields
        simp only [hfields, Except.ok_bind, hno, and_false, iff_false]
        split
        · exact fun h => by cases h
        · exact hnil _ _
  rw [buildDoc, Row.sources, buildDocFrom_cons, Raises]
  cases hparsed : parseDocNumber u row.snap.number with
  | none =>
    have hsnap : ¬Completable u apps row.snap := fun h => by
      simp [Completable, supported, hparsed] at h
    rw [hlast]
    simp [OverdueAt, hparsed, hsnap]
  | some parsed =>
    cases hfields : docFields vdate parsed (issuerOf u apps row.snap).1
        (issuerOf u apps row.snap).2.1 with
    | error halt =>
      obtain ⟨rfl, hover⟩ := docFields_eq_error.mp hfields
      have hat : OverdueAt u apps row.snap := ⟨parsed, hparsed, hover⟩
      simp only [hfields, Except.error_bind, Except.error.injEq, Halt.raise.injEq, hat, true_or,
        and_true]
      exact eq_comm
    | ok doc =>
      have hno := not_overdueAt hparsed hfields
      simp only [hfields, Except.ok_bind, hno, false_or, ← completes_iff]
      by_cases hcomp : completes u apps row.snap
      · simp [hcomp]
      · rw [if_neg hcomp, hlast]
        simp [hcomp]

theorem missesIssuer_eq_false (h : missesIssuer u row = false) {source : PassportCells}
    (hs : source ∈ row.sources) (husable : supported u source)
    (hempty : source.issuedBy.stripped = []) :
    ∃ other ∈ row.sources, supported u other ∧ other.issuedBy.stripped ≠ [] := by
  simp only [missesIssuer, Bool.and_eq_false_iff, Bool.not_eq_false', List.any_eq_true,
    List.any_eq_false, List.mem_filter, decide_eq_true_eq] at h
  rcases h with h | ⟨other, ⟨hmem, hother⟩, hissuer⟩
  · exact absurd hempty (h source ⟨hs, husable⟩)
  · exact ⟨other, hmem, hother, hissuer⟩

theorem issuerOf_own (h : source.issuedBy.stripped ≠ []) :
    issuerOf u apps source = (source.issuedBy.stripped, isoDate u source.date, false) := by
  rw [issuerOf_eq, if_neg h]

theorem issuerOf_peer (h : source.issuedBy.stripped = [])
    (hpeer : newestPeer u apps (normalizeNumber u source.number) = some peer) :
    issuerOf u apps source = (peer.passport.issuedBy.stripped,
      (isoDate u source.date).or (isoDate u peer.passport.date), true) := by
  rw [issuerOf_eq, if_pos h, hpeer]

theorem issuerOf_noPeer (h : source.issuedBy.stripped = [])
    (hpeer : newestPeer u apps (normalizeNumber u source.number) = none) :
    issuerOf u apps source = ([], isoDate u source.date, false) := by
  rw [issuerOf_eq, if_pos h, hpeer]

theorem completes_of_issuer (hn : parseDocNumber u source.number = some n)
    (h : issuerOf u apps source = (issuer, date, used)) :
    completes u apps source = (decide (issuer ≠ []) && date.isSome) := by
  simp [completes, supported, hn, h]

theorem exists_docFields (vdate : Text) (hn : parseDocNumber u source.number = some n)
    (hover : ¬OverdueAt u apps source) (h : issuerOf u apps source = (issuer, date, used)) :
    ∃ doc, docFields vdate n issuer date = .ok doc := by
  refine docFields_isOk fun hdate => hover ⟨n, hn, ?_⟩
  rw [h]
  exact hdate

theorem buildDoc_same_snap (hno : ¬Raises u [] row) (hno' : ¬Raises u apps row)
    (hsnap : parseDocNumber u row.snap.number = some nsnap)
    (huser : parseDocNumber u row.user.number = some nuser)
    (hempty : row.snap.issuedBy.stripped = []) (hissuer : row.user.issuedBy.stripped ≠ []) :
    buildDoc u row vdate [] = buildDoc u row vdate apps ↔
      ∀ peer, newestPeer u apps (normalizeNumber u row.snap.number) = some peer →
        isoDate u row.snap.date = none ∧ isoDate u peer.passport.date = none ∧
          (isoDate u row.user.date).isSome := by
  obtain ⟨hsnap₀, huser₀⟩ := not_or.mp hno
  obtain ⟨hsnap₁, -⟩ := not_or.mp hno'
  have iuser (a : List Peer) : issuerOf u a row.user =
      (row.user.issuedBy.stripped, isoDate u row.user.date, false) := issuerOf_own hissuer
  have isnap := issuerOf_nil u row.snap
  have hcomp := completes_of_issuer hsnap isnap
  rw [hempty] at isnap hcomp
  have huser₀ : ¬OverdueAt u [] row.user := fun h => huser₀ ⟨by
    rw [← completes_iff, hcomp]
    exact Bool.false_ne_true, h⟩
  obtain ⟨doc, hdoc⟩ := exists_docFields vdate hsnap hsnap₀ isnap
  obtain ⟨doc', hdoc'⟩ := exists_docFields vdate huser huser₀ (iuser [])
  cases hpeer : newestPeer u apps (normalizeNumber u row.snap.number) with
  | none =>
    refine iff_of_true (buildDocFrom_congr ?_) fun _ h => by cases h
    intro source hs _
    simp only [Row.sources, List.mem_cons, List.not_mem_nil, or_false] at hs
    rcases hs with rfl | rfl
    · rw [isnap, issuerOf_noPeer hempty hpeer]
    · rw [iuser, iuser]
  | some peer =>
    have ipeer := issuerOf_peer hempty hpeer
    have hcomp' := completes_of_issuer hsnap ipeer
    simp only [newestPeer_issuer hpeer, ne_eq, not_false_eq_true, decide_true,
      Bool.true_and] at hcomp'
    obtain ⟨docp, hdocp⟩ := exists_docFields vdate hsnap hsnap₁ ipeer
    -- the snapshot's document has an issuer only with the peers
    have hne : doc ≠ docp := by
      rintro rfl
      have hwho := (docFields_eq_ok hdoc).2.2.1
      rw [(docFields_eq_ok hdocp).2.2.1, if_neg (newestPeer_issuer hpeer)] at hwho
      cases hwho
    rw [buildDoc_two hsnap huser, buildDoc_two hsnap huser, isnap, ipeer, iuser, iuser]
    simp only [hdoc, hdocp, hdoc', Except.ok_bind, hcomp, hcomp',
      completes_of_issuer huser (iuser _),
      hissuer, Option.some.injEq, forall_eq', ne_eq, not_false_eq_true, decide_true, decide_false,
      not_true_eq_false, Bool.true_and, Bool.false_and, Bool.false_eq_true, if_false]
    cases isoDate u row.snap.date with
    | some day => cases isoDate u row.user.date <;> simp
    | none =>
      cases isoDate u peer.passport.date with
      | some day => cases isoDate u row.user.date <;> simp
      | none => cases isoDate u row.user.date <;> simp [hne]

/-- Two sources can be used and dated, and `users` has no issuer. -/
theorem buildDoc_same_user (hno : ¬Raises u [] row) (hno' : ¬Raises u apps row)
    (hsnap : parseDocNumber u row.snap.number = some nsnap)
    (huser : parseDocNumber u row.user.number = some nuser)
    (hissuer : row.snap.issuedBy.stripped ≠ []) (hempty : row.user.issuedBy.stripped = []) :
    buildDoc u row vdate [] = buildDoc u row vdate apps ↔
      ∀ peer, newestPeer u apps (normalizeNumber u row.user.number) = some peer →
        (isoDate u row.snap.date).isSome ∨
          isoDate u row.user.date = none ∧ isoDate u peer.passport.date = none := by
  obtain ⟨hsnap₀, huser₀⟩ := not_or.mp hno
  obtain ⟨-, huser₁⟩ := not_or.mp hno'
  have isnap (a : List Peer) : issuerOf u a row.snap =
      (row.snap.issuedBy.stripped, isoDate u row.snap.date, false) := issuerOf_own hissuer
  have iuser := issuerOf_nil u row.user
  rw [hempty] at iuser
  have hcomp (a : List Peer) := completes_of_issuer hsnap (isnap a)
  simp only [hissuer, ne_eq, not_false_eq_true, decide_true, Bool.true_and] at hcomp
  obtain ⟨doc, hdoc⟩ := exists_docFields vdate hsnap hsnap₀ (isnap [])
  cases hpeer : newestPeer u apps (normalizeNumber u row.user.number) with
  | none =>
    refine iff_of_true (buildDocFrom_congr ?_) fun _ h => by cases h
    intro source hs _
    simp only [Row.sources, List.mem_cons, List.not_mem_nil, or_false] at hs
    rcases hs with rfl | rfl
    · rw [isnap, isnap]
    · rw [iuser, issuerOf_noPeer hempty hpeer]
  | some peer =>
    have ipeer := issuerOf_peer hempty hpeer
    have hcomp' := completes_of_issuer huser ipeer
    simp only [newestPeer_issuer hpeer, ne_eq, not_false_eq_true, decide_true,
      Bool.true_and] at hcomp'
    rw [buildDoc_two hsnap huser, buildDoc_two hsnap huser, isnap, isnap, ipeer, iuser]
    simp only [hdoc, Except.ok_bind, hcomp, hcomp', completes_of_issuer huser iuser,
      Option.some.injEq, forall_eq', ne_eq, not_true_eq_false, decide_false, Bool.false_and,
      Bool.false_eq_true, if_false]
    cases hdate : isoDate u row.snap.date with
    | some day => simp
    | none =>
      have hincomplete (a : List Peer) : ¬Completable u a row.snap := by
        rw [← completes_iff, hcomp, hdate]
        exact Bool.false_ne_true
      obtain ⟨doc', hdoc'⟩ := exists_docFields vdate huser
        (fun h => huser₀ ⟨hincomplete [], h⟩) iuser
      obtain ⟨docp, hdocp⟩ := exists_docFields vdate huser
        (fun h => huser₁ ⟨hincomplete apps, h⟩) ipeer
      simp only [hdoc', hdocp, Except.ok_bind]
      cases isoDate u row.user.date <;> cases isoDate u peer.passport.date <;> simp

/-- Where the lookup leaves the client out, the peers make no difference exactly when
they do not make the document that is sent. -/
theorem buildDoc_same (hmiss : missesIssuer u row = false) (hno : ¬Raises u [] row)
    (hno' : ¬Raises u apps row) :
    buildDoc u row vdate [] = buildDoc u row vdate apps ↔ SameDocument u apps row := by
  by_cases hboth : supported u row.snap ∧ supported u row.user
  · obtain ⟨nsnap, hsnap⟩ := Option.isSome_iff_exists.mp hboth.1
    obtain ⟨nuser, huser⟩ := Option.isSome_iff_exists.mp hboth.2
    by_cases hs : row.snap.issuedBy.stripped = []
    · by_cases hu : row.user.issuedBy.stripped = []
      · obtain ⟨other, hmem, -, hissuer⟩ :=
          missesIssuer_eq_false hmiss (by simp [Row.sources]) hboth.1 hs
        simp only [Row.sources, List.mem_cons, List.not_mem_nil, or_false] at hmem
        rcases hmem with rfl | rfl
        · exact absurd hs hissuer
        · exact absurd hu hissuer
      · rw [buildDoc_same_snap hno hno' hsnap huser hs hu]
        simp [SameDocument, hboth, hs, hu]
    · by_cases hu : row.user.issuedBy.stripped = []
      · rw [buildDoc_same_user hno hno' hsnap huser hs hu]
        simp [SameDocument, hboth, hs, hu]
      · refine iff_of_true (buildDocFrom_congr ?_) ?_
        · intro source hmem _
          simp only [Row.sources, List.mem_cons, List.not_mem_nil, or_false] at hmem
          rcases hmem with rfl | rfl
          · rw [issuerOf_own hs, issuerOf_own hs]
          · rw [issuerOf_own hu, issuerOf_own hu]
        · simp [SameDocument, hs, hu]
  · refine iff_of_true (buildDocFrom_congr ?_) fun hs hu => absurd ⟨hs, hu⟩ hboth
    intro source hmem husable
    -- the only usable source has an issuer of its own
    have hown : source.issuedBy.stripped ≠ [] := by
      intro hempty
      obtain ⟨other, hmem', hother, hissuer⟩ := missesIssuer_eq_false hmiss hmem husable hempty
      simp only [Row.sources, List.mem_cons, List.not_mem_nil, or_false] at hmem hmem'
      rcases hmem with rfl | rfl <;> rcases hmem' with rfl | rfl
      · exact hissuer hempty
      · exact hboth ⟨husable, hother⟩
      · exact hboth ⟨hother, husable⟩
      · exact hissuer hempty
    rw [issuerOf_own hown, issuerOf_own hown]

/-- With a usable source, and none that raises, there is a document. -/
theorem buildDoc_isOk (vdate : Text) (hno : ¬Raises u apps row) (hs : source ∈ row.sources)
    (husable : supported u source) : ∃ made, buildDoc u row vdate apps = .ok made := by
  have hraise : ∀ e, buildDocFrom u vdate apps row.sources none false ≠ .error (.raise e) :=
    fun e he => hno (buildDoc_eq_raise.mp he).2
  obtain ⟨hfirst, hrest⟩ := buildDocFrom_spec hraise
  cases hfind : row.sources.find? (completes u apps) with
  | some first =>
    obtain ⟨doc, hdoc, -⟩ := hfirst first hfind
    exact ⟨_, hdoc⟩
  | none =>
    obtain ⟨first, hsup⟩ :=
      Option.isSome_iff_exists.mp (List.find?_isSome.mpr ⟨source, hs, husable⟩)
    obtain ⟨doc, hdoc, -⟩ := (hrest hfind).2.1 rfl first hsup
    exact ⟨_, hdoc⟩

theorem Raises.usable (h : Raises u apps row) : ∃ source ∈ row.sources, supported u source := by
  have hsup {source : PassportCells} (h : OverdueAt u apps source) : supported u source := by
    obtain ⟨n, hn, -⟩ := h
    simp [supported, hn]
  rcases h with h | ⟨-, h⟩
  · exact ⟨row.snap, by simp [Row.sources], hsup h⟩
  · exact ⟨row.user, by simp [Row.sources], hsup h⟩

theorem beforeDoc_newest (h : beforeDoc u rows line = .ok (inn, deals, newest, vdate)) :
    ∃ e ∈ rows.entries, e.2 = newest := by
  obtain ⟨inn', -, h⟩ := Except.bind_eq_ok.mp h
  obtain ⟨deals', -, h⟩ := Except.bind_eq_ok.mp h
  obtain ⟨dealRows, hrows, h⟩ := Except.bind_eq_ok.mp h
  obtain ⟨⟨⟩, -, h⟩ := Except.bind_eq_ok.mp h
  obtain ⟨newest', hnewest, h⟩ := Except.bind_eq_ok.mp h
  obtain ⟨⟨⟩, -, h⟩ := Except.bind_eq_ok.mp h
  obtain ⟨vdate', -, h⟩ := Except.bind_eq_ok.mp h
  cases h
  obtain ⟨deal, -, hdeal⟩ :=
    (Except.mapM_eq_ok.mp hrows).exists_left (newestRow_eq_ok hnewest).1
  exact ⟨⟨_, newest⟩, AList.mem_lookup_iff.mp (dealRow_eq_ok.mp hdeal).2, rfl⟩

-- ---------------------------------------------------------------------------
-- Lines
-- ---------------------------------------------------------------------------

/-- A line that gets to its document does not show whether the peers were there: both
ways raise, or make the same document, or the line fails later in any case. -/
def PeersIdle (u : Ucd) (line : Fields) (inn : Text) (newest : Row) (apps : List Peer) : Prop :=
  (Raises u [] newest ∧ Raises u apps newest) ∨
  (¬Raises u [] newest ∧ ¬Raises u apps newest ∧ SameDocument u apps newest) ∨
  ∃ halt, afterDoc u line inn newest = .error halt ∧
    ((Raises u [] newest ↔ Raises u apps newest) ∨ halt = .raise .valueError)

theorem peersIdle_iff (hmiss : missesIssuer u newest = false) :
    ((buildDoc u newest vdate [] >>= fun (doc, stats) => afterDoc u line inn newest >>= fun p =>
        .ok (subjectOf u config line inn deals newest vdate doc p, stats)) =
      buildDoc u newest vdate apps >>= fun (doc, stats) => afterDoc u line inn newest >>= fun p =>
        .ok (subjectOf u config line inn deals newest vdate doc p, stats)) ↔
      PeersIdle u line inn newest apps := by
  have hraise {a : List Peer} (h : Raises u a newest) :
      buildDoc u newest vdate a = .error (.raise .valueError) := buildDoc_eq_raise.mpr ⟨rfl, h⟩
  -- one way raises: the other shows it, unless it raises the same later
  have hone (made : Doc × DocStats) :
      ((Except.error (.raise .valueError) : Except Halt (Subject × DocStats)) =
        afterDoc u line inn newest >>= fun p =>
          .ok (subjectOf u config line inn deals newest vdate made.1 p, made.2)) ↔
      ∃ halt, afterDoc u line inn newest = .error halt ∧ halt = .raise .valueError := by
    cases hafter : afterDoc u line inn newest with
    | error halt => simp [eq_comm]
    | ok p => simp
  by_cases h₀ : Raises u [] newest <;> by_cases h₁ : Raises u apps newest
  · rw [hraise h₀, hraise h₁]
    exact iff_of_true rfl (.inl ⟨h₀, h₁⟩)
  · obtain ⟨source, hs, husable⟩ := h₀.usable
    obtain ⟨made, hmade⟩ := buildDoc_isOk vdate h₁ hs husable
    rw [hraise h₀, hmade]
    simp only [Except.error_bind, Except.ok_bind, hone, PeersIdle, h₀, h₁]
    simp
  · obtain ⟨source, hs, husable⟩ := h₁.usable
    obtain ⟨made, hmade⟩ := buildDoc_isOk vdate h₀ hs husable
    rw [hraise h₁, hmade]
    simp only [Except.error_bind, Except.ok_bind, eq_comm, hone, PeersIdle, h₀, h₁]
    simp
  · by_cases hsame : SameDocument u apps newest
    · rw [(buildDoc_same hmiss h₀ h₁).mpr hsame]
      exact iff_of_true rfl (.inr (.inl ⟨h₀, h₁, hsame⟩))
    · have hsup : supported u newest.snap := by
        by_contra hno
        exact hsame fun h => absurd h hno
      obtain ⟨made, hmade⟩ := buildDoc_isOk vdate h₀ (by simp [Row.sources]) hsup
      obtain ⟨made', hmade'⟩ := buildDoc_isOk vdate h₁ (by simp [Row.sources]) hsup
      have hne : made ≠ made' := by
        rintro rfl
        exact hsame ((buildDoc_same hmiss h₀ h₁).mp (hmade.trans hmade'.symm))
      rw [hmade, hmade']
      simp only [Except.ok_bind, PeersIdle, h₀, h₁, hsame]
      cases hafter : afterDoc u line inn newest with
      | error halt => simp
      | ok p =>
        refine iff_of_false (fun h => hne ?_) (by simp)
        simp only [Except.ok_bind, Except.ok.injEq, Prod.mk.injEq] at h
        exact Prod.ext (congrArg Subject.doc h.1) h.2

/-- Whether a line comes out the same with only the peers that the lookup fetches. -/
theorem enrichLine_scope (u : Ucd) (config : Config) (rows : Rows) (peers : Peers) (line : Fields)
    (need : List Cell) (hneed : clientsMissingIssuer u rows = .ok need) :
    enrichLine u config rows (peers.only need) line = enrichLine u config rows peers line ↔
      ∀ inn deals newest vdate, beforeDoc u rows line = .ok (inn, deals, newest, vdate) →
        newest.userId ∉ need → PeersIdle u line inn newest (peers newest.userId) := by
  rw [enrichLine_eq, enrichLine_eq]
  cases hbefore : beforeDoc u rows line with
  | error halt => simp
  | ok made =>
    obtain ⟨inn, deals, newest, vdate⟩ := made
    simp only [Except.ok_bind]
    by_cases hin : newest.userId ∈ need
    · have honly : peers.only need newest.userId = peers newest.userId := if_pos hin
      rw [honly]
      refine iff_of_true rfl ?_
      intro _ _ _ _ h hout
      cases h
      exact absurd hin hout
    · have honly : peers.only need newest.userId = [] := if_neg hin
      obtain ⟨e, he, rfl⟩ := beforeDoc_newest hbefore
      have hmiss : missesIssuer u e.2 = false := by
        rw [← Bool.not_eq_true]
        exact fun h => hin ((mem_clientsMissingIssuer hneed).mpr ⟨e, he, h, rfl⟩)
      rw [honly, peersIdle_iff hmiss]
      constructor
      · intro h _ _ _ _ h' _
        cases h'
        exact h
      · exact fun h => h _ _ _ _ rfl hin

theorem enrichLine_scope_forgetful :
    enrichLine .ascii {} (AList.singleton (Text.lit "5") forgetfulRow)
        (Peers.only (fun _ => [forgetfulPeer]) [.int 7]) forgetfulLine =
      enrichLine .ascii {} (AList.singleton (Text.lit "5") forgetfulRow)
        (fun _ => [forgetfulPeer]) forgetfulLine := by
  refine (enrichLine_scope _ _ _ _ _ [.int 7] rfl).mpr fun inn deals newest vdate h hout => ?_
  obtain ⟨e, he, rfl⟩ := beforeDoc_newest h
  cases List.mem_singleton.mp he
  exact absurd List.mem_cons_self hout

/-- The issuer is in one source and a usable number without issuer in the other. -/
def dividedRow : Row :=
  { forgetfulRow with
    user := ⟨.str (Text.lit "CD654321"), .null, .str (Text.lit "Office")⟩ }

/-- The client is not looked up, though a peer would have made the document complete. -/
theorem enrichLine_scope_divided :
    clientsMissingIssuer .ascii (AList.singleton (Text.lit "5") dividedRow) = .ok [] ∧
    (∃ r, enrichLine .ascii {} (AList.singleton (Text.lit "5") dividedRow)
        (Peers.only (fun _ => [forgetfulPeer]) []) forgetfulLine = .ok r ∧ r.2.docIncomplete) ∧
    ∃ r, enrichLine .ascii {} (AList.singleton (Text.lit "5") dividedRow)
        (fun _ => [forgetfulPeer]) forgetfulLine = .ok r ∧ r.2.issuerFromPeer :=
  ⟨rfl, ⟨_, rfl, rfl⟩, _, rfl, rfl⟩

end UbkiUploader
