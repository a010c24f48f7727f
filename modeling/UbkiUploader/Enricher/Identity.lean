import UbkiUploader.Enricher.Line

/-!
# Whose credit history a subject is

What each stage of `enrich_line` returned when a subject came out, and from it that
everything in the subject is about one client: the one whose social number the line
carries.
-/

namespace UbkiUploader

variable {u : Ucd} {config : Config} {rows : Rows} {peers : Peers} {line : Fields}

-- ---------------------------------------------------------------------------
-- The stages
-- ---------------------------------------------------------------------------

/-- What the stages of `enrich_line` return. -/
structure Stages where
  inn : Text
  deals : List Json
  dealRows : List Row
  newest : Row
  vdate : Text
  doc : Doc
  stats : DocStats
  phone : Text
  lname : Text
  fname : Text
  bdate : Text
  csex : Option Text

structure Stages.Ran (u : Ucd) (rows : Rows) (peers : Peers) (line : Fields) (s : Stages) :
    Prop where
  inn : lineInn u line = .ok s.inn
  deals : lineDeals line = .ok s.deals
  dealRows : List.Forall₂ (fun deal row => dealRow u rows deal = .ok row) s.deals s.dealRows
  oneClient : oneClient s.dealRows = .ok ()
  newest : newestRow s.dealRows = .ok s.newest
  verified : verifyInn s.inn s.newest = .ok ()
  vdate : rowVdate u s.newest = .ok s.vdate
  doc : buildDoc u s.newest s.vdate (peers s.newest.userId) = .ok (s.doc, s.stats)
  phone : rowPhone u s.newest = .ok s.phone
  names : lineNames u line = .ok (s.lname, s.fname, s.bdate)
  bdate : checkBdate u s.inn s.bdate = .ok ()
  csex : innSex u s.inn = .ok s.csex

def Stages.subject (u : Ucd) (config : Config) (line : Fields) (s : Stages) : Subject where
  reqlng := Json.textOr u line (Text.lit "reqlng") (Text.lit "1")
  inn := s.inn
  personId := s.newest.userId.toText
  lname := s.lname
  fname := s.fname
  mname := lineText u line "mname"
  bdate := s.bdate
  ident :=
    { vdate := s.vdate, inn := s.inn, lname := s.lname, fname := s.fname,
      mname := lineText u line "mname", bdate := s.bdate, csex := s.csex }
  doc := s.doc
  addr := buildAddr s.newest s.vdate
  deals := s.deals.map (outDeal config)
  contact := { vdate := s.vdate, cval := s.phone }

theorem enrichLine_eq_ok : enrichLine u config rows peers line = .ok (subject, stats) ↔
    ∃ s : Stages, s.Ran u rows peers line ∧ subject = s.subject u config line ∧
    stats = s.stats := by
  constructor
  · intro h
    obtain ⟨inn, hinn, h⟩ := Except.bind_eq_ok.mp h
    obtain ⟨deals, hdeals, h⟩ := Except.bind_eq_ok.mp h
    obtain ⟨dealRows, hrows, h⟩ := Except.bind_eq_ok.mp h
    obtain ⟨⟨⟩, hone, h⟩ := Except.bind_eq_ok.mp h
    obtain ⟨newest, hnewest, h⟩ := Except.bind_eq_ok.mp h
    obtain ⟨⟨⟩, hverified, h⟩ := Except.bind_eq_ok.mp h
    obtain ⟨vdate, hvdate, h⟩ := Except.bind_eq_ok.mp h
    obtain ⟨⟨doc, docStats⟩, hdoc, h⟩ := Except.bind_eq_ok.mp h
    obtain ⟨phone, hphone, h⟩ := Except.bind_eq_ok.mp h
    obtain ⟨⟨lname, fname, bdate⟩, hnames, h⟩ := Except.bind_eq_ok.mp h
    obtain ⟨⟨⟩, hbdate, h⟩ := Except.bind_eq_ok.mp h
    obtain ⟨csex, hcsex, h⟩ := Except.bind_eq_ok.mp h
    cases h
    exact ⟨⟨inn, deals, dealRows, newest, vdate, doc, stats, phone, lname,
      fname, bdate, csex⟩,
      ⟨hinn, hdeals, Except.mapM_eq_ok.mp hrows, hone, hnewest, hverified, hvdate, hdoc, hphone,
        hnames, hbdate, hcsex⟩, rfl, rfl⟩
  · rintro ⟨s, h, rfl, rfl⟩
    simp only [enrichLine, h.inn, h.deals, Except.mapM_eq_ok.mpr h.dealRows, h.oneClient, h.newest,
      h.verified, h.vdate, h.doc, h.phone, h.names, h.bdate, h.csex, Except.ok_bind]
    rfl

-- ---------------------------------------------------------------------------
-- Clients
-- ---------------------------------------------------------------------------

theorem dealRow_eq_ok : dealRow u rows deal = .ok row ↔
    dealDlref u deal ≠ [] ∧ rows.lookup (dealDlref u deal) = some row := by
  unfold dealRow
  split
  · simp [*]
  · split <;> simp [*]

theorem oneClient_eq_ok : oneClient dealRows = .ok () ↔
    ∀ a ∈ dealRows, ∀ b ∈ dealRows, a.userId = b.userId := by
  have hall : (dealRows.map (·.userId)).dedup.length ≤ 1 ↔
      ∀ a ∈ dealRows, ∀ b ∈ dealRows, a.userId = b.userId := by
    rw [← List.toFinset_card_of_nodup (List.nodup_dedup _), Finset.card_le_one]
    simp only [List.mem_toFinset, List.mem_dedup, List.forall_mem_map]
  simp only [oneClient]
  split
  · rename_i hlen
    refine iff_of_false ?_ fun h => absurd (hall.mpr h) (by omega)
    split <;> exact fun h => by cases h
  · rename_i hlen
    exact iff_of_true rfl (hall.mp (by omega))

theorem newestRow_eq_ok (h : newestRow dealRows = .ok newest) :
    newest ∈ dealRows ∧ ∀ row ∈ dealRows,
    sortKey row.appliedAt ≤ sortKey newest.appliedAt := by
  unfold newestRow at h
  split at h
  · cases h
  · rename_i hmax
    cases h
    refine ⟨List.argmax_mem hmax, fun row hrow => ?_⟩
    exact List.le_of_mem_argmax (f := fun row : Row => sortKey row.appliedAt) hrow
      (by convert Option.mem_def.mpr hmax)

theorem verifyInn_eq_ok : verifyInn inn newest = .ok () ↔ newest.userInn.stripped = inn := by
  unfold verifyInn
  split
  · simp [*]
  · rename_i h
    refine iff_of_false ?_ h
    split <;> exact fun h => by cases h

-- ---------------------------------------------------------------------------
-- Documents
-- ---------------------------------------------------------------------------

structure DocOf (u : Ucd) (apps : List Peer) (source : PassportCells) (doc : Doc) : Prop where
  number : doc.dser ++ doc.dnom = normalizeNumber u source.number
  dwho : ∀ who, doc.dwho = some who → who = source.issuedBy.stripped ∨
    ∃ peer ∈ apps, normalizeNumber u peer.passport.number = normalizeNumber u source.number ∧
      who = peer.passport.issuedBy.stripped
  dwdt : ∀ day, doc.dwdt = some day → isoDate u source.date = some day ∨
    ∃ peer ∈ apps, normalizeNumber u peer.passport.number = normalizeNumber u source.number ∧
      isoDate u peer.passport.date = some day

theorem parseDocNumber_number (h : parseDocNumber u value = some parsed) :
    parsed.dser ++ parsed.dnom = normalizeNumber u value := by
  simp only [parseDocNumber] at h
  split at h
  · cases h
  · split at h
    · cases h
      rfl
    · split at h
      · cases h
        exact List.take_append_drop 2 _
      · cases h

theorem docFields_eq_ok (h : docFields vdate n issuedBy issuedAt = .ok doc) :
    doc.toDocNumber = n ∧ doc.vdate = vdate ∧
    doc.dwho = (if issuedBy = [] then none else some issuedBy) ∧ doc.dwdt = issuedAt := by
  simp only [docFields] at h
  split at h
  · cases h
    exact ⟨rfl, rfl, rfl, rfl⟩
  · split at h
    · obtain ⟨dterm, -, h⟩ := Except.bind_eq_ok.mp h
      cases h
      exact ⟨rfl, rfl, rfl, rfl⟩
    · cases h
      exact ⟨rfl, rfl, rfl, rfl⟩

theorem findPeerDocument_eq_some (h : findPeerDocument u apps number = some found) :
    ∃ peer ∈ apps, normalizeNumber u peer.passport.number = number ∧
      found.issuer = peer.passport.issuedBy.stripped ∧
      found.issuedAt = isoDate u peer.passport.date := by
  obtain ⟨peer, hpeer, rfl⟩ := Option.map_eq_some_iff.mp h
  obtain ⟨hmem, hmatch⟩ := List.mem_filter.mp (List.argmax_mem hpeer)
  simp only [Bool.and_eq_true, decide_eq_true_eq] at hmatch
  exact ⟨peer, hmem, hmatch.1, rfl, rfl⟩

/-- Issuer and date come from the source, or from a peer with the source's number. -/
theorem docOf_docFields {apps : List Peer} {source : PassportCells}
    (hparsed : parseDocNumber u (.str (normalizeNumber u source.number)) = some parsed)
    (hissuer : docIssuer u apps source (normalizeNumber u source.number) =
      (issuedBy, issuedAt, used))
    (h : docFields vdate parsed issuedBy issuedAt = .ok doc) : DocOf u apps source doc := by
  obtain ⟨hn, -, hwho, hdate⟩ := docFields_eq_ok h
  have hnumber := parseDocNumber_number hparsed
  rw [normalizeNumber_idem, ← hn] at hnumber
  have hown {who : Text} (hw : issuedBy = source.issuedBy.stripped) (h : doc.dwho = some who) :
      who = source.issuedBy.stripped := by
    rw [hwho] at h
    split at h
    · cases h
    · rw [← hw]
      exact (Option.some.inj h).symm
  unfold docIssuer at hissuer
  simp only at hissuer
  split at hissuer
  · split at hissuer
    · rename_i found hfound
      obtain ⟨peer, hmem, hsame, hpwho, hpdate⟩ := findPeerDocument_eq_some hfound
      cases hissuer
      refine ⟨hnumber, fun who h => .inr ⟨peer, hmem, hsame, ?_⟩, fun day h => ?_⟩
      · rw [hwho] at h
        split at h
        · cases h
        · rw [← hpwho]
          exact (Option.some.inj h).symm
      · rw [hdate, Option.or_eq_some_iff] at h
        rcases h with h | ⟨-, h⟩
        · exact .inl h
        · exact .inr ⟨peer, hmem, hsame, hpdate ▸ h⟩
    · cases hissuer
      exact ⟨hnumber, fun who h => .inl (hown rfl h), fun day h => .inl (hdate ▸ h)⟩
  · cases hissuer
    exact ⟨hnumber, fun who h => .inl (hown rfl h), fun day h => .inl (hdate ▸ h)⟩

/-- What holds of the document of every source that is tried holds of the one that is
returned. -/
theorem buildDocFrom_forall {P : Doc → Prop} {apps : List Peer} {sources : List PassportCells}
    (hP : ∀ source ∈ sources, ∀ n doc,
      parseDocNumber u (.str (normalizeNumber u source.number)) = some n →
      docFields vdate n (docIssuer u apps source (normalizeNumber u source.number)).1
        (docIssuer u apps source (normalizeNumber u source.number)).2.1 = .ok doc → P doc)
    (hinc : ∀ doc, incomplete = some doc → P doc)
    (h : buildDocFrom u vdate apps sources incomplete saw = .ok (doc, stats)) : P doc := by
  induction sources generalizing incomplete saw with
  | nil =>
    cases incomplete with
    | none => cases saw <;> cases h
    | some doc' =>
      cases h
      exact hinc _ rfl
  | cons source sources ih =>
    rw [List.forall_mem_cons] at hP
    simp only [buildDocFrom] at h
    split at h
    · exact ih hP.2 hinc h
    · split at h
      · exact ih hP.2 hinc h
      · rename_i parsed hparsed
        obtain ⟨doc', hfields, h⟩ := Except.bind_eq_ok.mp h
        have hdoc : P doc' := hP.1 parsed doc' hparsed hfields
        split at h
        · cases h
          exact hdoc
        · refine ih hP.2 (fun d hd => ?_) h
          rw [Option.or_eq_some_iff] at hd
          rcases hd with hd | ⟨-, hd⟩
          · exact hinc d hd
          · cases hd
            exact hdoc

theorem buildDoc_eq_ok {apps : List Peer} (h : buildDoc u row vdate apps = .ok (doc, stats)) :
    ∃ s ∈ row.sources, DocOf u apps s doc := by
  refine buildDocFrom_forall (P := fun doc => ∃ s ∈ row.sources, DocOf u apps s doc) ?_
    (fun _ h => by cases h) h
  intro source hsource n doc hparsed hfields
  exact ⟨source, hsource, docOf_docFields hparsed rfl hfields⟩

-- ---------------------------------------------------------------------------
-- The subject
-- ---------------------------------------------------------------------------

theorem lineInn_eq_ok (h : lineInn u line = .ok inn) : lineText u line "inn" = inn := by
  unfold lineInn at h
  split at h
  · cases h
  · exact Except.ok.inj h

theorem lineDeals_eq_ok (h : lineDeals line = .ok deals) :
    line.lookup (Text.lit "deals") = some (.arr deals) ∧ deals ≠ [] := by
  unfold lineDeals at h
  split at h
  · cases h
    exact ⟨‹_›, List.cons_ne_nil _ _⟩
  · cases h

theorem rowPhone_eq_ok (h : rowPhone u newest = .ok phone) :
    (normalizePhone u newest.snapPhone).or (normalizePhone u newest.userPhone) = some phone := by
  unfold rowPhone at h
  split at h
  · cases h
  · cases h
    assumption

theorem lineNames_eq_ok (h : lineNames u line = .ok (lname, fname, bdate)) :
    lineText u line "lname" = lname ∧ lineText u line "fname" = fname ∧
      lineText u line "bdate" = bdate := by
  simp only [lineNames] at h
  split at h
  · cases h
    exact ⟨rfl, rfl, rfl⟩
  · cases h

theorem innBirthday_of_decimals (h : u.decimals 10 inn) :
    ∃ days day, u.int? (inn.take 5) = some days ∧ epoch.addDays days = some day ∧
      innBirthday u inn = some day.isoformat := by
  have hid : isTaxId u inn := by
    have hdigit := u.isdigit_of_decimals h
    simp only [Ucd.decimals, Bool.and_eq_true, decide_eq_true_eq] at h
    simp [isTaxId, hdigit, h.1]
  simp only [Ucd.decimals, Bool.and_eq_true, decide_eq_true_eq, List.all_eq_true] at h
  obtain ⟨days, hdays⟩ := Option.isSome_iff_exists.mp
    (u.int?_isSome.mpr fun c hc => h.2 c (List.mem_of_mem_take hc))
  have hlt : days < 10 ^ (inn.take 5).length := u.int?_lt hdays
  rw [List.length_take, h.1] at hlt
  have hfirst : Calendar.daysBeforeMonth epoch.year epoch.month = 334 := by decide
  have hsmall : Calendar.daysBeforeMonth epoch.year epoch.month + epoch.day + days ≤
      365 * (10000 - epoch.year) := by
    rw [hfirst]
    simp only [epoch]
    norm_num at hlt
    omega
  obtain ⟨day, hday⟩ := Option.isSome_iff_exists.mp (epoch.addDays_isSome hsmall)
  exact ⟨days, day, hdays, hday, by simp [innBirthday, hid, hdays, hday]⟩

theorem checkBdate_eq_ok (h : checkBdate u inn bdate = .ok ())
    (hbirth : innBirthday u inn = some expected) (hiso : u.isIsoDay (bdate.take 10)) :
    bdate.take 10 = expected := by
  simp only [checkBdate, hbirth, hiso, true_and, ite_not] at h
  split at h
  · assumption
  · cases h

/-- A subject about one client, the owner of `newest`. -/
structure Subject.About (u : Ucd) (rows : Rows) (peers : Peers) (line : Fields)
    (subject : Subject) (newest : Row) : Prop where
  inn : subject.inn = lineText u line "inn" ∧ subject.ident.inn = subject.inn
  client : newest.userInn.stripped = subject.inn ∧ subject.personId = newest.userId.toText
  deals : ∃ deals, line.lookup (Text.lit "deals") = some (.arr deals) ∧
    (∀ deal ∈ deals, ∃ row, rows.lookup (dealDlref u deal) = some row ∧
      row.userId = newest.userId ∧ row.userInn.stripped = subject.inn ∧
      sortKey row.appliedAt ≤ sortKey newest.appliedAt) ∧
    ∃ deal ∈ deals, rows.lookup (dealDlref u deal) = some newest
  phone : (normalizePhone u newest.snapPhone).or (normalizePhone u newest.userPhone) =
    some subject.contact.cval
  addr : subject.addr = buildAddr newest subject.ident.vdate
  doc : ∃ source ∈ newest.sources, DocOf u (peers newest.userId) source subject.doc
  bdate : subject.ident.bdate = subject.bdate ∧
    (u.decimals 10 subject.inn → u.isIsoDay (subject.bdate.take 10) →
      ∃ days day, u.int? (subject.inn.take 5) = some days ∧ epoch.addDays days = some day ∧
        subject.bdate.take 10 = day.isoformat)

/-- Never someone else's credit history: rows of one client agree on its social
number, and then all that a subject says is about one client. -/
theorem enrichLine_about
    (hjoin : ∀ a ∈ rows.entries, ∀ b ∈ rows.entries, a.2.userId = b.2.userId →
      a.2.userInn = b.2.userInn)
    (h : enrichLine u config rows peers line = .ok (subject, stats)) :
    ∃ newest, subject.About u rows peers line newest := by
  obtain ⟨s, hs, rfl, -⟩ := enrichLine_eq_ok.mp h
  obtain ⟨hmem, hmax⟩ := newestRow_eq_ok hs.newest
  have hone := oneClient_eq_ok.mp hs.oneClient
  have hinn := verifyInn_eq_ok.mp hs.verified
  have hentry {deal : Json} {row : Row} (h : dealRow u rows deal = .ok row) :
      ⟨dealDlref u deal, row⟩ ∈ rows.entries :=
    AList.mem_lookup_iff.mp (dealRow_eq_ok.mp h).2
  obtain ⟨own, hown, hnewest⟩ := hs.dealRows.exists_left hmem
  refine ⟨s.newest, ?_, ⟨hinn, rfl⟩, ⟨s.deals, (lineDeals_eq_ok hs.deals).1, ?_, own, hown,
    (dealRow_eq_ok.mp hnewest).2⟩, rowPhone_eq_ok hs.phone, rfl, buildDoc_eq_ok hs.doc, rfl, ?_⟩
  · exact ⟨(lineInn_eq_ok hs.inn).symm, rfl⟩
  · intro deal hdeal
    obtain ⟨row, hmem', hrow⟩ := hs.dealRows.exists_right hdeal
    have huser := hone row hmem' _ hmem
    refine ⟨row, (dealRow_eq_ok.mp hrow).2, huser, ?_, hmax row hmem'⟩
    rw [hjoin _ (hentry hrow) _ (hentry hnewest) huser]
    exact hinn
  · intro hten hiso
    obtain ⟨days, day, hdays, hday, hbirth⟩ := innBirthday_of_decimals hten
    exact ⟨days, day, hdays, hday, checkBdate_eq_ok hs.bdate hbirth hiso⟩

/-- A client whose application states no issuer, but who stated it before. -/
def forgetfulRow : Row where
  userId := .int 7
  appliedAt := .str (Text.lit "2026-08-14")
  snap := ⟨.str (Text.lit "ab 123456"), .null, .null⟩
  user := ⟨.null, .null, .null⟩
  snapPhone := .str (Text.lit "0501234567")
  userPhone := .null
  userInn := .int 3000000011
  addrPostcode := .null
  addrCity := .null
  addrStreet := .null
  addrHouse := .null
  addrBuilding := .null
  addrFlat := .null

def forgetfulPeer : Peer where
  passport :=
  ⟨.str (Text.lit "AB123456"), .str (Text.lit "2001-02-03"), .str (Text.lit "Office")⟩
  appliedAt := .str (Text.lit "2019-01-01")

def forgetfulLine : Fields :=
  [(Text.lit "inn", .str (Text.lit "3000000011")), (Text.lit "lname", .str (Text.lit "A")),
    (Text.lit "fname", .str (Text.lit "B")), (Text.lit "bdate", .str (Text.lit "1982-02-19")),
    (Text.lit "deals", .arr [.obj [(Text.lit "dlref", .int 5)]])]

theorem enrichLine_about_forgetful :
    ∃ r, enrichLine .ascii {} (AList.singleton (Text.lit "5") forgetfulRow)
        (fun _ => [forgetfulPeer]) forgetfulLine = .ok r ∧ r.2.issuerFromPeer ∧
      ∃ newest, r.1.About .ascii (AList.singleton (Text.lit "5") forgetfulRow)
        (fun _ => [forgetfulPeer]) forgetfulLine newest := by
  refine ⟨_, rfl, rfl, enrichLine_about ?_ rfl⟩
  intro a ha b hb _
  cases List.mem_singleton.mp ha
  cases List.mem_singleton.mp hb
  rfl

end UbkiUploader
