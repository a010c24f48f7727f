import UbkiUploader.Enricher.Identity

/-!
# Which document is sent

`build_doc` tries the sources of a row in order and stops at the first that makes a
complete document, with the newest peer's help where the source states no issuer. The
loop is told here by what each source makes of itself.
-/

namespace UbkiUploader

variable {u : Ucd} {vdate : Text} {apps : List Peer} {source : PassportCells} {doc : Doc}

-- ---------------------------------------------------------------------------
-- One source
-- ---------------------------------------------------------------------------

def supported (u : Ucd) (source : PassportCells) : Bool := (parseDocNumber u source.number).isSome

/-- The newest of the peers that state an issuer for a number. -/
def newestPeer (u : Ucd) (apps : List Peer) (number : Text) : Option Peer :=
  (peerCandidates u apps number).argmax fun peer => sortKey peer.appliedAt

/-- The issuer and the issue date for a source, and whether a peer was used. -/
def issuerOf (u : Ucd) (apps : List Peer) (source : PassportCells) : Text × Option Text × Bool :=
  docIssuer u apps source (normalizeNumber u source.number)

def completes (u : Ucd) (apps : List Peer) (source : PassportCells) : Bool :=
  supported u source && (issuerOf u apps source).1 ≠ [] && (issuerOf u apps source).2.1.isSome

/-- A complete document can be made of a source: it has an issuer and an issue date of
its own, or the newest peer for its number has the issuer and one of them the date. -/
def Completable (u : Ucd) (apps : List Peer) (source : PassportCells) : Prop :=
  supported u source ∧
  ((source.issuedBy.stripped ≠ [] ∧ (isoDate u source.date).isSome) ∨
    (source.issuedBy.stripped = [] ∧
      ∃ peer, newestPeer u apps (normalizeNumber u source.number) = some peer ∧
        ((isoDate u source.date).isSome ∨ (isoDate u peer.passport.date).isSome)))

structure TakenFrom (u : Ucd) (vdate : Text) (apps : List Peer) (source : PassportCells)
    (doc : Doc) : Prop where
  number : parseDocNumber u source.number = some doc.toDocNumber
  vdate : doc.vdate = vdate
  dwho : doc.dwho = if (issuerOf u apps source).1 =
    [] then none else some (issuerOf u apps source).1
  dwdt : doc.dwdt = (issuerOf u apps source).2.1

theorem newestPeer_issuer (h : newestPeer u apps number = some peer) :
    peer.passport.issuedBy.stripped ≠ [] := by
  have hmem := List.argmax_mem h
  simp only [peerCandidates, List.mem_filter, Bool.and_eq_true, decide_eq_true_eq] at hmem
  exact hmem.2.2

theorem issuerOf_eq (u : Ucd) (apps : List Peer) (source : PassportCells) :
    issuerOf u apps source =
      if source.issuedBy.stripped = [] then
        match newestPeer u apps (normalizeNumber u source.number) with
        | some peer => (peer.passport.issuedBy.stripped,
            (isoDate u source.date).or (isoDate u peer.passport.date), true)
        | none => ([], isoDate u source.date, false)
      else (source.issuedBy.stripped, isoDate u source.date, false) := by
  simp only [issuerOf, docIssuer, findPeerDocument]
  rw [← newestPeer]
  split
  · rename_i h
    rw [h]
    cases newestPeer u apps (normalizeNumber u source.number) <;> rfl
  · rfl

theorem completes_iff : completes u apps source ↔ Completable u apps source := by
  simp only [completes, Completable, Bool.and_eq_true, decide_eq_true_eq, and_assoc, ne_eq]
  refine and_congr_right fun _ => ?_
  rw [issuerOf_eq]
  split
  · rename_i hempty
    cases hpeer : newestPeer u apps (normalizeNumber u source.number) with
    | none => simp [hempty]
    | some peer => simp [hempty, newestPeer_issuer hpeer]
  · rename_i hown
    simp [hown]

theorem issuerOf_usesPeer (h : completes u apps source) :
    (issuerOf u apps source).2.2 = true ↔ source.issuedBy.stripped = [] := by
  have hissuer : (issuerOf u apps source).1 ≠ [] := by
    simp only [completes, Bool.and_eq_true, decide_eq_true_eq] at h
    exact h.1.2
  rw [issuerOf_eq] at hissuer ⊢
  split
  · rename_i hempty
    rw [if_pos hempty] at hissuer
    refine iff_of_true ?_ hempty
    split
    · rfl
    · rename_i hnone
      simp [hnone] at hissuer
  · rename_i hown
    exact iff_of_false Bool.false_ne_true hown

theorem TakenFrom.complete_iff (h : TakenFrom u vdate apps source doc) :
    (doc.dwho.isSome ∧ doc.dwdt.isSome) ↔ completes u apps source := by
  have hsupported : supported u source := by simp [supported, h.number]
  rw [h.dwho, h.dwdt]
  by_cases hempty : (issuerOf u apps source).1 = []
  · simp [completes, hempty]
  · simp [completes, hempty, hsupported]

theorem parseDocNumber_normalized :
    parseDocNumber u (.str (normalizeNumber u value)) = parseDocNumber u value := by
  simp only [parseDocNumber, normalizeNumber_idem]

theorem takenFrom_of_docFields (hn : parseDocNumber u source.number = some parsed)
    (h : docFields vdate parsed (issuerOf u apps source).1 (issuerOf u apps source).2.1 = .ok doc) :
    TakenFrom u vdate apps source doc := by
  obtain ⟨hnumber, hvdate, hdwho, hdwdt⟩ := docFields_eq_ok h
  exact ⟨hnumber ▸ hn, hvdate, hdwho, hdwdt⟩

/-- No date lies ten years after the day. -/
def Undated (day : Text) : Prop := (Calendar.fromisoformat day).bind (·.plusYears 10) = none

/-- An ID card issued on a day ten years after which Python's calendar has ended. -/
def Overdue (n : DocNumber) (issuedAt : Option Text) : Prop :=
  n.dtype = docTypeIdCard ∧ ∃ day, issuedAt = some day ∧ Undated day

theorem docFields_eq_error : docFields vdate n issuedBy issuedAt = .error halt ↔
    halt = .raise .valueError ∧ Overdue n issuedAt := by
  simp only [docFields, Overdue, plusYears, Undated]
  cases issuedAt with
  | none => simp
  | some day =>
    by_cases hcard : n.dtype = docTypeIdCard
    · cases hterm : (Calendar.fromisoformat day).bind (·.plusYears 10) with
      | none => simp [hcard, hterm, eq_comm]
      | some term =>
        refine iff_of_false (by simp [hcard, hterm]) ?_
        rintro ⟨-, -, day', hday, hno⟩
        cases hday
        cases hterm.symm.trans hno
    · simp [hcard]

-- ---------------------------------------------------------------------------
-- The loop
-- ---------------------------------------------------------------------------

theorem buildDocFrom_cons (incomplete : Option Doc) (saw : Bool) (sources : List PassportCells) :
    buildDocFrom u vdate apps (source :: sources) incomplete saw =
      match parseDocNumber u source.number with
      | none => buildDocFrom u vdate apps sources incomplete
          (saw || decide (normalizeNumber u source.number ≠ []))
      | some parsed =>
        docFields vdate parsed (issuerOf u apps source).1 (issuerOf u apps source).2.1 >>=
        fun doc =>
          if completes u apps source then
            .ok (doc, { issuerFromPeer := (issuerOf u apps source).2.2 })
          else buildDocFrom u vdate apps sources (incomplete.or (some doc)) true := by
  rw [buildDocFrom]
  simp only [parseDocNumber_normalized]
  by_cases hempty : normalizeNumber u source.number = []
  · have hnone : parseDocNumber u source.number = none := by simp [parseDocNumber, hempty]
    simp [hempty, hnone]
  · cases hparsed : parseDocNumber u source.number with
    | none => simp [hempty]
    | some parsed =>
      simp only [hempty, if_false, completes, supported, hparsed, Option.isSome_some, Bool.true_and,
        Bool.and_eq_true, decide_eq_true_eq]
      rfl

/-- The loop stops at the first source that makes a complete document; without one it
falls back to what it has kept, or to the first source it can use at all. -/
theorem buildDocFrom_spec {sources : List PassportCells} {incomplete : Option Doc} {saw : Bool}
    (hno : ∀ e, buildDocFrom u vdate apps sources incomplete saw ≠ .error (.raise e)) :
    (∀ source, sources.find? (completes u apps) = some source → ∃ doc,
      buildDocFrom u vdate apps sources incomplete saw =
        .ok (doc, { issuerFromPeer := (issuerOf u apps source).2.2 }) ∧
      TakenFrom u vdate apps source doc) ∧
    (sources.find? (completes u apps) = none →
      (∀ doc, incomplete = some doc →
        buildDocFrom u vdate apps sources incomplete saw = .ok (doc, { docIncomplete := true })) ∧
      (incomplete = none → ∀ source, sources.find? (supported u) = some source → ∃ doc,
        buildDocFrom u vdate apps sources incomplete saw = .ok (doc, { docIncomplete := true }) ∧
        TakenFrom u vdate apps source doc) ∧
      (incomplete = none → sources.find? (supported u) = none → ∃ reason,
        buildDocFrom u vdate apps sources incomplete saw = .error (.quarantine reason))) := by
  induction sources generalizing incomplete saw with
  | nil =>
    refine ⟨fun source h => (by cases h), fun _ => ⟨?_, ?_, ?_⟩⟩
    · rintro doc rfl
      rfl
    · exact fun _ source h => (by cases h)
    · rintro rfl -
      cases saw
      · exact ⟨_, rfl⟩
      · exact ⟨_, rfl⟩
  | cons source sources ih =>
    rw [buildDocFrom_cons] at hno ⊢
    cases hparsed : parseDocNumber u source.number with
    | none =>
      have hsup : supported u source = false := by simp [supported, hparsed]
      have hcomp : completes u apps source = false := by simp [completes, hsup]
      simp only [hparsed] at hno ⊢
      rw [List.find?_cons_of_neg (by simp [hcomp]), List.find?_cons_of_neg (by simp [hsup])]
      exact ih hno
    | some parsed =>
      have hsup : supported u source = true := by simp [supported, hparsed]
      simp only [hparsed] at hno ⊢
      cases hfields : docFields vdate parsed (issuerOf u apps source).1
          (issuerOf u apps source).2.1 with
      | error halt =>
        obtain ⟨rfl, -⟩ := docFields_eq_error.mp hfields
        rw [hfields] at hno
        exact absurd rfl (hno _)
      | ok doc =>
        have htaken : TakenFrom u vdate apps source doc := takenFrom_of_docFields hparsed hfields
        simp only [hfields, Except.ok_bind] at hno ⊢
        by_cases hcomp : completes u apps source
        · rw [List.find?_cons_of_pos hcomp, if_pos hcomp]
          refine ⟨fun source' h => ?_, fun h => by cases h⟩
          cases h
          exact ⟨doc, rfl, htaken⟩
        · rw [if_neg hcomp] at hno ⊢
          rw [List.find?_cons_of_neg hcomp, List.find?_cons_of_pos hsup]
          obtain ⟨hfirst, hrest⟩ := ih hno
          refine ⟨hfirst, fun hnone => ?_⟩
          obtain ⟨hkept, -, -⟩ := hrest hnone
          refine ⟨?_, ?_, fun _ h => by cases h⟩
          · rintro kept rfl
            exact hkept kept rfl
          · rintro rfl source' h
            cases h
            exact ⟨doc, hkept doc rfl, htaken⟩

/-- A complete document is sent whenever one can be made, of the snapshot if it can be
made of that, with the newest peer's help; else the first that can be made at all. -/
theorem buildDoc_complete (u : Ucd) (row : Row) (vdate : Text) (apps : List Peer)
    (hno : ∀ e, buildDoc u row vdate apps ≠ .error (.raise e)) :
    ((∃ source ∈ row.sources, Completable u apps source) → ∃ doc stats,
      buildDoc u row vdate apps = .ok (doc, stats) ∧ doc.dwho.isSome ∧ doc.dwdt.isSome ∧
        (Completable u apps row.snap → TakenFrom u vdate apps row.snap doc)) ∧
    ((∀ source ∈ row.sources, ¬Completable u apps source) →
      ∀ source, row.sources.find? (supported u) = some source → ∃ doc stats,
        buildDoc u row vdate apps = .ok (doc, stats) ∧ TakenFrom u vdate apps source doc) ∧
    ∀ doc stats, buildDoc u row vdate apps = .ok (doc, stats) →
      (stats.docIncomplete ↔ doc.dwho = none ∨ doc.dwdt = none) ∧
      (stats.issuerFromPeer ↔
        (Completable u apps row.snap ∧ row.snap.issuedBy.stripped = []) ∨
        (¬Completable u apps row.snap ∧ Completable u apps row.user ∧
          row.user.issuedBy.stripped = [])) := by
  obtain ⟨hfirst, hrest⟩ := buildDocFrom_spec hno
  simp only [← completes_iff]
  have hsome (source : PassportCells) (h : row.sources.find? (completes u apps) = some source) :
      completes u apps source := List.find?_some h
  refine ⟨fun hex => ?_, fun hnone source hsource => ?_, fun doc stats hdoc => ?_⟩
  · obtain ⟨source, hsource⟩ := Option.isSome_iff_exists.mp (List.find?_isSome.mpr hex)
    obtain ⟨doc, hdoc, htaken⟩ := hfirst source hsource
    obtain ⟨hwho, hdate⟩ := htaken.complete_iff.mpr (hsome source hsource)
    refine ⟨doc, _, hdoc, hwho, hdate, fun hsnap => ?_⟩
    rw [Row.sources, List.find?_cons_of_pos hsnap] at hsource
    cases hsource
    exact htaken
  · obtain ⟨-, hfallback, -⟩ := hrest (List.find?_eq_none.mpr hnone)
    obtain ⟨doc, hdoc, htaken⟩ := hfallback rfl source hsource
    exact ⟨doc, _, hdoc, htaken⟩
  · cases hfind : row.sources.find? (completes u apps) with
    | some source =>
      obtain ⟨doc', hdoc', htaken⟩ := hfirst source hfind
      cases hdoc'.symm.trans hdoc
      have hcomp := hsome source hfind
      obtain ⟨hwho, hdate⟩ := htaken.complete_iff.mpr hcomp
      refine ⟨?_, ?_⟩
      · refine iff_of_false Bool.false_ne_true ?_
        rintro (h | h)
        · simp [h] at hwho
        · simp [h] at hdate
      · rw [issuerOf_usesPeer hcomp]
        by_cases hsnap : completes u apps row.snap
        · rw [Row.sources, List.find?_cons_of_pos hsnap] at hfind
          cases hfind
          simp [hsnap]
        · rw [Row.sources, List.find?_cons_of_neg hsnap] at hfind
          have huser := List.mem_of_find?_eq_some hfind
          rw [List.mem_singleton] at huser
          subst huser
          simp [hsnap, hcomp]
    | none =>
      have hnot := List.find?_eq_none.mp hfind
      have hsnap := hnot row.snap (by simp [Row.sources])
      have huser := hnot row.user (by simp [Row.sources])
      obtain ⟨-, hfallback, hfail⟩ := hrest hfind
      cases hsup : row.sources.find? (supported u) with
      | none =>
        obtain ⟨reason, herr⟩ := hfail rfl hsup
        cases herr.symm.trans hdoc
      | some source =>
        obtain ⟨doc', hdoc', htaken⟩ := hfallback rfl source hsup
        cases hdoc'.symm.trans hdoc
        have hcomp := hnot source (List.mem_of_find?_eq_some hsup)
        rw [← htaken.complete_iff, not_and_or] at hcomp
        refine ⟨iff_of_true rfl ?_, iff_of_false Bool.false_ne_true ?_⟩
        · simpa using hcomp
        · simp [hsnap, huser]

theorem buildDoc_complete_forgetful :
    ∃ doc stats, buildDoc .ascii forgetfulRow (Text.lit "2026-08-14") [forgetfulPeer] =
      .ok (doc, stats) ∧ doc.dwho.isSome ∧ doc.dwdt.isSome := by
  obtain ⟨h, -⟩ := buildDoc_complete .ascii forgetfulRow (Text.lit "2026-08-14") [forgetfulPeer]
    (fun e h => by cases h)
  obtain ⟨doc, stats, hdoc, hwho, hdate, -⟩ := h ⟨forgetfulRow.snap, List.mem_cons_self,
    completes_iff.mp rfl⟩
  exact ⟨doc, stats, hdoc, hwho, hdate⟩

/-- The newest peer has no date; an older one has, but it is not asked. -/
theorem buildDoc_incomplete_newest :
    ∃ doc stats, buildDoc .ascii forgetfulRow (Text.lit "2026-08-14")
        [forgetfulPeer, { forgetfulPeer with
          passport := { forgetfulPeer.passport with date := .null }
          appliedAt := .str (Text.lit "2020-01-01") }] = .ok (doc, stats) ∧
      stats.docIncomplete ∧ doc.dwdt = none ∧
      normalizeNumber .ascii forgetfulPeer.passport.number =
        normalizeNumber .ascii forgetfulRow.snap.number ∧
      forgetfulPeer.passport.issuedBy.stripped ≠ [] ∧
      (isoDate .ascii forgetfulPeer.passport.date).isSome :=
  ⟨_, _, rfl, rfl, rfl, rfl, by decide, rfl⟩

end UbkiUploader
