import UbkiUploader.Enricher.Attempt
import UbkiUploader.Uploader.Progress

/-!
# A raw file that is processed again

Attempts to process a raw file, cut off anywhere or not, with passes of the uploader in
between. An attempt chooses between two names by what the inbox holds at that moment, so
the same data can come under both. The data that was left under a name stays left, in the
inbox or in the tables; `Clear` is what keeps an attempt from leaving it under the second.
-/

namespace UbkiUploader

inductive Turn
  /-- The raw file is processed, and cut off after so many effects or not at all. -/
  | process (now : Timestamp) (summary : EnrichSummary) (cut : Option Nat)
  | pass (s : Site) (sched : Schedule) (dryRun : Bool)
  | cutPass (s : Site) (sched : Schedule) (effects : Nat)
      (handled : Option (RunSummary × Text × Timestamp))
  /-- Raw files are put back, or taken away. -/
  | deliver (raw : Folder Text)

def EnrichEnv.site (env : EnrichEnv) (s : Site) : Site := { s with sha256 := env.sha256 }

def turn (env : EnrichEnv) (name : Text) (raw : ByteArray) (m : Mount) : Turn → Option Mount
  | .process now summary cut =>
    if m.raw.read name = some raw then
      some (attempt { env with utcnow := now } m name raw summary cut)
    else none
  | .pass s sched dryRun =>
    (deed m.host (.pass (env.site s) sched dryRun)).map fun host => { m with host }
  | .cutPass s sched effects handled =>
    (deed m.host (.cutPass (env.site s) sched effects handled)).map fun host => { m with host }
  | .deliver raw => some { m with raw }

/-- The data waits in the inbox under a name, or was ingested under it. -/
def LeftAs (env : EnrichEnv) (data : ByteArray) (m : Mount) (n : Text) : Prop :=
  m.host.intake.Left env.sha256 n (env.sha256 data)

/-- One of the two names that `_write_enriched` chooses from. -/
def OwnName (name sha n : Text) : Prop := n = name ∨ n = prefixedName name sha

def otherName (folder : Folder Text) (name sha : Text) (data : ByteArray) : Text :=
  if enrichedTarget folder name sha data = name then prefixedName name sha else name

/-- An attempt that puts its file in place does so where the data was not left under the
other name. -/
def Clear (env : EnrichEnv) (name : Text) (raw data : ByteArray) (numbered : List (Nat × Text))
    (m : Mount) : Turn → Prop
  | .process _ _ cut =>
    Writes env numbered → m.host.db.getEnrichedByIdentity name (env.sha256 raw) = none →
      (∀ n, cut = some n → 2 ≤ n) →
        ¬LeftAs env data m (otherName m.host.inbox name (env.sha256 raw) data)
  | _ => True

variable {env : EnrichEnv} {name : Text} {raw data : ByteArray} {numbered : List (Nat × Text)}
  {start m m' : Mount} {n : Text}

-- ---------------------------------------------------------------------------
-- What a turn comes to
-- ---------------------------------------------------------------------------

theorem writes_utcnow {now : Timestamp} :
    Writes { env with utcnow := now } numbered ↔ Writes env numbered := by
  constructor
  · rintro ⟨hne, hended⟩
    exact ⟨hne, fun summary => enrichAll_eq_none.mpr (enrichAll_eq_none.mp (hended summary) :)⟩
  · rintro ⟨hne, hended⟩
    exact ⟨hne, fun summary => enrichAll_eq_none.mpr (enrichAll_eq_none.mp (hended summary) :)⟩

theorem attempted_at (m : Mount) (now : Timestamp) (summary : EnrichSummary) (cut : Option Nat)
    (hread : readNumberedLines raw = some numbered)
    (hdata : encodeLines (enrichedOf env numbered) = some data) :
    Attempted env name raw data numbered m
      (attempt { env with utcnow := now } m name raw summary cut) cut := by
  have h : Attempted { env with utcnow := now } name raw data numbered m _ cut :=
    attempt_attempted m summary cut hread hdata
  obtain ⟨k, hwrote, hk⟩ := h.inbox
  exact ⟨h.db, ⟨k, hwrote, fun h2 => (hk h2).imp_left writes_utcnow.mp⟩,
    fun hw => h.placed (writes_utcnow.mpr hw), h.quarantine, h.row⟩

theorem turn_cases (hread : readNumberedLines raw = some numbered)
    (hdata : encodeLines (enrichedOf env numbered) = some data) (hl : Linked m.host.db)
    (h : turn env name raw m t = some m') :
    (∃ now summary cut, t = .process now summary cut ∧
      Attempted env name raw data numbered m m' cut) ∨
    ((∀ now summary cut, t ≠ .process now summary cut) ∧ m'.quarantine = m.quarantine ∧
      Uploaded env.sha256 m.host m'.host) := by
  cases t with
  | process now summary cut =>
    simp only [turn] at h
    split at h
    · cases h
      exact .inl ⟨now, summary, cut, rfl, attempted_at m now summary cut hread hdata⟩
    · cases h
  | pass s sched dryRun =>
    obtain ⟨host, hhost, rfl⟩ := Option.map_eq_some_iff.mp h
    exact .inr ⟨by simp, rfl, pass_uploaded hl hhost⟩
  | cutPass s sched effects handled =>
    obtain ⟨host, hhost, rfl⟩ := Option.map_eq_some_iff.mp h
    exact .inr ⟨by simp, rfl, cutPass_uploaded hl hhost⟩
  | deliver raw =>
    cases h
    exact .inr ⟨by simp, rfl, .refl, hl, rfl⟩

namespace Attempted

theorem ledger (h : Attempted env name raw data numbered m m' cut) :
    m'.host.intake.ledger = m.host.intake.ledger := by
  show m'.host.db.ledger = m.host.db.ledger
  rw [h.db]
  rfl

theorem linked (h : Attempted env name raw data numbered m m' cut) (hl : Linked m.host.db) :
    Linked m'.host.db := by
  rw [h.db]
  exact hl

end Attempted

theorem ne_tmpName_target (hhidden : isHidden (prefixedName name sha) = false)
    (hn : OwnName name sha n) (folder : Folder Text) (data : ByteArray) :
    n ≠ tmpName (enrichedTarget folder name sha data) := by
  have hlt := length_prefixedName name sha
  rcases enrichedTarget_cases folder name sha data with ht | ht
  · rw [ht]
    rcases hn with rfl | rfl
    · exact ne_tmpName (Nat.le_refl _)
    · intro heq
      rw [heq, isHidden_tmpName] at hhidden
      cases hhidden
  · rw [ht]
    rcases hn with rfl | rfl
    · exact ne_tmpName hlt.le
    · exact ne_tmpName (Nat.le_refl _)

theorem otherName_cases (folder : Folder Text) (name sha : Text) (data : ByteArray) :
    enrichedTarget folder name sha data = name ∧
        otherName folder name sha data = prefixedName name sha ∨
      enrichedTarget folder name sha data = prefixedName name sha ∧
        otherName folder name sha data = name := by
  unfold otherName
  rcases enrichedTarget_cases folder name sha data with ht | ht
  · exact .inl ⟨ht, if_pos ht⟩
  · refine .inr ⟨ht, if_neg ?_⟩
    rw [ht]
    exact (ne_prefixedName name sha).symm

theorem ownName_target (folder : Folder Text) (name sha : Text) (data : ByteArray) :
    OwnName name sha (enrichedTarget folder name sha data) :=
    enrichedTarget_cases folder name sha data

theorem ownName_other (folder : Folder Text) (name sha : Text) (data : ByteArray) :
    OwnName name sha (otherName folder name sha data) := by
  rcases otherName_cases folder name sha data with ⟨-, ho⟩ | ⟨-, ho⟩
  · exact .inr ho
  · exact .inl ho

theorem otherName_ne (folder : Folder Text) (name sha : Text) (data : ByteArray) :
    otherName folder name sha data ≠ enrichedTarget folder name sha data := by
  have hne := ne_prefixedName name sha
  rcases otherName_cases folder name sha data with ⟨ht, ho⟩ | ⟨ht, ho⟩
  · rw [ht, ho]
    exact hne.symm
  · rw [ht, ho]
    exact hne

theorem both_names {P : Text → Prop} (folder : Folder Text) (data : ByteArray) :
    P name ∧ P (prefixedName name sha) ↔
      P (enrichedTarget folder name sha data) ∧ P (otherName folder name sha data) := by
  rcases otherName_cases folder name sha data with ⟨ht, ho⟩ | ⟨ht, ho⟩
  · rw [ht, ho]
  · rw [ht, ho, and_comm]

theorem Attempted.left (h : Attempted env name raw data numbered m m' cut)
    (hhidden : isHidden (prefixedName name (env.sha256 raw)) = false)
    (hn : OwnName name (env.sha256 raw) n) :
    (LeftAs env data m' n ↔ LeftAs env data m n) ∨
      n = enrichedTarget m.host.inbox name (env.sha256 raw) data ∧ LeftAs env data m' n ∧
      Writes env numbered ∧ m.host.db.getEnrichedByIdentity name (env.sha256 raw) = none ∧
        ∀ k, cut = some k → 2 ≤ k := by
  obtain ⟨k, hwrote, hk⟩ := h.inbox
  have htmp := ne_tmpName_target hhidden hn m.host.inbox data
  by_cases ht : n = enrichedTarget m.host.inbox name (env.sha256 raw) data
  · by_cases h2 : 2 ≤ k
    · refine .inr ⟨ht, .inl ⟨data, ?_, rfl⟩, hk h2⟩
      rw [ht]
      exact hwrote.placed.trans (if_pos h2)
    · refine .inl (Intake.left_congr ?_ h.ledger)
      rw [ht]
      exact hwrote.placed.trans (if_neg h2)
  · exact .inl (Intake.left_congr (hwrote.others n htmp ht) h.ledger)

theorem LeftAs.turn (hleft : LeftAs env data m n)
    (hread : readNumberedLines raw = some numbered)
    (hdata : encodeLines (enrichedOf env numbered) = some data)
    (hhidden : isHidden (prefixedName name (env.sha256 raw)) = false)
    (hn : OwnName name (env.sha256 raw) n) (hl : Linked m.host.db)
    (h : turn env name raw m t = some m') : LeftAs env data m' n := by
  rcases turn_cases hread hdata hl h with ⟨now, summary, cut, -, hatt⟩ | ⟨-, -, hup⟩
  · rcases hatt.left hhidden hn with hiff | ⟨-, hleft', -⟩
    · exact hiff.mpr hleft
    · exact hleft'
  · exact hup.steps.left_iff.mpr hleft

-- ---------------------------------------------------------------------------
-- One identity
-- ---------------------------------------------------------------------------

/-- `UNIQUE (filename, sha256)` -/
def UniqueFiles (db : Db) : Prop :=
  ∀ f ∈ db.files.rows, ∀ g ∈ db.files.rows, f.filename = g.filename →
    f.sha256 = g.sha256 → f = g

theorem uniqueFiles_iff {host : Host} : UniqueFiles host.db ↔ host.intake.Unique := by
  constructor
  · intro h i j e e' he he' hname hdigest
    obtain ⟨f, hf, rfl, rfl⟩ := ledger_eq_some.mp he
    obtain ⟨g, hg, rfl, rfl⟩ := ledger_eq_some.mp he'
    rw [h f hf g hg hname hdigest]
  · intro h f hf g hg hname hdigest
    exact Table.eq_of_key hf hg (h f.id g.id _ _ (ledger_eq_some.mpr ⟨f, hf, rfl, rfl⟩)
      (ledger_eq_some.mpr ⟨g, hg, rfl, rfl⟩) hname hdigest)

def Bears (env : EnrichEnv) (name : Text) (raw data : ByteArray) (f : FileRow) : Prop :=
  OwnName name (env.sha256 raw) f.filename ∧ f.sha256 = env.sha256 data

/-- The data was not left under both names, and of the entries none was lost and none made
up. -/
structure Single (env : EnrichEnv) (name : Text) (raw data : ByteArray) (start m : Mount) :
    Prop where
  linked : Linked m.host.db
  unique : m.host.intake.Unique
  one : ¬(LeftAs env data m name ∧ LeftAs env data m (prefixedName name (env.sha256 raw)))
  entered : ∀ i e, m.host.intake.ledger i = some e → start.host.intake.ledger i = some e ∨
    ∃ b, env.sha256 b = e.digest ∧ fileLines b = some e.content

theorem Single.upload (h : Single env name raw data start m)
    (hup : Uploaded env.sha256 m.host m'.host) : Single env name raw data start m' where
  linked := hup.linked
  unique := hup.steps.unique h.unique
  one := by
    simp only [LeftAs, hup.steps.left_iff]
    exact h.one
  entered := by
    intro i e he
    rcases hup.steps.entered he with hold | ⟨-, hnew⟩
    · exact h.entered i e hold
    · exact .inr hnew

theorem Single.attempt (h : Single env name raw data start m)
    (hhidden : isHidden (prefixedName name (env.sha256 raw)) = false)
    (hatt : Attempted env name raw data numbered m m' cut)
    (hclear : Clear env name raw data numbered m (.process now summary cut)) :
    Single env name raw data start m' where
  linked := hatt.linked h.linked
  unique := h.unique.congr hatt.ledger
  one := by
    have hold := h.one
    rw [both_names m.host.inbox data] at hold ⊢
    rintro ⟨hchosen, hother⟩
    have hother : LeftAs env data m (otherName m.host.inbox name (env.sha256 raw) data) := by
      rcases hatt.left hhidden (ownName_other _ _ _ data) with hiff | ⟨heq, -⟩
      · exact hiff.mp hother
      · exact absurd heq (otherName_ne _ _ _ data)
    rcases hatt.left hhidden (ownName_target _ _ _ data) with
      hiff | ⟨-, -, hwrites, hnew, hcut⟩
    · exact hold ⟨hiff.mp hchosen, hother⟩
    · exact hclear hwrites hnew hcut hother
  entered := by
    intro i e he
    rw [hatt.ledger] at he
    exact h.entered i e he

theorem Single.turn (h : Single env name raw data start m)
    (hread : readNumberedLines raw = some numbered)
    (hdata : encodeLines (enrichedOf env numbered) = some data)
    (hhidden : isHidden (prefixedName name (env.sha256 raw)) = false)
    (hclear : Clear env name raw data numbered m t) (hturn : turn env name raw m t = some m') :
    Single env name raw data start m' := by
  rcases turn_cases hread hdata h.linked hturn with ⟨now, summary, cut, rfl, hatt⟩ |
    ⟨-, -, hup⟩
  · exact h.attempt hhidden hatt hclear
  · exact h.upload hup

-- ---------------------------------------------------------------------------
-- One copy in quarantine
-- ---------------------------------------------------------------------------

/-- The name for the quarantine records does not change, and no other holds them but for a
while the temporary one. -/
structure OneCopy (name sha : Text) (data : ByteArray) (folder folder' : Folder Text) : Prop where
  target : quarantineTarget folder' name sha data = quarantineTarget folder name sha data
  copies : ∀ n, folder'.read n = some data → n = quarantineTarget folder name sha data ∨
    n = tmpName (quarantineTarget folder name sha data) ∧
      folder'.read (quarantineTarget folder name sha data) ≠ some data

theorem OneCopy.unique {folder folder' : Folder Text} (h : OneCopy name sha data folder folder')
    (hn : folder'.read n = some data) (hn' : folder'.read n' = some data) : n = n' := by
  rcases h.copies n hn with rfl | ⟨rfl, hno⟩
  · rcases h.copies n' hn' with rfl | ⟨rfl, hno⟩
    · rfl
    · exact absurd hn hno
  · rcases h.copies n' hn' with rfl | ⟨rfl, -⟩
    · exact absurd hn' hno
    · rfl

theorem OneCopy.wrote {folder₀ folder folder' : Folder Text}
    (h : OneCopy name sha data folder₀ folder)
    (hwrote : Wrote folder folder' (quarantineTarget folder name sha data) data k) :
    OneCopy name sha data folder₀ folder' := by
  have hlt := length_prefixedName name sha
  have hplain : (folder'.read name = none ∨ folder'.read name = some data) ↔
      (folder.read name = none ∨ folder.read name = some data) := by
    by_cases ht : name = quarantineTarget folder name sha data
    · -- the plain name is free for the data, before and after
      have hfree : folder.read name = none ∨ folder.read name = some data := by
        by_contra hno
        rw [quarantineTarget_eq, if_neg hno] at ht
        exact ne_prefixedName name sha ht
      refine iff_of_true ?_ hfree
      rw [ht, hwrote.placed, ← ht]
      split
      · exact .inr rfl
      · exact hfree
    · have htmp : name ≠ tmpName (quarantineTarget folder name sha data) := by
        refine ne_tmpName ?_
        rw [quarantineTarget_eq]
        split
        · exact Nat.le_refl _
        · exact hlt.le
      rw [hwrote.others name htmp ht]
  have hsame : quarantineTarget folder' name sha data = quarantineTarget folder name sha data := by
    rw [quarantineTarget_eq, quarantineTarget_eq]
    simp only [hplain]
  refine ⟨hsame.trans h.target, fun n hn => ?_⟩
  rw [h.target] at hwrote
  by_cases ht : n = quarantineTarget folder₀ name sha data
  · exact .inl ht
  · by_cases htmp : n = tmpName (quarantineTarget folder₀ name sha data)
    · refine .inr ⟨htmp, fun hplaced => ?_⟩
      rw [htmp] at hn
      obtain rfl := hwrote.tmp hplaced hn
      rcases h.copies _ hn with heq | ⟨-, hno⟩
      · exact ht (htmp.trans heq)
      · exact hno hplaced
    · rw [hwrote.others n htmp ht] at hn
      rcases h.copies n hn with heq | ⟨heq, -⟩
      · exact absurd heq ht
      · exact absurd heq htmp

-- ---------------------------------------------------------------------------
-- Histories
-- ---------------------------------------------------------------------------

def LeftAny (env : EnrichEnv) (name : Text) (raw data : ByteArray) (m : Mount) : Prop :=
  ∃ n, OwnName name (env.sha256 raw) n ∧ LeftAs env data m n

theorem Linked.turn (hl : Linked m.host.db) (hread : readNumberedLines raw = some numbered)
    (hdata : encodeLines (enrichedOf env numbered) = some data)
    (hturn : turn env name raw m t = some m') : Linked m'.host.db := by
  rcases turn_cases hread hdata hl hturn with ⟨now, summary, cut, -, hatt⟩ | ⟨-, -, hup⟩
  · exact hatt.linked hl
  · exact hup.linked

/-- Where the raw file has its row, or a run on it was not cut off, its data was left. -/
structure Ended (env : EnrichEnv) (name : Text) (raw data : ByteArray) (turns : List Turn)
    (m : Mount) : Prop where
  linked : Linked m.host.db
  row : (m.host.db.getEnrichedByIdentity name (env.sha256 raw)).isSome →
    LeftAny env name raw data m
  ended : (∃ now summary, .process now summary none ∈ turns) → LeftAny env name raw data m

theorem Ended.turn (h : Ended env name raw data turns m)
    (hread : readNumberedLines raw = some numbered)
    (hdata : encodeLines (enrichedOf env numbered) = some data)
    (hhidden : isHidden (prefixedName name (env.sha256 raw)) = false)
    (hw : Writes env numbered) (hturn : turn env name raw m t = some m') :
    Ended env name raw data (turns ++ [t]) m' := by
  have hkeep (hleft : LeftAny env name raw data m) : LeftAny env name raw data m' := by
    obtain ⟨n, hn, hleft⟩ := hleft
    exact ⟨n, hn, hleft.turn hread hdata hhidden hn h.linked hturn⟩
  have hrow (hsame : m'.host.db.enrichedFiles = m.host.db.enrichedFiles)
      (hrow : (m'.host.db.getEnrichedByIdentity name (env.sha256 raw)).isSome) :
      LeftAny env name raw data m' := by
    rw [Db.getEnrichedByIdentity, hsame] at hrow
    exact hkeep (h.row hrow)
  have hlater (hlast : (∃ now summary, t = .process now summary none) →
      LeftAny env name raw data m') :
      (∃ now summary, .process now summary none ∈ turns ++ [t]) →
        LeftAny env name raw data m' := by
    rintro ⟨now, summary, hmem⟩
    rcases List.mem_append.mp hmem with hmem | hmem
    · exact hkeep (h.ended ⟨now, summary, hmem⟩)
    · exact hlast ⟨now, summary, (List.mem_singleton.mp hmem).symm⟩
  have hl := h.linked.turn hread hdata hturn
  rcases turn_cases hread hdata h.linked hturn with ⟨now, summary, cut, rfl, hatt⟩ |
    ⟨hno, -, hup⟩
  · have hplaced
      (hread : m'.host.inbox.read (enrichedTarget m.host.inbox name (env.sha256 raw) data)
        = some data) : LeftAny env name raw data m' :=
      ⟨_, ownName_target _ _ _ data, .inl ⟨data, hread, rfl⟩⟩
    refine ⟨hl, fun hsome => ?_, hlater ?_⟩
    · rcases hatt.row with hsame | hnil | hread
      · exact hrow hsame hsome
      · exact absurd hnil hw.lines
      · exact hplaced hread
    · rintro ⟨now', summary', heq⟩
      cases heq
      cases hold : m.host.db.getEnrichedByIdentity name (env.sha256 raw) with
      | some row => exact hkeep (h.row (by rw [hold]; rfl))
      | none => exact hplaced (hatt.placed hw hold fun _ h => by cases h)
  · exact ⟨hl, hrow hup.enriched,
      hlater fun ⟨now, summary, heq⟩ => absurd heq (hno now summary none)⟩

theorem OneCopy.turn (h : OneCopy name (env.sha256 raw) records start.quarantine m.quarantine)
    (hl : Linked m.host.db) (hread : readNumberedLines raw = some numbered)
    (hdata : encodeLines (enrichedOf env numbered) = some data)
    (hrecords : encodeLines ((recordsOf env numbered).map (·.dumps env.ucd)) = some records)
    (hturn : turn env name raw m t = some m') :
    OneCopy name (env.sha256 raw) records start.quarantine m'.quarantine := by
  rcases turn_cases hread hdata hl hturn with ⟨now, summary, cut, -, hatt⟩ | ⟨-, hsame, -⟩
  · obtain ⟨k, hwrote⟩ := hatt.quarantine records hrecords
    exact h.wrote hwrote
  · rw [hsame]
    exact h

theorem fileLines_enriched (hdata : encodeLines (enrichedOf env numbered) = some data) :
    fileLines data = some ((enrichedOf env numbered).zipIdx 1) := by
  have hsubjects : enrichedOf env numbered = (fileSubjects env numbered).map Subject.dumps := by
    rw [enrichedOf, fileSubjects, List.map_filterMap]
    refine List.filterMap_congr fun line _ => ?_
    cases fileOutcome env numbered line.2 <;> rfl
  have hlines : ∀ line ∈ enrichedOf env numbered, IsLine Text.isNewline line := by
    rw [hsubjects]
    exact List.forall_mem_map.mpr fun s hs =>
      isLine_dumps (fileSubjects_built s hs).within.1 Json.Separators.compact_ascii
  rw [fileLines, readLines_encodeLines hdata hlines]
  rfl

/-- No line of the raw file is ingested twice, and no record of it is twice in quarantine. -/
structure Once (env : EnrichEnv) (name : Text) (raw data : ByteArray)
    (numbered : List (Nat × Text)) (start m : Mount) : Prop where
  file : ∀ f ∈ m.host.db.files.rows, ∀ g ∈ m.host.db.files.rows,
    Bears env name raw data f → Bears env name raw data g → f = g
  /-- The records of a file that was not there at the start are the enriched lines. -/
  lines : ∀ f ∈ m.host.db.files.rows, Bears env name raw data f →
    linesOf m.host.db f.id = (enrichedOf env numbered).zipIdx 1 ∨
      ∃ g ∈ start.host.db.files.rows, g.id = f.id ∧ Bears env name raw data g ∧
        linesOf start.host.db g.id = linesOf m.host.db f.id
  quarantine : ∀ records,
    encodeLines ((recordsOf env numbered).map (·.dumps env.ucd)) = some records →
    (∀ n, start.quarantine.read n = some records →
      n = quarantineTarget start.quarantine name (env.sha256 raw) records) →
    ∀ n n', m.quarantine.read n = some records → m.quarantine.read n' = some records → n = n'

theorem Single.once (h : Single env name raw data start m)
    (hdata : encodeLines (enrichedOf env numbered) = some data)
    (hdigest : ∀ b, env.sha256 b = env.sha256 data → b = data)
    (hcopy : ∀ records, encodeLines ((recordsOf env numbered).map (·.dumps env.ucd)) =
      some records →
      (∀ n, start.quarantine.read n = some records →
        n = quarantineTarget start.quarantine name (env.sha256 raw) records) →
      OneCopy name (env.sha256 raw) records start.quarantine m.quarantine) :
    Once env name raw data numbered start m where
  file := by
    intro f hf g hg hbf hbg
    have hleft (f : FileRow) (hf : f ∈ m.host.db.files.rows) (hbf : Bears env name raw data f) :
        LeftAs env data m f.filename := .inr (knows_iff.mpr ⟨f, hf, rfl, hbf.2⟩)
    have hsame : f.filename = g.filename := by
      have hfleft := hleft f hf hbf
      have hgleft := hleft g hg hbg
      rcases hbf.1 with hfn | hfn <;> rcases hbg.1 with hgn | hgn
      · rw [hfn, hgn]
      · exact absurd ⟨hfn ▸ hfleft, hgn ▸ hgleft⟩ h.one
      · exact absurd ⟨hgn ▸ hgleft, hfn ▸ hfleft⟩ h.one
      · rw [hfn, hgn]
    exact uniqueFiles_iff.mpr h.unique f hf g hg hsame (hbf.2.trans hbg.2.symm)
  lines := by
    intro f hf hbf
    rcases h.entered f.id _ (ledger_eq_some.mpr ⟨f, hf, rfl, rfl⟩) with hold |
      ⟨b, hb, hcontent⟩
    · obtain ⟨g, hg, hid, heq⟩ := ledger_eq_some.mp hold
      obtain ⟨hname, hsha, hlines⟩ := Intake.Entry.mk.inj heq
      refine .inr ⟨g, hg, hid, ⟨?_, hsha.trans hbf.2⟩, hid ▸ hlines⟩
      rw [hname]
      exact hbf.1
    · obtain rfl := hdigest b (hb.trans hbf.2)
      exact .inl (Option.some.inj (hcontent.symm.trans (fileLines_enriched hdata)))
  quarantine := fun records hrecords hstart n n' hn hn' =>
    (hcopy records hrecords hstart).unique hn hn'

/-- The raw file was new at the start and has lines for the inbox, and a run on it was not cut
off. -/
structure Processed (env : EnrichEnv) (name : Text) (raw : ByteArray)
    (numbered : List (Nat × Text)) (start : Mount) (turns : List Turn) : Prop where
  new : start.host.db.getEnrichedByIdentity name (env.sha256 raw) = none
  writes : Writes env numbered
  ended : ∃ now summary, .process now summary none ∈ turns

/-- A pass of the uploader that takes files of both names, and reaches its end. -/
structure SeenBy (env : EnrichEnv) (name : Text) (raw : ByteArray) (m : Mount) (s : Site)
    (sched : Schedule) (out : Run) : Prop where
  finished : runLocked (env.site s) sched false m.host = some (.finished, out)
  plain : s.eligible name
  prefixed : s.eligible (prefixedName name (env.sha256 raw))

theorem SeenBy.ingested (h : SeenBy env name raw m s sched out) (hl : Linked m.host.db)
    (hname : isHidden name = false)
    (hhidden : isHidden (prefixedName name (env.sha256 raw)) = false)
    (hn : OwnName name (env.sha256 raw) n) (hleft : LeftAs env data m n) :
    ∃ f ∈ out.host.db.files.rows, f.filename = n ∧ f.sha256 = env.sha256 data := by
  rcases hleft with ⟨b, hb, hdigest⟩ | hknown
  · have hscan : n ∈ scanFolder (env.site s) m.host.inbox := by
      rw [scanFolder, List.mem_insertionSort, List.mem_filter]
      have hb : m.host.inbox.read n = some b := hb
      refine ⟨Folder.read_isSome_iff.mp (by rw [hb]; rfl), ?_⟩
      rcases hn with rfl | rfl
      · rw [hname]
        exact h.plain
      · rw [hhidden]
        exact h.prefixed
    rw [← hdigest]
    exact knows_iff.mp (runLocked_knows hl h.finished hscan hb)
  · obtain ⟨hhost, htakes⟩ := runLocked_takesIn hl h.finished
    have hsteps := htakes.steps
    rw [← hhost] at hsteps
    exact knows_iff.mp (hsteps.knows hknown)

/-- An attempt that is not clear leaves the data under both names. -/
theorem left_of_not_clear (hread : readNumberedLines raw = some numbered)
    (hdata : encodeLines (enrichedOf env numbered) = some data)
    (hhidden : isHidden (prefixedName name (env.sha256 raw)) = false) (hl : Linked m.host.db)
    (hturn : turn env name raw m t = some m') (hclear : ¬Clear env name raw data numbered m t) :
    LeftAs env data m' name ∧ LeftAs env data m' (prefixedName name (env.sha256 raw)) := by
  cases t with
  | process now summary cut =>
    simp only [Clear, not_forall, not_not] at hclear
    obtain ⟨hw, hnew, hcut, hother⟩ := hclear
    rcases turn_cases hread hdata hl hturn with ⟨_, _, _, heq, hatt⟩ | ⟨hno, -⟩
    · cases heq
      rw [both_names m.host.inbox data]
      exact ⟨.inl ⟨data, hatt.placed hw hnew hcut, rfl⟩,
        hother.turn hread hdata hhidden (ownName_other _ _ _ data) hl hturn⟩
    · exact absurd rfl (hno now summary cut)
  | _ => exact absurd trivial hclear

/-- However a raw file is processed and cut off and processed again, if each attempt is clear
its lines are ingested under one identity only, and after a run that came to its end they are
ingested by the next pass that sees them. After an attempt that is not clear the next pass
that sees them ingests them twice. -/
theorem enriched_once (hread : readNumberedLines raw = some numbered)
    (hdata : encodeLines (enrichedOf env numbered) = some data)
    (hname : isHidden name = false)
    (hhidden : isHidden (prefixedName name (env.sha256 raw)) = false)
    (hdigest : ∀ b, env.sha256 b = env.sha256 data → b = data)
    (hlinked : Linked start.host.db) (hunique : UniqueFiles start.host.db)
    (hone : ¬(LeftAs env data start name ∧
      LeftAs env data start (prefixedName name (env.sha256 raw))))
    (turns : List Turn) (m : Mount) (hrun : Machine.run (turn env name raw) start turns = some m)
    (hclear : Machine.Along (turn env name raw) (Clear env name raw data numbered) start turns) :
    Once env name raw data numbered start m ∧
    (Processed env name raw numbered start turns → ∀ s sched out,
      SeenBy env name raw m s sched out →
      Once env name raw data numbered start { m with host := out.host } ∧
        ∃ f ∈ out.host.db.files.rows, Bears env name raw data f) ∧
    ∀ t m', turn env name raw m t = some m' → ¬Clear env name raw data numbered m t →
      ∀ s sched out, SeenBy env name raw m' s sched out →
        ¬Once env name raw data numbered start { m' with host := out.host } := by
  have hsingle : Single env name raw data start m :=
    Machine.run_along (Single env name raw data start)
      ⟨hlinked, uniqueFiles_iff.mp hunique, hone, fun i e he => .inl he⟩
      (fun _ _ _ h hc ht => h.turn hread hdata hhidden hc ht) hclear hrun
  have hcopy (records : ByteArray)
      (hrecords : encodeLines ((recordsOf env numbered).map (·.dumps env.ucd)) = some records)
      (hstart : ∀ n, start.quarantine.read n = some records →
        n = quarantineTarget start.quarantine name (env.sha256 raw) records) :
      OneCopy name (env.sha256 raw) records start.quarantine m.quarantine := by
    have h := Machine.run_invariant (fun _ m => Linked m.host.db ∧
        OneCopy name (env.sha256 raw) records start.quarantine m.quarantine)
      ⟨hlinked, rfl, fun n hn => .inl (hstart n hn)⟩
      (fun _ _ _ _ h ht => ⟨h.1.turn hread hdata ht, h.2.turn h.1 hread hdata hrecords ht⟩) hrun
    exact h.2
  refine ⟨hsingle.once hdata hdigest hcopy, fun hp s sched out hseen => ?_, ?_⟩
  · have hended := Machine.run_invariant (Ended env name raw data)
      ⟨hlinked, by simp [hp.new], by simp⟩
      (fun _ _ _ _ h ht => h.turn hread hdata hhidden hp.writes ht) hrun
    have hdeed : deed m.host (.pass (env.site s) sched false) = some out.host := by
      simp only [deed, hseen.finished, Option.map_some]
    have hsingle' : Single env name raw data start { m with host := out.host } :=
      hsingle.upload (pass_uploaded hsingle.linked hdeed)
    refine ⟨hsingle'.once hdata hdigest hcopy, ?_⟩
    obtain ⟨n, hn, hleft⟩ := hended.ended hp.ended
    obtain ⟨f, hf, hfn, hfd⟩ := hseen.ingested hsingle.linked hname hhidden hn hleft
    exact ⟨f, hf, hfn ▸ hn, hfd⟩
  · intro t m' hturn hnot s sched out hseen honce
    have hl := hsingle.linked.turn hread hdata hturn
    obtain ⟨hplain, hpre⟩ := left_of_not_clear hread hdata hhidden hsingle.linked hturn hnot
    obtain ⟨f, hf, hfn, hfd⟩ := hseen.ingested hl hname hhidden (.inl rfl) hplain
    obtain ⟨g, hg, hgn, hgd⟩ := hseen.ingested hl hname hhidden (.inr rfl) hpre
    have hsame := honce.file f hf g hg ⟨.inl hfn, hfd⟩ ⟨.inr hgn, hgd⟩
    exact ne_prefixedName name (env.sha256 raw) (hfn.symm.trans (hsame ▸ hgn))

-- ---------------------------------------------------------------------------
-- A file that comes under both names
-- ---------------------------------------------------------------------------

theorem attempt_two (m : Mount) (summary : EnrichSummary)
    (hread : readNumberedLines raw = some numbered)
    (hdata : encodeLines (enrichedOf env numbered) = some data) (hw : Writes env numbered)
    (hnew : m.host.db.getEnrichedByIdentity name (env.sha256 raw) = none)
    (htarget : enrichedTarget m.host.inbox name (env.sha256 raw) data = target)
    (hfree : m.host.inbox.read target ≠ some data) :
    attempt env m name raw summary (some 2) =
      m.setShelf ((m.host.inbox.write (tmpName target) data).rename (tmpName target) target)
        .inbox := by
  have hinbox : enrichedEffects m.host.inbox name (env.sha256 raw) (enrichedOf env numbered) =
      some [.write .inbox (tmpName target) data, .rename .inbox (tmpName target) target] := by
    rw [enrichedEffects, if_neg hw.lines, hdata, Option.map_some, htarget,
      writeAtomic, if_neg hfree]
  rcases processFile_parts m name summary hread with
    ⟨-, hwhy⟩ | ⟨-, -, inbox, quarantine, rest, hfx, hinbox', -⟩
  · have hno := hwhy hnew hw.ended
    rw [hinbox] at hno
    cases hno
  · obtain rfl := Option.some.inj (hinbox'.symm.trans hinbox)
    simp only [attempt, hfx, Option.getD_some, List.cons_append,
      List.nil_append, List.take_succ_cons, List.take_zero, List.foldl_cons, List.foldl_nil,
      FileEffect.apply, Mount.shelf_setShelf, if_true, Mount.setShelf_setShelf]
    rfl

theorem turn_two (hraw : m.raw.read name = some raw)
    (hread : readNumberedLines raw = some numbered)
    (hdata : encodeLines (enrichedOf env numbered) = some data) (hw : Writes env numbered)
    (hnew : m.host.db.getEnrichedByIdentity name (env.sha256 raw) = none)
    (htarget : enrichedTarget m.host.inbox name (env.sha256 raw) data = target)
    (hfree : m.host.inbox.read target ≠ some data) :
    turn env name raw m (.process now summary (some 2)) =
      some (m.setShelf ((m.host.inbox.write (tmpName target) data).rename (tmpName target) target)
        .inbox) := by
  rw [turn, if_pos hraw, Option.some_inj]
  refine attempt_two m summary hread ?_ (writes_utcnow.mpr hw) ?_ ?_ hfree
  · exact hdata
  · exact hnew
  · exact htarget

def ReadableAs (m : Mount) (n : Text) : Prop :=
  ∀ b, m.host.inbox.read n = some b → readLines b ≠ none

theorem readable_enriched (hdata : encodeLines (enrichedOf env numbered) = some data) :
    readLines data ≠ none := by
  have h := fileLines_enriched hdata
  intro hnone
  rw [fileLines, hnone] at h
  cases h

theorem Attempted.readable (h : Attempted env name raw data numbered m m' cut)
    (hdata : encodeLines (enrichedOf env numbered) = some data)
    (hhidden : isHidden (prefixedName name (env.sha256 raw)) = false)
    (hn : OwnName name (env.sha256 raw) n) (hold : ReadableAs m n) : ReadableAs m' n := by
  obtain ⟨k, hwrote, -⟩ := h.inbox
  intro b hb
  by_cases ht : n = enrichedTarget m.host.inbox name (env.sha256 raw) data
  · rw [ht, hwrote.placed] at hb
    split at hb
    · cases hb
      exact readable_enriched hdata
    · exact hold b (ht ▸ hb)
  · rw [hwrote.others n (ne_tmpName_target hhidden hn m.host.inbox data) ht] at hb
    exact hold b hb

/-- Where both can be read, some pass takes them and reaches its end. -/
theorem exists_seenBy (env : EnrichEnv)
    (hreadable : ∀ n, OwnName name (env.sha256 raw) n → ReadableAs m n) :
    ∃ s sched out, SeenBy env name raw m s sched out := by
  let s : Site := { answering accepted with
    aged := fun n => n = name ∨ n = prefixedName name (env.sha256 raw) }
  obtain ⟨sched, out, hrun⟩ := exists_finished (env.site s) m.host (by
    rintro n hn ⟨b, hb, -, hnone⟩
    rw [scanFolder, List.mem_insertionSort, List.mem_filter, Bool.and_eq_true] at hn
    have hown : n = name ∨ n = prefixedName name (env.sha256 raw) := of_decide_eq_true hn.2.2
    exact hreadable n hown b hb hnone)
  exact ⟨s, sched, out, hrun, decide_eq_true (.inl rfl), decide_eq_true (.inr rfl)⟩

theorem SeenBy.entered (h : SeenBy env name raw m s sched out) (hl : Linked m.host.db)
    (hdata : encodeLines (enrichedOf env numbered) = some data) (hname : isHidden name = false)
    (hhidden : isHidden (prefixedName name (env.sha256 raw)) = false)
    (hdigest : ∀ b, env.sha256 b = env.sha256 data → b = data)
    (hn : OwnName name (env.sha256 raw) n) (hleft : LeftAs env data m n)
    (hnew : ¬m.host.intake.Knows n (env.sha256 data)) :
    ∃ f ∈ out.host.db.files.rows, f.filename = n ∧
      linesOf out.host.db f.id = (enrichedOf env numbered).zipIdx 1 := by
  obtain ⟨f, hf, hfn, hfd⟩ := h.ingested hl hname hhidden hn hleft
  have hdeed : deed m.host (.pass (env.site s) sched false) = some out.host := by
    simp only [deed, h.finished, Option.map_some]
  have hentry : out.host.intake.ledger f.id =
    some ⟨f.filename, f.sha256, linesOf out.host.db f.id⟩ :=
    ledger_eq_some.mpr ⟨f, hf, rfl, rfl⟩
  rcases (pass_uploaded hl hdeed).steps.entered hentry with hold | ⟨-, b, hb, hcontent⟩
  · exact absurd ⟨f.id, _, hold, hfn, hfd⟩ hnew
  · obtain rfl := hdigest b (hb.trans hfd)
    exact ⟨f, hf, hfn, (Option.some.inj (hcontent.symm.trans (fileLines_enriched hdata)))⟩

/-- After an attempt that is not clear, some pass takes the data in as two files. -/
theorem comes_twice (hread : readNumberedLines raw = some numbered)
    (hdata : encodeLines (enrichedOf env numbered) = some data) (hname : isHidden name = false)
    (hhidden : isHidden (prefixedName name (env.sha256 raw)) = false)
    (hdigest : ∀ b, env.sha256 b = env.sha256 data → b = data) (hl : Linked m.host.db)
    (hnew : ∀ n, ¬m.host.intake.Knows n (env.sha256 data))
    (hreadable : ∀ n, OwnName name (env.sha256 raw) n → ReadableAs m n)
    (hturn : turn env name raw m t = some m') (hclear : ¬Clear env name raw data numbered m t) :
    ∃ s sched out, turn env name raw m' (.pass s sched false) = some out ∧
      ∃ f ∈ out.host.db.files.rows, ∃ g ∈ out.host.db.files.rows, f.id ≠ g.id ∧
        linesOf out.host.db f.id = (enrichedOf env numbered).zipIdx 1 ∧
        linesOf out.host.db g.id = (enrichedOf env numbered).zipIdx 1 := by
  obtain ⟨hplain, hprefixed⟩ := left_of_not_clear hread hdata hhidden hl hturn hclear
  have hl' := hl.turn hread hdata hturn
  rcases turn_cases hread hdata hl hturn with ⟨now, summary, cut, rfl, hatt⟩ | ⟨hno, -⟩
  · obtain ⟨s, sched, out, hseen⟩ := exists_seenBy (m := m') env fun n hn =>
      hatt.readable hdata hhidden hn (hreadable n hn)
    have hnew' (n : Text) : ¬m'.host.intake.Knows n (env.sha256 data) := by
      unfold Intake.State.Knows
      rw [hatt.ledger]
      exact hnew n
    obtain ⟨f, hf, hfn, hflines⟩ :=
      hseen.entered hl' hdata hname hhidden hdigest (.inl rfl) hplain (hnew' _)
    obtain ⟨g, hg, hgn, hglines⟩ :=
      hseen.entered hl' hdata hname hhidden hdigest (.inr rfl) hprefixed (hnew' _)
    refine ⟨s, sched, { m' with host := out.host }, ?_, f, hf, g, hg, fun hid => ?_,
      hflines, hglines⟩
    · simp only [turn, deed, hseen.finished, Option.map_some]
    · obtain rfl := Table.eq_of_key hf hg hid
      exact ne_prefixedName name (env.sha256 raw) (hfn.symm.trans hgn)
  · cases t with
    | process now summary cut => exact absurd rfl (hno now summary cut)
    | _ => exact absurd trivial hclear

/-- The package of the client's line. -/
def clientPackage : Text :=
  Text.lit "\x7b\"reqlng\":\"1\",\"inn\":\"3000000011\",\"person_id\":\"7\",\"is_gone\":\"0\"," ++
  Text.lit "\"lname\":\"A\",\"fname\":\"B\",\"bdate\":\"1982-02-19\",\"idents\":[\x7b" ++
  Text.lit "\"vdate\":\"2026-08-14\",\"lng\":\"1\",\"inn\":\"3000000011\",\"lname\":\"A\"," ++
  Text.lit "\"fname\":\"B\",\"bdate\":\"1982-02-19\",\"cgrag\":\"804\",\"csex\":\"1\"\x7d]," ++
  Text.lit "\"docs\":[\x7b\"vdate\":\"2026-08-14\",\"lng\":\"1\",\"dtype\":\"1\",\"dser\":\"AB\"," ++
  Text.lit "\"dnom\":\"123456\",\"dwho\":\"Office\",\"dwdt\":\"2001-02-03\"\x7d],\"addrs\":[\x7b" ++
  Text.lit "\"vdate\":\"2026-08-14\",\"lng\":\"1\",\"adtype\":\"2\",\"adcountry\":\"804\"\x7d]," ++
  Text.lit "\"deals\":[\x7b\"dlref\":\"5\",\"dlvidobes\":\"90\"\x7d],\"contacts\":[\x7b" ++
  Text.lit "\"vdate\":\"2026-08-14\",\"ctype\":\"3\",\"cval\":\"+380501234567\"\x7d]\x7d"

def clientData : ByteArray := (encodeLines [clientPackage]).getD ∅

def otherFile : ByteArray := "\x7b\x7d\n".toByteArray

def clientDigest (b : ByteArray) : Text :=
  if b = otherFile then
    Text.lit "ca3d163bab055381827226140568f3bef7eaac187cebd76878e0b63e9e442356"
  else if b = clientLine.toByteArray then
    Text.lit "faf2bafd8705d4ad4747d620c2acf808677f754a713bc68ece14b50c579d4392"
  else if b = clientData then
    Text.lit "61cf2d0db9c2c1aa73be5ef2addf1e86b063f6c3ff176d241ca9707e33349e70"
  else []

def clientEnv : EnrichEnv := { forgetfulEnv with sha256 := clientDigest }

/-- The raw file of the client, with these files in the inbox. -/
def clientMount (inbox : Folder Text) : Mount :=
  { host := { inbox }, raw := AList.singleton (Text.lit "a.jsonl") clientLine.toByteArray }

theorem clientEnv_sha256 : clientEnv.sha256 = clientDigest := rfl

theorem client_numbered :
    readNumberedLines clientLine.toByteArray = some [(1, Text.lit clientLine)] := by decide

theorem enrichedOf_sha256 (env : EnrichEnv) (digest : ByteArray → Text)
    (numbered : List (Nat × Text)) :
    enrichedOf { env with sha256 := digest } numbered = enrichedOf env numbered := rfl

theorem enrichedOf_forgetful :
    enrichedOf forgetfulEnv [(1, Text.lit clientLine)] = [clientPackage] := by decide +kernel

theorem enrichedOf_client :
    enrichedOf clientEnv [(1, Text.lit clientLine)] = [clientPackage] :=
  (enrichedOf_sha256 _ _ _).trans enrichedOf_forgetful

theorem encodeLines_clientPackage : encodeLines [clientPackage] = some clientData := by
  have hsome : (encodeLines [clientPackage]).isSome := by decide +kernel
  obtain ⟨data, hdata⟩ := Option.isSome_iff_exists.mp hsome
  rw [clientData, hdata, Option.getD_some]

theorem encodeLines_client :
    encodeLines (enrichedOf clientEnv [(1, Text.lit clientLine)]) = some clientData := by
  rw [enrichedOf_client, encodeLines_clientPackage]

theorem writes_client : Writes clientEnv [(1, Text.lit clientLine)] where
  lines := by
    rw [enrichedOf_client]
    exact List.cons_ne_nil _ _
  ended summary := by
    have h : (enrichAll clientEnv [(1, Text.lit clientLine)] {}).2 = none := by decide +kernel
    exact enrichAll_eq_none.mpr (enrichAll_eq_none.mp h)

theorem otherFile_ne_clientData : otherFile ≠ clientData := by
  intro heq
  have hlines := fileLines_enriched encodeLines_client
  have hother : fileLines otherFile = some [(Text.lit "\x7b\x7d", 1)] := by decide
  rw [← heq, hother, enrichedOf_client] at hlines
  have hone := congrArg (List.map Prod.fst) (Option.some.inj hlines)
  rw [List.zipIdx_map_fst] at hone
  have hno : [clientPackage] ≠ [Text.lit "\x7b\x7d"] := by decide
  exact hno hone.symm

theorem eq_of_digest {β δ : Type} [DecidableEq β] {x y z b : β} {p q r e : δ}
    (hdistinct : [p, q, r, e].Nodup)
    (h : (if b = x then p else if b = y then q else if b = z then r else e) =
      if z = x then p else if z = y then q else if z = z then r else e) : b = z := by
  simp only [List.nodup_cons, List.mem_cons, not_or] at hdistinct
  grind

theorem clientEnv_inj (b : ByteArray) (h : clientEnv.sha256 b = clientEnv.sha256 clientData) :
    b = clientData := by
  rw [clientEnv_sha256] at h
  exact eq_of_digest (by decide) h

theorem clientDigest_raw : clientDigest clientLine.toByteArray =
    Text.lit "faf2bafd8705d4ad4747d620c2acf808677f754a713bc68ece14b50c579d4392" := by decide

theorem hidden_client : isHidden (Text.lit "a.jsonl") = false := by decide

/-- The name with the digest of the client's raw file before it. -/
def clientTarget : Text := Text.lit "faf2bafd_a.jsonl"

theorem prefixedName_client :
    prefixedName (Text.lit "a.jsonl") (clientEnv.sha256 clientLine.toByteArray) =
      clientTarget := by
  rw [show clientEnv.sha256 clientLine.toByteArray = _ from clientDigest_raw]
  decide

theorem hidden_prefixed_client : isHidden (prefixedName (Text.lit "a.jsonl")
    (clientEnv.sha256 clientLine.toByteArray)) = false := by
  rw [prefixedName_client]
  decide

-- ---------------------------------------------------------------------------
-- One line in two files
-- ---------------------------------------------------------------------------

/-- Another upstream's file has the name of the client's raw file. -/
def heldMount : Mount := clientMount (AList.singleton (Text.lit "a.jsonl") otherFile)

/-- The run was cut off after the rename to the prefixed name. -/
def cutMount : Mount :=
  heldMount.setShelf ((heldMount.host.inbox.write (tmpName clientTarget) clientData).rename
    (tmpName clientTarget) clientTarget) .inbox

theorem turn_cut : turn clientEnv (Text.lit "a.jsonl") clientLine.toByteArray heldMount
    (.process 0 {} (some 2)) = some cutMount := by
  have hraw : heldMount.raw.read (Text.lit "a.jsonl") = some clientLine.toByteArray := rfl
  have hheld : heldMount.host.inbox.read (Text.lit "a.jsonl") = some otherFile := by
    decide
  have htarget : enrichedTarget heldMount.host.inbox (Text.lit "a.jsonl")
      (clientEnv.sha256 clientLine.toByteArray) clientData = clientTarget := by
    simp only [enrichedTarget, hheld, ne_eq, otherFile_ne_clientData, not_false_eq_true, if_true]
    exact prefixedName_client
  have hfree : heldMount.host.inbox.read clientTarget ≠ some clientData := by
    have hnone : heldMount.host.inbox.read clientTarget = none := by decide
    rw [hnone]
    exact (Option.some_ne_none _).symm
  exact turn_two hraw client_numbered encodeLines_client writes_client rfl htarget hfree

theorem cutMount_left : LeftAs clientEnv clientData cutMount clientTarget := by
  have hat : (heldMount.host.inbox.write (tmpName clientTarget) clientData).read
      (tmpName clientTarget) = some clientData := by
    rw [Folder.read_write, if_pos rfl]
  have hplaced : cutMount.host.inbox.read clientTarget = some clientData := by
    show ((heldMount.host.inbox.write (tmpName clientTarget) clientData).rename
      (tmpName clientTarget) clientTarget).read clientTarget = some clientData
    rw [Folder.read_rename hat, if_pos rfl]
  exact .inl ⟨clientData, hplaced, rfl⟩

/-- A pass for which the file under the prefixed name is too fresh. -/
def takingPass : Turn :=
  .pass { answering accepted with aged := (· = Text.lit "a.jsonl") } ⟨[[0]], [], [1]⟩ false

/-- The other upstream's file was ingested and archived, and nothing else. -/
structure OtherTaken (m : Mount) : Prop where
  plain : m.host.inbox.read (Text.lit "a.jsonl") = none
  files : m.host.db.files.rows.map (fun f => (f.filename, f.sha256)) =
    [(Text.lit "a.jsonl", clientEnv.sha256 otherFile)]
  raw : m.raw.read (Text.lit "a.jsonl") = some clientLine.toByteArray
  enriched : m.host.db.enrichedFiles.rows = []

theorem turn_taken : ∃ m, turn clientEnv (Text.lit "a.jsonl") clientLine.toByteArray cutMount
    takingPass = some m ∧ OtherTaken m := by
  have hpass : (turn clientEnv (Text.lit "a.jsonl") clientLine.toByteArray cutMount
      takingPass).map (fun m => (m.host.inbox.read (Text.lit "a.jsonl"),
        m.host.db.files.rows.map fun f => (f.filename, f.sha256),
        m.raw.read (Text.lit "a.jsonl"), m.host.db.enrichedFiles.rows.length)) =
      some (none, [(Text.lit "a.jsonl", clientEnv.sha256 otherFile)],
        some clientLine.toByteArray, 0) := by
    decide +kernel
  obtain ⟨m, htaken, hm⟩ := Option.map_eq_some_iff.mp hpass
  simp only [Prod.mk.injEq] at hm
  obtain ⟨hplain, hfiles, hraw, hrows⟩ := hm
  exact ⟨m, htaken, hplain, hfiles, hraw, List.length_eq_zero_iff.mp hrows⟩

namespace OtherTaken

variable {m : Mount}

theorem not_knows (h : OtherTaken m) (n : Text) :
    ¬m.host.intake.Knows n (clientEnv.sha256 clientData) := by
  rw [knows_iff]
  rintro ⟨f, hf, -, hfd⟩
  have hmem := List.mem_map_of_mem (f := fun f : FileRow => (f.filename, f.sha256)) hf
  rw [h.files, List.mem_singleton, Prod.mk.injEq] at hmem
  rw [hmem.2] at hfd
  exact otherFile_ne_clientData (clientEnv_inj _ hfd)

theorem readable (h : OtherTaken m) (hleft : LeftAs clientEnv clientData m clientTarget)
    (hn : OwnName (Text.lit "a.jsonl") (clientEnv.sha256 clientLine.toByteArray) n) :
    ReadableAs m n := by
  intro b hb
  rcases hn with rfl | rfl
  · rw [h.plain] at hb
    cases hb
  · rcases hleft with ⟨b', hb', hdigest⟩ | hknown
    · rw [prefixedName_client] at hb
      obtain rfl : b' = b := Option.some.inj (hb'.symm.trans hb)
      rw [clientEnv_inj b' hdigest]
      exact readable_enriched encodeLines_client
    · exact absurd hknown (h.not_knows _)

/-- The plain name is free now, and the data wait under the other one. -/
theorem not_clear (h : OtherTaken m) (hleft : LeftAs clientEnv clientData m clientTarget) :
    ¬Clear clientEnv (Text.lit "a.jsonl") clientLine.toByteArray clientData
      [(1, Text.lit clientLine)] m (.process 1 {} none) := by
  intro hclear
  refine hclear writes_client ?_ (by simp) ?_
  · rw [Db.getEnrichedByIdentity, h.enriched]
    rfl
  · rw [otherName, enrichedTarget, h.plain, if_pos rfl, prefixedName_client]
    exact hleft

end OtherTaken

/-- The client's raw file is processed while another upstream's file has its name, and the
run is cut off after the rename. A pass archives that file; the one under the prefixed name
is too fresh for it. The next run finds the plain name free, and one enriched line comes in
two files and in the records of both. -/
theorem enriched_twice : ∃ s sched m,
    Machine.run (turn clientEnv (Text.lit "a.jsonl") clientLine.toByteArray)
      (clientMount (AList.singleton (Text.lit "a.jsonl") otherFile))
      [.process 0 {} (some 2),
        .pass { answering accepted with aged := (· = Text.lit "a.jsonl") } ⟨[[0]],
          [], [1]⟩ false,
        .process 1 {} none, .pass s sched false] = some m ∧
    enrichedOf clientEnv [(1, Text.lit clientLine)] ≠ [] ∧
    ∃ f ∈ m.host.db.files.rows, ∃ g ∈ m.host.db.files.rows, f.id ≠ g.id ∧
      linesOf m.host.db f.id = (enrichedOf clientEnv [(1, Text.lit clientLine)]).zipIdx 1 ∧
      linesOf m.host.db g.id = (enrichedOf clientEnv [(1, Text.lit clientLine)]).zipIdx 1 := by
  obtain ⟨m, htaken, hm⟩ := turn_taken
  have hlinked : Linked m.host.db := Linked.turn (by rintro r ⟨⟩) client_numbered
    encodeLines_client (m := cutMount) htaken
  have hleft : LeftAs clientEnv clientData m clientTarget :=
    cutMount_left.turn client_numbered encodeLines_client hidden_prefixed_client
      (.inr prefixedName_client.symm) (by rintro r ⟨⟩) htaken
  have hagain : turn clientEnv (Text.lit "a.jsonl") clientLine.toByteArray m
      (.process 1 {} none) = some (attempt { clientEnv with utcnow := 1 } m
        (Text.lit "a.jsonl") clientLine.toByteArray {} none) := by
    simp only [turn, hm.raw, if_true]
  obtain ⟨s, sched, out, hout, hrows⟩ :=
    comes_twice client_numbered encodeLines_client hidden_client hidden_prefixed_client
      clientEnv_inj hlinked hm.not_knows (fun _ => hm.readable hleft) hagain
      (hm.not_clear hleft)
  have hrest : Machine.run (turn clientEnv (Text.lit "a.jsonl") clientLine.toByteArray)
      cutMount [takingPass, .process 1 {} none, .pass s sched false] = some out := by
    rw [Machine.run_cons, htaken, Option.bind_some, Machine.run_cons, hagain, Option.bind_some,
      Machine.run_cons, hout, Option.bind_some, Machine.run_nil]
  refine ⟨s, sched, out, ?_, writes_client.lines, hrows⟩
  rw [Machine.run_cons]
  exact (congrArg (Option.bind · _) turn_cut).trans hrest

-- ---------------------------------------------------------------------------
-- A run that is cut off before it leaves anything
-- ---------------------------------------------------------------------------

/-- The run was cut off before the rename. -/
def firstMount : Mount :=
  attempt { clientEnv with utcnow := 0 } (clientMount ∅) (Text.lit "a.jsonl")
    clientLine.toByteArray {} (some 1)

def lastMount : Mount :=
  attempt { clientEnv with utcnow := 1 } firstMount (Text.lit "a.jsonl")
    clientLine.toByteArray {} none

theorem firstMount_attempted : Attempted clientEnv (Text.lit "a.jsonl") clientLine.toByteArray
    clientData [(1, Text.lit clientLine)] (clientMount ∅) firstMount (some 1) :=
  attempted_at (clientMount ∅) 0 {} (some 1) client_numbered encodeLines_client

theorem lastMount_attempted : Attempted clientEnv (Text.lit "a.jsonl") clientLine.toByteArray
    clientData [(1, Text.lit clientLine)] firstMount lastMount none :=
  attempted_at firstMount 1 {} none client_numbered encodeLines_client

theorem turn_first : turn clientEnv (Text.lit "a.jsonl") clientLine.toByteArray (clientMount ∅)
    (.process 0 {} (some 1)) = some firstMount := by
  have hraw : (clientMount ∅).raw.read (Text.lit "a.jsonl") = some clientLine.toByteArray := rfl
  simp only [turn, hraw, if_true]
  rfl

theorem turn_last : turn clientEnv (Text.lit "a.jsonl") clientLine.toByteArray firstMount
    (.process 1 {} none) = some lastMount := by
  have hraw : firstMount.raw.read (Text.lit "a.jsonl") = some clientLine.toByteArray := by
    decide +kernel
  simp only [turn, hraw, if_true]
  rfl

theorem run_client : Machine.run (turn clientEnv (Text.lit "a.jsonl") clientLine.toByteArray)
    (clientMount ∅) [.process 0 {} (some 1), .process 1 {} none] = some lastMount := by
  simp only [Machine.run_cons, turn_first, turn_last, Option.bind_some, Machine.run_nil]

theorem not_left_client (n : Text) : ¬LeftAs clientEnv clientData (clientMount ∅) n := by
  rintro (⟨b, hb, -⟩ | hknown)
  · have hb : (clientMount ∅).host.inbox.read n = some b := hb
    rw [show (clientMount ∅).host.inbox.read n = none from Folder.read_empty] at hb
    cases hb
  · obtain ⟨f, hf, -⟩ := knows_iff.mp hknown
    cases hf

theorem not_left_first
    (hn : OwnName (Text.lit "a.jsonl") (clientEnv.sha256 clientLine.toByteArray) n) :
    ¬LeftAs clientEnv clientData firstMount n := by
  rcases firstMount_attempted.left hidden_prefixed_client hn with hiff | ⟨-, -, -, -, hcut⟩
  · exact fun hleft => not_left_client n (hiff.mp hleft)
  · exact absurd (hcut 1 rfl) (by decide)

theorem readable_last
    (hn : OwnName (Text.lit "a.jsonl") (clientEnv.sha256 clientLine.toByteArray) n) :
    ReadableAs lastMount n := by
  have hstart : ReadableAs (clientMount ∅) n := by
    intro b hb
    rw [show (clientMount ∅).host.inbox.read n = none from Folder.read_empty] at hb
    cases hb
  exact lastMount_attempted.readable encodeLines_client hidden_prefixed_client hn
    (firstMount_attempted.readable encodeLines_client hidden_prefixed_client hn hstart)

theorem along_client : Machine.Along
    (turn clientEnv (Text.lit "a.jsonl") clientLine.toByteArray)
    (Clear clientEnv (Text.lit "a.jsonl") clientLine.toByteArray clientData
      [(1, Text.lit clientLine)]) (clientMount ∅)
    [.process 0 {} (some 1), .process 1 {} none] := by
  refine ⟨fun _ _ hcut => absurd (hcut 1 rfl) (by decide),
    fun m hm => ⟨?_, fun _ _ => trivial⟩⟩
  obtain rfl := Option.some.inj (turn_first.symm.trans hm)
  exact fun _ _ _ => not_left_first (ownName_other _ _ _ _)

theorem enriched_once_client : ∃ m s sched out,
    Machine.run (turn clientEnv (Text.lit "a.jsonl") clientLine.toByteArray) (clientMount ∅)
      [.process 0 {} (some 1), .process 1 {} none] = some m ∧
    Once clientEnv (Text.lit "a.jsonl") clientLine.toByteArray clientData
      [(1, Text.lit clientLine)] (clientMount ∅) m ∧
    SeenBy clientEnv (Text.lit "a.jsonl") clientLine.toByteArray m s sched out ∧
    Once clientEnv (Text.lit "a.jsonl") clientLine.toByteArray clientData
      [(1, Text.lit clientLine)] (clientMount ∅) { m with host := out.host } ∧
    ∃ f ∈ out.host.db.files.rows,
      Bears clientEnv (Text.lit "a.jsonl") clientLine.toByteArray clientData f := by
  have hlinked : Linked (clientMount ∅).host.db := by rintro r ⟨⟩
  obtain ⟨honce, hfound, -⟩ :=
    enriched_once client_numbered encodeLines_client hidden_client hidden_prefixed_client
      clientEnv_inj hlinked (by rintro f ⟨⟩) (fun h => not_left_client _ h.1) _ lastMount
      run_client along_client
  obtain ⟨s, sched, out, hseen⟩ := exists_seenBy (m := lastMount) clientEnv fun _ => readable_last
  have hprocessed : Processed clientEnv (Text.lit "a.jsonl") clientLine.toByteArray
      [(1, Text.lit clientLine)] (clientMount ∅)
      [.process 0 {} (some 1), .process 1 {} none] := ⟨rfl, writes_client, 1, {}, by simp⟩
  exact ⟨lastMount, s, sched, out, run_client, honce, hseen, hfound hprocessed s sched out hseen⟩

end UbkiUploader
