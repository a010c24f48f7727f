import UbkiUploader.Enricher.PackageLaws

/-!
# What a run of process_file comes to

The two loops and what stands between them come to one outcome for each line of the
file, and a batch is these outcomes, in order.
-/

namespace UbkiUploader

variable (env : EnrichEnv) {rows : Rows} {peers : Peers} {u : Ucd}

-- ---------------------------------------------------------------------------
-- Outcomes
-- ---------------------------------------------------------------------------

def lineOutcome (rows : Rows) (peers : Peers) (raw : Text) : Except Halt (Subject × DocStats) :=
  lineObject env raw >>= enrichLine env.ucd env.config rows peers

def enrichedText : Except Halt (Subject × DocStats) → Option Text
  | .ok made => some made.1.dumps
  | .error _ => none

def quarantineRecord (line : Nat × Text) :
    Except Halt (Subject × DocStats) → Option QuarantineRecord
  | .error (.quarantine reason) => some ⟨line.1, reason, line.2⟩
  | _ => none

/-- The `dlref`s that a line asks for. -/
def lineAsks (raw : Text) : List Text :=
  match lineObject env raw with
  | .ok obj =>
    match lineDlrefs env.ucd obj with
    | .ok dlrefs => dlrefs
    | .error _ => []
  | .error _ => []

def fileRows (numbered : List (Nat × Text)) : Rows :=
  fetchRows env (numbered.flatMap fun line => lineAsks env line.2)

def filePeers (numbered : List (Nat × Text)) : Peers :=
  match clientsMissingIssuer env.ucd (fileRows env numbered) with
  | .ok need => fetchPeers env need
  | .error _ => fun _ => []

/-- What becomes of a line among the lines of a file. -/
def fileOutcome (numbered : List (Nat × Text)) (raw : Text) : Except Halt (Subject × DocStats) :=
  lineOutcome env (fileRows env numbered) (filePeers env numbered) raw

def Parses (raw : Text) : Prop :=
  (∀ e, lineObject env raw ≠ .error (.raise e)) ∧
    ∀ obj, lineObject env raw = .ok obj → ∀ e, lineDlrefs env.ucd obj ≠ .error e

-- ---------------------------------------------------------------------------
-- The first loop
-- ---------------------------------------------------------------------------

variable {env}

structure Parsed.Keeps (env : EnrichEnv) (line : Nat × Text) (made : Parsed × List Text) :
    Prop where
  lineNo : made.1.lineNo = line.1
  raw : made.1.raw = line.2
  asks : made.2 = lineAsks env line.2
  outcome : ∀ rows peers, verdict env rows peers made.1.obj = lineOutcome env rows peers line.2

theorem parseLine_keeps (h : parseLine env line = .ok made) : Parsed.Keeps env line made := by
  unfold parseLine at h
  split at h
  · cases h
  · rename_i hobj
    cases h
    exact ⟨rfl, rfl, by rw [lineAsks, hobj], fun rows peers => by rw [lineOutcome, hobj]; rfl⟩
  · rename_i hobj
    obtain ⟨dlrefs, hdlrefs, h⟩ := Except.bind_eq_ok.mp h
    cases h
    exact ⟨rfl, rfl, by simp only [lineAsks, hobj, hdlrefs],
      fun rows peers => by rw [lineOutcome, hobj]; rfl⟩

theorem parseLine_isOk : (∃ made, parseLine env line = .ok made) ↔ Parses env line.2 := by
  unfold parseLine
  constructor
  · rintro ⟨made, h⟩
    split at h
    · cases h
    · rename_i hobj
      exact ⟨fun e he => by simp [hobj] at he, fun obj he => by simp [hobj] at he⟩
    · rename_i hobj
      obtain ⟨dlrefs, hdlrefs, -⟩ := Except.bind_eq_ok.mp h
      refine ⟨fun e he => by simp [hobj] at he, fun obj he e hd => ?_⟩
      rw [hobj] at he
      cases he
      rw [hdlrefs] at hd
      cases hd
  · rintro ⟨hno, hdeals⟩
    split
    · exact absurd ‹_› (hno _)
    · exact ⟨_, rfl⟩
    · rename_i obj hobj
      cases hdlrefs : lineDlrefs env.ucd obj with
      | error e => exact absurd hdlrefs (hdeals obj hobj e)
      | ok dlrefs => exact ⟨_, rfl⟩

theorem parsed_asks (h : List.Forall₂ (Parsed.Keeps env) numbered parsed) :
    parsed.flatMap (·.2) = numbered.flatMap fun line => lineAsks env line.2 := by
  induction h with
  | nil => rfl
  | cons hone _ ih => rw [List.flatMap_cons, List.flatMap_cons, hone.asks, ih]

-- ---------------------------------------------------------------------------
-- The second loop
-- ---------------------------------------------------------------------------

theorem enrichLines_eq_none {ps : List Parsed} :
    (enrichLines env rows peers ps b).2 = none ↔
      ∀ p ∈ ps, ∀ e, verdict env rows peers p.obj ≠ .error (.raise e) := by
  induction ps generalizing b with
  | nil => simp [enrichLines]
  | cons p ps ih =>
    rw [enrichLines, List.forall_mem_cons]
    split
    · rename_i e h
      exact iff_of_false (by simp) fun hall => hall.1 e h
    · rename_i h
      rw [ih]
      exact ⟨fun hall => ⟨fun e he => by simp [h] at he, hall⟩, fun hall => hall.2⟩
    · rename_i h
      rw [ih]
      exact ⟨fun hall => ⟨fun e he => by simp [h] at he, hall⟩, fun hall => hall.2⟩

theorem enrichLines_batch {ps : List Parsed} (h : (enrichLines env rows peers ps b).2 = none) :
    (enrichLines env rows peers ps b).1.enriched =
      b.enriched ++ ps.filterMap (fun p => enrichedText (verdict env rows peers p.obj)) ∧
    (enrichLines env rows peers ps b).1.quarantined =
      b.quarantined ++
        ps.filterMap fun p => quarantineRecord (p.lineNo,
          p.raw) (verdict env rows peers p.obj) := by
  induction ps generalizing b with
  | nil => simp [enrichLines]
  | cons p ps ih =>
    rw [enrichLines] at h ⊢
    split at h
    · cases h
    · rename_i hv
      obtain ⟨hen, hqu⟩ := ih h
      simp only [hen, hqu, List.filterMap_cons, hv, enrichedText, quarantineRecord,
        List.append_assoc, List.singleton_append, and_self]
    · rename_i hv
      obtain ⟨hen, hqu⟩ := ih h
      simp only [hen, hqu, List.filterMap_cons, hv, enrichedText, quarantineRecord,
        List.append_assoc, List.singleton_append, and_self]

-- ---------------------------------------------------------------------------
-- Both
-- ---------------------------------------------------------------------------

/-- The loops end without an exception exactly when every line parses, the clients can
be put in order and no line raises among the others. -/
theorem enrichAll_eq_none : (enrichAll env numbered summary).2 = none ↔
    (∀ line ∈ numbered, Parses env line.2) ∧
      (∃ need, clientsMissingIssuer env.ucd (fileRows env numbered) = .ok need) ∧
      ∀ line ∈ numbered, ∀ e, fileOutcome env numbered line.2 ≠ .error (.raise e) := by
  unfold enrichAll
  cases hparsed : numbered.mapM (parseLine env) with
  | error e =>
    refine iff_of_false (by simp) fun ⟨hparse, _⟩ => ?_
    have : ∃ parsed, numbered.mapM (parseLine env) = .ok parsed :=
      Except.mapM_isOk.mpr fun line hline => parseLine_isOk.mpr (hparse line hline)
    simp [hparsed] at this
  | ok parsed =>
    have hall := Except.mapM_eq_ok.mp hparsed
    have hkeeps := hall.imp fun _ _ => parseLine_keeps
    have hparse : ∀ line ∈ numbered, Parses env line.2 := fun line hline => by
      obtain ⟨made, -, hmade⟩ := hall.exists_right hline
      exact parseLine_isOk.mp ⟨made, hmade⟩
    have houtcome (rows : Rows) (peers : Peers) :
        (∀ p ∈ parsed.map (·.1), ∀ e, verdict env rows peers p.obj ≠ .error (.raise e)) ↔
          ∀ line ∈ numbered, ∀ e,
            lineOutcome env rows peers line.2 ≠ .error (.raise e) := by
      rw [List.forall_mem_map]
      constructor
      · intro h line hline
        obtain ⟨made, hmade, hkeep⟩ := hkeeps.exists_right hline
        exact hkeep.outcome rows peers ▸ h made hmade
      · intro h made hmade
        obtain ⟨line, hline, hkeep⟩ := hkeeps.exists_left hmade
        exact hkeep.outcome rows peers ▸ h line hline
    have hrows : fetchRows env (parsed.flatMap (·.2)) = fileRows env numbered := by
      rw [parsed_asks hkeeps, fileRows]
    simp only [hrows]
    rw [and_iff_right hparse]
    cases hneed : clientsMissingIssuer env.ucd (fileRows env numbered) with
    | error e => simp
    | ok need =>
      have hpeers : fetchPeers env need = filePeers env numbered := by simp only [filePeers, hneed]
      simp only [enrichLines_eq_none, houtcome, hpeers, Except.ok.injEq, exists_eq', true_and,
        fileOutcome]

theorem enrichAll_batch (h : (enrichAll env numbered summary).2 = none) :
    (enrichAll env numbered summary).1.enriched =
      numbered.filterMap (fun line => enrichedText (fileOutcome env numbered line.2)) ∧
    (enrichAll env numbered summary).1.quarantined =
      numbered.filterMap fun line => quarantineRecord line (fileOutcome env numbered line.2) := by
  unfold enrichAll at h ⊢
  cases hparsed : numbered.mapM (parseLine env) with
  | error e => simp [hparsed] at h
  | ok parsed =>
    have hkeeps := (Except.mapM_eq_ok.mp hparsed).imp fun _ _ => parseLine_keeps
    have hrows : fetchRows env (parsed.flatMap (·.2)) = fileRows env numbered := by
      rw [parsed_asks hkeeps, fileRows]
    simp only [hparsed, hrows] at h ⊢
    cases hneed : clientsMissingIssuer env.ucd (fileRows env numbered) with
    | error e => simp [hneed] at h
    | ok need =>
      have hpeers : fetchPeers env need = filePeers env numbered := by simp only [filePeers, hneed]
      simp only [hneed, hpeers] at h ⊢
      obtain ⟨hen, hqu⟩ := enrichLines_batch h
      rw [hen, hqu, List.nil_append, List.nil_append, List.filterMap_map, List.filterMap_map]
      refine ⟨(hkeeps.filterMap_congr fun line made hkeep => ?_).symm,
        (hkeeps.filterMap_congr fun line made hkeep => ?_).symm⟩
      · rw [Function.comp_apply, hkeep.outcome, fileOutcome]
      · rw [Function.comp_apply, hkeep.outcome, hkeep.lineNo, hkeep.raw, fileOutcome]

-- ---------------------------------------------------------------------------
-- Subjects
-- ---------------------------------------------------------------------------

theorem jsonLoads_within (h : jsonLoads env doc = .ok v) : Json.Within env.floats env.levels v := by
  unfold jsonLoads at h
  split at h
  · cases h
    exact Json.loads_within ‹_›
  · cases h
  · cases h

theorem lineObject_within (h : lineObject env raw = .ok obj) :
    Json.Within env.floats env.levels (.obj obj) := by
  obtain ⟨v, hv, h⟩ := Except.bind_eq_ok.mp h
  obtain ⟨inner, hinner, h⟩ := Except.bind_eq_ok.mp h
  have hv := jsonLoads_within hv
  have hwithin : Json.Within env.floats env.levels inner := by
    unfold unwrapQuarantine at hinner
    split at hinner
    · split at hinner
      · split at hinner
        · exact jsonLoads_within hinner
        · cases hinner
          exact Within.field hv ‹_›
        · cases hinner
      · cases hinner
        exact hv
    · cases hinner
      exact hv
  split at h
  · cases h
    exact hwithin
  · cases h

theorem lineOutcome_built (h : lineOutcome env rows peers raw = .ok (s, stats)) : s.Built env := by
  obtain ⟨line, hline, h⟩ := Except.bind_eq_ok.mp h
  exact ⟨rows, peers, line, stats, lineObject_within hline, h⟩

def fileSubjects (env : EnrichEnv) (numbered : List (Nat × Text)) : List Subject :=
  numbered.filterMap fun line => (fileOutcome env numbered line.2).toOption.map (·.1)

theorem fileSubjects_built : ∀ s ∈ fileSubjects env numbered, s.Built env := by
  intro s hs
  obtain ⟨line, -, hline⟩ := List.mem_filterMap.mp hs
  obtain ⟨made, hmade, rfl⟩ := Option.map_eq_some_iff.mp hline
  cases houtcome : fileOutcome env numbered line.2 with
  | error halt =>
    rw [houtcome] at hmade
    cases hmade
  | ok made' =>
    rw [houtcome] at hmade
    cases hmade
    exact lineOutcome_built houtcome

theorem enrichAll_enriched (h : (enrichAll env numbered summary).2 = none) :
    (enrichAll env numbered summary).1.enriched =
      (fileSubjects env numbered).map Subject.dumps := by
  rw [(enrichAll_batch h).1, fileSubjects, List.map_filterMap]
  refine List.filterMap_congr fun line _ => ?_
  cases fileOutcome env numbered line.2 <;> rfl

-- ---------------------------------------------------------------------------
-- Lines that are read
-- ---------------------------------------------------------------------------

theorem isValidChar_cp1251 (h : cp1251Char b = some c) : c.isValidChar := by
  have htable : cp1251Table.all (· < 0xD800) = true := rfl
  unfold cp1251Char at h
  split at h
  · cases h
    exact .inl (by omega)
  · split at h
    · cases h
    · split at h
      · have hc := List.all_eq_true.mp htable c (List.mem_of_getElem? h)
        exact .inl (of_decide_eq_true hc)
      · have hb := b.toNat_lt
        have hc : 0x410 + (b.toNat - 0xC0) = c := Option.some.inj h
        exact .inl (by omega)

theorem encodes_of_mapM {bs : List UInt8} {t : Text} (h : bs.mapM cp1251Char = some t) :
    t.Encodes := by
  induction bs generalizing t with
  | nil =>
    cases h
    exact List.forall_mem_nil _
  | cons b bs ih =>
    rw [List.mapM_cons] at h
    obtain ⟨c, hc, h⟩ := Option.bind_eq_some_iff.mp h
    obtain ⟨rest, hrest, h⟩ := Option.bind_eq_some_iff.mp h
    cases h
    exact List.forall_mem_cons.mpr ⟨isValidChar_cp1251 hc, ih hrest⟩

theorem encodes_of_decodeRaw (h : decodeRaw raw = some t) : t.Encodes := by
  rcases Option.or_eq_some_iff.mp h with h | ⟨-, h⟩
  · rw [Text.encodes_iff, Text.encodeUtf8_of_decodeUtf8 h]
    rfl
  · exact encodes_of_mapM h

-- ---------------------------------------------------------------------------
-- Lines that are written
-- ---------------------------------------------------------------------------

theorem isBlank_eq (line : Text) : isBlank line = !line.any (!Text.isSpace ·) := by
  rw [isBlank, Bool.eq_iff_iff, decide_eq_true_eq, Text.strip_eq_nil_iff]
  simp

theorem decodeUtf8_encodeLines (hne : lines ≠ []) (h : encodeLines lines = some data) :
    Text.decodeUtf8 data = some (Text.unlines lines) := by
  rw [encodeLines, Text.join_newline hne] at h
  exact Text.decodeUtf8_of_encodeUtf8 h

def IsLine (isBreak : Nat → Bool) (line : Text) : Prop :=
  isBlank line = false ∧ ∀ c ∈ line, isBreak c = false

theorem filter_breakLines_unlines {lines : List Text} (hnl : isBreak 10) (hcr : isBreak 13)
    (h : ∀ line ∈ lines, IsLine isBreak line) :
    (Text.breakLines isBreak (Text.unlines lines)).filter (!isBlank ·) = lines := by
  rw [Text.breakLines_unlines hnl hcr fun line hline => (h line hline).2, List.filter_eq_self]
  intro line hline
  rw [(h line hline).1]
  rfl

theorem readLines_encodeLines (h : encodeLines lines = some data)
    (hlines : ∀ line ∈ lines, IsLine Text.isNewline line) : readLines data = some lines := by
  by_cases hne : lines = []
  · rw [hne] at h ⊢
    rw [readLines, Text.decodeUtf8_of_encodeUtf8 h]
    rfl
  · rw [readLines, decodeUtf8_encodeLines hne h, Option.map_some,
      filter_breakLines_unlines rfl rfl hlines]

theorem encodeLines_isSome {lines : List Text} :
    (encodeLines lines).isSome ↔ ∀ line ∈ lines, (Text.encodeUtf8 line).isSome := by
  have hnl : ∀ c ∈ ([10] : Text), c.isValidChar := by decide
  simp only [encodeLines, Text.encodeUtf8_isSome_iff]
  rw [List.forall_mem_append, Text.forall_mem_join hnl, and_iff_left hnl]

/-- What `json.dumps` writes has no newline and is not blank. -/
theorem isLine_dumps {v : Json} (hv : v.Good F) (hs : seps.Ascii) :
    IsLine Text.isNewline (v.dumps seps) := by
  have hle := Json.le_of_mem_dumps hs hv
  constructor
  · obtain ⟨c, rest, hbegin, hws, -, -, hc⟩ := Json.begins_dumps seps hv
    rw [hbegin] at hle ⊢
    have h32 := hle c List.mem_cons_self
    simp only [Json.isWs, Bool.or_eq_false_iff, decide_eq_false_iff_not] at hws
    have hsolid : Text.isSpace c = false := by
      simp only [Text.isSpace, Bool.or_eq_false_iff, Bool.and_eq_false_iff, decide_eq_false_iff_not]
      omega
    rw [isBlank_eq, List.any_cons, hsolid]
    rfl
  · intro c hc
    have := hle c hc
    simp only [Text.isNewline, Bool.or_eq_false_iff, decide_eq_false_iff_not]
    omega

/-- In a record stand the characters of its reason and of its line, those below the blank
escaped. -/
theorem QuarantineRecord.forall_mem_dumps {P : Nat → Prop}
    (hascii : ∀ c, 32 ≤ c → c < 128 → P c)
    (r : QuarantineRecord) : (∀ c ∈ r.dumps u, P c) ↔
      (∀ c ∈ r.reason.text u, 32 ≤ c → P c) ∧ ∀ c ∈ r.line, 32 ≤ c → P c := by
  have hof (t : Text) (h : ∀ c ∈ t, 32 ≤ c ∧ c < 128) : (∀ c ∈ t, P c) ∧
    ∀ c ∈ t, 32 ≤ c → P c :=
    ⟨fun c hc => hascii c (h c hc).1 (h c hc).2, fun c hc _ => hascii c (h c hc).1 (h c hc).2⟩
  have hitem := (hof _ Json.Separators.standard_ascii.1).1
  have hkey := (hof _ Json.Separators.standard_ascii.2).1
  have hno := (hof (Text.ofInt r.lineNo) (Json.ofInt_ascii _)).1
  have hkeys := (hof (Text.lit "line_no") (by decide)).2
  have hreason := (hof (Text.lit "reason") (by decide)).2
  have hline := (hof (Text.lit "line") (by decide)).2
  have hopen : P 123 := hascii 123 (by decide) (by decide)
  have hclose : P 125 := hascii 125 (by decide) (by decide)
  simp only [dumps, toJson, Json.dumps, Json.dumpsFields, List.cons_append, List.forall_mem_cons,
    List.forall_mem_append, Text.forall_mem_join hitem, Json.forall_mem_quote hascii,
      List.not_mem_nil,
    false_implies, implies_true, and_true]
  constructor
  · rintro ⟨-, ⟨-, ⟨-, h⟩, -, h'⟩, -⟩
    exact ⟨h, h'⟩
  · rintro ⟨h, h'⟩
    exact ⟨hopen, ⟨⟨⟨hkeys, hkey⟩, hno⟩, ⟨⟨hreason, hkey⟩, h⟩,
      ⟨hline, hkey⟩, h'⟩, hclose⟩

theorem QuarantineRecord.isLine_dumps (r : QuarantineRecord) :
    IsLine Text.isNewline (r.dumps u) := by
  have hle : ∀ c ∈ r.dumps u, 32 ≤ c :=
    (r.forall_mem_dumps fun _ h _ => h).mpr ⟨fun _ _ h => h, fun _ _ h => h⟩
  constructor
  · rw [isBlank_eq, dumps, toJson, Json.dumps, List.cons_append, List.any_cons]
    rfl
  · intro c hc
    have := hle c hc
    simp only [Text.isNewline, Bool.or_eq_false_iff, decide_eq_false_iff_not]
    omega

-- ---------------------------------------------------------------------------
-- What is written where
-- ---------------------------------------------------------------------------

@[simp] theorem Mount.shelf_setShelf (m : Mount) (folder : Folder Text) (s s' : Shelf) :
    (m.setShelf folder s).shelf s' = if s' = s then folder else m.shelf s' := by
  cases s <;> cases s' <;> rfl

@[simp] theorem Mount.setShelf_shelf (m : Mount) (s : Shelf) : m.setShelf (m.shelf s) s = m := by
  cases s <;> rfl

@[simp] theorem Mount.setShelf_setShelf (m : Mount) (folder folder' : Folder Text) (s : Shelf) :
    (m.setShelf folder s).setShelf folder' s = m.setShelf folder' s := by
  cases s <;> rfl

@[simp] theorem Mount.setShelf_db (m : Mount) (folder : Folder Text) (s : Shelf) :
    (m.setShelf folder s).host.db = m.host.db := by
  cases s <;> rfl

def written (folder : Folder Text) (target : Text) (data : ByteArray) : Folder Text :=
  if folder.read target = some data then folder
  else (folder.write (tmpName target) data).rename (tmpName target) target

theorem foldl_writeAtomic (m : Mount) (s : Shelf) (target : Text) (data : ByteArray) :
    (writeAtomic s (m.shelf s) target data).foldl FileEffect.apply m =
      m.setShelf (written (m.shelf s) target data) s := by
  unfold writeAtomic written
  split
  · exact (m.setShelf_shelf s).symm
  · simp only [List.foldl_cons, List.foldl_nil, FileEffect.apply, Mount.shelf_setShelf, if_true,
      Mount.setShelf_setShelf]

theorem read_written (folder : Folder Text) (target : Text) (data : ByteArray) :
    (written folder target data).read target = some data := by
  unfold written
  split
  · assumption
  · have htmp : (folder.write (tmpName target) data).read (tmpName target) = some data := by
      rw [Folder.read_write, if_pos rfl]
    exact (Folder.read_rename htmp).trans (if_pos rfl)

-- ---------------------------------------------------------------------------
-- The run
-- ---------------------------------------------------------------------------

theorem processFile_cases (env : EnrichEnv) (m : Mount) (name : Text) (raw : ByteArray)
    (summary : EnrichSummary) (dryRun : Bool) :
    (processFile env m name raw summary dryRun).effects = [] ∨
      ∃ numbered, readNumberedLines raw = some numbered ∧
        (enrichAll env numbered (summary.discovered numbered)).2 = none ∧
        processFile env m name raw summary dryRun =
          writeOut env m name (env.sha256 raw) numbered.length
            (enrichAll env numbered (summary.discovered numbered)).1 := by
  unfold processFile
  simp only
  split
  · exact .inl rfl
  · split
    · exact .inl rfl
    · rename_i numbered hnumbered
      split
      · exact .inl rfl
      · split
        · exact .inl rfl
        · rename_i b hb
          exact .inr ⟨numbered, hnumbered, by rw [hb], by rw [hb]⟩

theorem mem_writeAtomic (h : effect ∈ writeAtomic shelf folder target data) :
    effect = .write shelf (tmpName target) data ∨
    effect = .rename shelf (tmpName target) target := by
  unfold writeAtomic at h
  split at h
  · cases h
  · simpa using h

/-- What is written into the inbox are the packages of the subjects, a line each. -/
theorem processFile_inbox
    (h : .write .inbox tmp data ∈ (processFile env m name raw summary dryRun).effects) :
    ∃ subjects : List Subject, subjects ≠ [] ∧ (∀ s ∈ subjects, s.Built env) ∧
      encodeLines (subjects.map Subject.dumps) = some data := by
  rcases processFile_cases env m name raw summary dryRun with hnone | ⟨numbered, -, hok, hrun⟩
  · rw [hnone] at h
    cases h
  suffices fileSubjects env numbered ≠ [] ∧
      encodeLines ((fileSubjects env numbered).map Subject.dumps) = some data from
    ⟨fileSubjects env numbered, this.1, fileSubjects_built, this.2⟩
  rw [hrun, writeOut] at h
  have hinbox {effects : List FileEffect} {folder : Folder Text} {sha : Text}
      (heffects : enrichedEffects folder name sha
        (enrichAll env numbered (summary.discovered numbered)).1.enriched = some effects)
      (h : .write .inbox tmp data ∈ effects) : fileSubjects env numbered ≠ [] ∧
        encodeLines ((fileSubjects env numbered).map Subject.dumps) = some data := by
    rw [enrichAll_enriched hok, enrichedEffects] at heffects
    split at heffects
    · cases heffects
      cases h
    · rename_i hne
      obtain ⟨bytes, hbytes, rfl⟩ := Option.map_eq_some_iff.mp heffects
      rcases mem_writeAtomic h with heq | heq
      · cases heq
        exact ⟨fun hnil => hne (by rw [hnil]; rfl), hbytes⟩
      · cases heq
  split at h
  · cases h
  · rename_i inbox heffects
    split at h
    · exact hinbox heffects h
    · rename_i quarantine hquarantine
      simp only [List.mem_append, List.mem_cons, List.not_mem_nil, or_false] at h
      rcases h with (h | h) | h | h
      · exact hinbox heffects h
      · unfold quarantineEffects at hquarantine
        split at hquarantine
        · cases hquarantine
          cases h
        · obtain ⟨bytes, -, rfl⟩ := Option.map_eq_some_iff.mp hquarantine
          rcases mem_writeAtomic h with heq | heq <;> cases heq
      · cases h
      · cases h

end UbkiUploader
