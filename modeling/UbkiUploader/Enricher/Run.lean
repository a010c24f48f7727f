import UbkiUploader.Enricher.Accounted

/-!
# A run of the enricher (app/enricher.py, `run_enrich`)

A run takes the raw files that a scan finds one after the other. What a file raises is
recorded, and the next file is taken: every file fares as it would alone, and the report
adds up what the files say for themselves.
-/

namespace UbkiUploader

structure EnrichSite extends EnrichEnv where
  /-- `fnmatch(path.name, config.file_glob)` -/
  globbed : Text → Bool
  /-- The file was last modified before the cutoff. -/
  aged : Text → Bool
  /-- The time when the file is through. -/
  clock : Text → Timestamp
  /-- `str(exc)` for what the file raised. -/
  errorText : ByteArray → PyError → Text
  /-- `str(exc)` for a file that is gone. -/
  missingText : Text → Text

/-- `EnrichSummary`, with the counters of `scan_folder` and `run_enrich`. -/
structure EnrichReport extends EnrichSummary where
  dryRun : Bool := false
  filesSeen : Nat := 0
  filesSkipped : Nat := 0
  errors : List Text := []

structure EnrichRun where
  mount : Mount
  report : EnrichReport
  log : List FileEffect := []

/-- `scan_folder` on the raw folder. -/
def scanRaw (s : EnrichSite) (raw : Folder Text) : List Text :=
  (raw.keys.filter fun name => !isHidden name && s.globbed name &&
    s.aged name).insertionSort (· ≤ ·)

/-- The `files_skipped` of a scan. -/
def skippedRaw (s : EnrichSite) (raw : Folder Text) : Nat :=
  raw.keys.countP fun name => !isHidden name && !s.globbed name

def EnrichSite.env (s : EnrichSite) (name : Text) : EnrichEnv :=
  { s.toEnrichEnv with utcnow := s.clock name }

def EnrichReport.fail (r : EnrichReport) (name error : Text) : EnrichReport :=
  { r with errors := r.errors ++ [name ++ Text.lit ": " ++ error] }

/-- One turn of the loop in `run_enrich`. -/
def enrichFile (s : EnrichSite) (r : EnrichRun) (name : Text) : EnrichRun :=
  match r.mount.raw.read name with
  | none => { r with report := r.report.fail name (s.missingText name) }
  | some raw =>
    let out := processFile (s.env name) r.mount name raw r.report.toEnrichSummary r.report.dryRun
    let report := { r.report with toEnrichSummary := out.summary }
    { mount := out.effects.foldl FileEffect.apply r.mount
      log := r.log ++ out.effects
      report := match out.raised with
        | none => report
        | some e => report.fail name (s.errorText raw e) }

/-- `run_enrich`, for a raw folder that is there and a lock that is free. -/
def runEnrich (s : EnrichSite) (dryRun : Bool) (m : Mount) : EnrichRun :=
  let names := scanRaw s m.raw
  names.foldl (enrichFile s) {
    mount := m
    report := { dryRun, filesSeen := names.length, filesSkipped := skippedRaw s m.raw } }

variable {env : EnrichEnv} {s : EnrichSite} {m m' : Mount} {name n : Text} {raw : ByteArray}
  {dryRun : Bool} {numbered : List (Nat × Text)}

-- ---------------------------------------------------------------------------
-- Counting on
-- ---------------------------------------------------------------------------

def EnrichSummary.add (a b : EnrichSummary) : EnrichSummary where
  filesProcessed := a.filesProcessed + b.filesProcessed
  filesEmpty := a.filesEmpty + b.filesEmpty
  linesTotal := a.linesTotal + b.linesTotal
  linesEnriched := a.linesEnriched + b.linesEnriched
  linesQuarantined := a.linesQuarantined + b.linesQuarantined
  linesIssuerFromPeer := a.linesIssuerFromPeer + b.linesIssuerFromPeer
  linesDocIncomplete := a.linesDocIncomplete + b.linesDocIncomplete
  quarantineReasons := a.quarantineReasons ++ b.quarantineReasons

namespace EnrichSummary

@[simp] theorem add_empty (a : EnrichSummary) : a.add {} = a := by simp [add]

theorem add_count (a b : EnrichSummary) (stats : DocStats) :
    (a.add b).count stats = a.add (b.count stats) := by
  simp only [add, count, Nat.add_assoc]

theorem add_discovered (a b : EnrichSummary) (numbered : List (Nat × Text)) :
    (a.add b).discovered numbered = a.add (b.discovered numbered) := by
  simp only [add, discovered, Nat.add_assoc]

end EnrichSummary

theorem enrichLines_add {ps : List Parsed} (a : EnrichSummary) (b : Batch) :
    enrichLines env rows peers ps { b with summary := a.add b.summary } =
      ({ (enrichLines env rows peers ps b).1 with
          summary := a.add (enrichLines env rows peers ps b).1.summary },
        (enrichLines env rows peers ps b).2) := by
  induction ps generalizing b with
  | nil => rfl
  | cons p ps ih =>
    simp only [enrichLines]
    split
    · rfl
    · rename_i reason hv
      exact ih { b with quarantined := b.quarantined ++ [⟨p.lineNo, reason, p.raw⟩] }
    · rename_i subject stats hv
      rw [EnrichSummary.add_count]
      exact ih
        { b with
          enriched := b.enriched ++ [subject.dumps]
          summary := b.summary.count stats }

theorem enrichAll_add (a b : EnrichSummary) :
    enrichAll env numbered (a.add b) =
      ({ (enrichAll env numbered b).1 with summary := a.add (enrichAll env numbered b).1.summary },
        (enrichAll env numbered b).2) := by
  unfold enrichAll
  split
  · rfl
  · simp only
    split
    · rfl
    · exact enrichLines_add a { summary := b }

theorem writeOut_add (a : EnrichSummary) (b : Batch) :
    writeOut env m name sha total { b with summary := a.add b.summary } =
      { writeOut env m name sha total b with
        summary := a.add (writeOut env m name sha total b).summary } := by
  unfold writeOut
  simp only
  split
  · rfl
  · split
    · rfl
    · simp only [EnrichSummary.add, Nat.add_assoc, List.append_assoc]

theorem processFile_add (a b : EnrichSummary) :
    processFile env m name raw (a.add b) dryRun =
      { processFile env m name raw b dryRun with
        summary := a.add (processFile env m name raw b dryRun).summary } := by
  unfold processFile
  simp only
  split
  · rfl
  · split
    · rfl
    · rename_i numbered hnumbered
      rw [EnrichSummary.add_discovered]
      split
      · rfl
      · rw [enrichAll_add]
        cases enrichAll env numbered (b.discovered numbered) with
        | mk batch raised =>
          cases raised with
          | some e => rfl
          | none => exact writeOut_add a batch

-- ---------------------------------------------------------------------------
-- Other files
-- ---------------------------------------------------------------------------

theorem writeOut_told (m m' : Mount) (name sha : Text) (total : Nat) (b : Batch) :
    (writeOut env m name sha total b).raised = (writeOut env m' name sha total b).raised ∧
      (writeOut env m name sha total b).summary = (writeOut env m' name sha total b).summary := by
  have hinbox : (enrichedEffects m.host.inbox name sha b.enriched).isSome ↔
      (enrichedEffects m'.host.inbox name sha b.enriched).isSome :=
    (effects_isSome _).trans (effects_isSome _).symm
  have hquarantine :
    (quarantineEffects m.quarantine name sha (b.quarantined.map (·.dumps env.ucd))).isSome ↔
      (quarantineEffects m'.quarantine name sha (b.quarantined.map (·.dumps env.ucd))).isSome :=
    (effects_isSome _).trans (effects_isSome _).symm
  unfold writeOut
  cases hi : enrichedEffects m.host.inbox name sha b.enriched <;>
    cases hi' : enrichedEffects m'.host.inbox name sha b.enriched <;> simp [hi, hi'] at hinbox ⊢
  cases hq : quarantineEffects m.quarantine name sha (b.quarantined.map (·.dumps env.ucd)) <;>
    cases hq' : quarantineEffects m'.quarantine name sha (b.quarantined.map (·.dumps env.ucd)) <;>
      simp [hq, hq'] at hquarantine ⊢

theorem processFile_told (hknown : m'.host.db.getEnrichedByIdentity name (env.sha256 raw) =
      m.host.db.getEnrichedByIdentity name (env.sha256 raw)) (summary : EnrichSummary) :
    (processFile env m' name raw summary dryRun).raised =
        (processFile env m name raw summary dryRun).raised ∧
      (processFile env m' name raw summary dryRun).summary =
        (processFile env m name raw summary dryRun).summary := by
  unfold processFile
  simp only [hknown]
  split
  · exact ⟨rfl, rfl⟩
  · split
    · exact ⟨rfl, rfl⟩
    · split
      · exact ⟨rfl, rfl⟩
      · split
        · exact ⟨rfl, rfl⟩
        · exact writeOut_told m' m _ _ _ _

def FileEffect.Of (name : Text) : FileEffect → Prop
  | .write .. => True
  | .rename .. => True
  | .toProcessed n _ => n = name
  | .insertEnriched n .. => n = name

theorem of_writeAtomic (he : e ∈ writeAtomic shelf folder target data) :
    FileEffect.Of name e := by
  rcases mem_writeAtomic he with rfl | rfl
  · trivial
  · trivial

theorem processFile_of (he : e ∈ (processFile env m name raw summary dryRun).effects) :
    FileEffect.Of name e := by
  have hwrites {shelf : Shelf} {folder : Folder Text} {target : ByteArray →
    Text} {lines : List Text}
      {fx : List FileEffect} (hfx : (if lines = [] then some [] else
        (encodeLines lines).map fun data => writeAtomic shelf folder (target data) data) =
          some fx) :
      ∀ e ∈ fx, FileEffect.Of name e := by
    split at hfx
    · cases hfx
      simp
    · obtain ⟨data, -, rfl⟩ := Option.map_eq_some_iff.mp hfx
      exact fun e => of_writeAtomic
  rcases processFile_cases env m name raw summary dryRun with hnone | ⟨numbered, -, -, hrun⟩
  · rw [hnone] at he
    cases he
  · rw [hrun, writeOut] at he
    split at he
    · cases he
    · rename_i inbox hinbox
      split at he
      · exact hwrites hinbox e he
      · rename_i quarantine hquarantine
        simp only [List.mem_append, List.mem_cons, List.not_mem_nil, or_false] at he
        rcases he with (he | he) | rfl | rfl
        · exact hwrites hinbox e he
        · exact hwrites hquarantine e he
        · rfl
        · rfl

structure Aside (n : Text) (m m' : Mount) : Prop where
  raw : m'.raw.read n = m.raw.read n
  known : ∀ sha, m'.host.db.getEnrichedByIdentity n sha = m.host.db.getEnrichedByIdentity n sha

theorem Aside.trans (h : Aside n m m') (h' : Aside n m' m'') : Aside n m m'' where
  raw := h'.raw.trans h.raw
  known sha := (h'.known sha).trans (h.known sha)

theorem FileEffect.Of.aside {e : FileEffect} (he : e.Of name) (hne : n ≠ name) (m : Mount) :
    Aside n m (e.apply m) := by
  cases e with
  | write shelf => cases shelf <;> exact ⟨rfl, fun _ => rfl⟩
  | rename shelf => cases shelf <;> exact ⟨rfl, fun _ => rfl⟩
  | toProcessed n' target =>
    obtain rfl := he
    refine ⟨?_, fun _ => rfl⟩
    show (m.raw.move m.processed n' target).1.read n = _
    unfold Folder.move
    split
    · rfl
    · rw [Folder.read_remove, if_neg hne]
  | insertEnriched n' =>
    obtain rfl := he
    refine ⟨rfl, fun sha => ?_⟩
    simp [FileEffect.apply, Db.getEnrichedByIdentity, Db.insertEnrichedFile, Table.insert,
      Db.newEnriched, Ne.symm hne]

theorem foldl_aside {fx : List FileEffect} (hfx : ∀ e ∈ fx, FileEffect.Of name e)
    (hne : n ≠ name)
    (m : Mount) : Aside n m (fx.foldl FileEffect.apply m) := by
  induction fx generalizing m with
  | nil => exact ⟨rfl, fun _ => rfl⟩
  | cons e fx ih =>
    exact ((hfx e List.mem_cons_self).aside hne m).trans
      (ih (fun e he => hfx e (List.mem_cons_of_mem _ he)) _)

-- ---------------------------------------------------------------------------
-- One file
-- ---------------------------------------------------------------------------

def FileEffect.shelves : FileEffect → Bool
  | .write .. => true
  | .rename .. => true
  | _ => false

theorem foldl_shelves {fx : List FileEffect} (hfx : ∀ e ∈ fx, FileEffect.shelves e = true)
    (m : Mount) :
    (fx.foldl FileEffect.apply m).raw = m.raw ∧
      (fx.foldl FileEffect.apply m).processed = m.processed ∧
      (fx.foldl FileEffect.apply m).host.db = m.host.db := by
  induction fx generalizing m with
  | nil => exact ⟨rfl, rfl, rfl⟩
  | cons e fx ih =>
    obtain ⟨hraw, hprocessed, hdb⟩ :=
      ih (fun e he => hfx e (List.mem_cons_of_mem _ he)) (e.apply m)
    have he := hfx e List.mem_cons_self
    rw [List.foldl_cons, hraw, hprocessed, hdb]
    cases e with
    | write shelf => cases shelf <;> exact ⟨rfl, rfl, rfl⟩
    | rename shelf => cases shelf <;> exact ⟨rfl, rfl, rfl⟩
    | _ => cases he

theorem shelves_writes {shelf : Shelf} {folder : Folder Text} {target : ByteArray → Text}
    {lines : List Text} {fx : List FileEffect} (hfx : (if lines = [] then some [] else
      (encodeLines lines).map fun data => writeAtomic shelf folder (target data) data) = some fx) :
    ∀ e ∈ fx, FileEffect.shelves e = true := by
  split at hfx
  · cases hfx
    simp
  · obtain ⟨data, -, rfl⟩ := Option.map_eq_some_iff.mp hfx
    intro e he
    rcases mem_writeAtomic he with rfl | rfl
    · rfl
    · rfl

def Batch.closed (u : Ucd) (name : Text) (b : Batch) : EnrichSummary :=
  { b.summary with
    linesEnriched := b.summary.linesEnriched + b.enriched.length
    linesQuarantined := b.summary.linesQuarantined + b.quarantined.length
    quarantineReasons := b.summary.quarantineReasons ++ b.quarantined.map fun r =>
      name ++ Text.lit ":" ++ Text.ofNat r.lineNo ++ Text.lit ": " ++ r.reason.text u }

/-- Writing fails before the raw file is moved, or the file is moved and entered. -/
theorem writeOut_cases (m : Mount) (name sha : Text) (total : Nat) (b : Batch) :
    ((∃ e, (writeOut env m name sha total b).raised = some e) ∧
      (∀ e ∈ (writeOut env m name sha total b).effects, FileEffect.shelves e = true) ∧
      (writeOut env m name sha total b).summary = b.summary) ∨
    ((writeOut env m name sha total b).raised = none ∧
      (∃ fx, (∀ e ∈ fx, FileEffect.shelves e = true) ∧
        (writeOut env m name sha total b).effects = fx ++
          [.toProcessed name (uniqueTarget m.processed name sha),
            .insertEnriched name sha total b.enriched.length b.quarantined.length env.utcnow]) ∧
      (writeOut env m name sha total b).summary = b.closed env.ucd name) := by
  unfold writeOut
  cases hinbox : enrichedEffects m.host.inbox name sha b.enriched with
  | none => exact .inl ⟨⟨_, rfl⟩, by simp, rfl⟩
  | some inbox =>
    have hshelves := shelves_writes hinbox
    cases hquarantine : quarantineEffects m.quarantine name sha
        (b.quarantined.map (·.dumps env.ucd)) with
    | none => exact .inl ⟨⟨_, rfl⟩, hshelves, rfl⟩
    | some quarantine =>
      have hshelves' := shelves_writes hquarantine
      refine .inr ⟨rfl, ⟨inbox ++ quarantine, fun e he => ?_, rfl⟩, rfl⟩
      rcases List.mem_append.mp he with he | he
      · exact hshelves e he
      · exact hshelves' e he

/-- A file that was known, or could not be processed: nothing was moved or entered. -/
structure Stayed (m m' : Mount) : Prop where
  raw : m'.raw = m.raw
  processed : m'.processed = m.processed
  db : m'.host.db = m.host.db

structure Entered (env : EnrichEnv) (name : Text) (raw : ByteArray) (numbered : List (Nat × Text))
    (m m' : Mount) : Prop where
  moved : m'.raw = m.raw.remove name
  processed : m'.processed =
    m.processed.write (uniqueTarget m.processed name (env.sha256 raw)) raw
  db : m'.host.db = m.host.db.insertEnrichedFile name (env.sha256 raw) numbered.length
    (enrichedOf env numbered).length (recordsOf env numbered).length env.utcnow

theorem processFile_fares (m : Mount) (summary : EnrichSummary)
    (hread : m.raw.read name = some raw) :
    ((m.host.db.getEnrichedByIdentity name (env.sha256 raw)).isSome ∧
      processFile env m name raw summary false = { summary }) ∨
    m.host.db.getEnrichedByIdentity name (env.sha256 raw) = none ∧
    ((∃ e, (processFile env m name raw summary false).raised = some e ∧
      Stayed m ((processFile env m name raw summary false).effects.foldl FileEffect.apply m) ∧
      ((readNumberedLines raw = none ∧
          (processFile env m name raw summary false).summary = summary) ∨
        ∃ numbered, readNumberedLines raw = some numbered ∧
          (processFile env m name raw summary false).summary =
            (enrichAll env numbered (summary.discovered numbered)).1.summary)) ∨
    ((processFile env m name raw summary false).raised = none ∧
      ∃ numbered, readNumberedLines raw = some numbered ∧
        (enrichAll env numbered (summary.discovered numbered)).2 = none ∧
        Entered env name raw numbered m
          ((processFile env m name raw summary false).effects.foldl FileEffect.apply m) ∧
        (processFile env m name raw summary false).summary =
          (enrichAll env numbered (summary.discovered numbered)).1.closed env.ucd name)) := by
  have hstayed {fx : List FileEffect} (hfx : ∀ e ∈ fx, FileEffect.shelves e = true) :
      Stayed m (fx.foldl FileEffect.apply m) := by
    obtain ⟨hraw, hprocessed, hdb⟩ := foldl_shelves hfx m
    exact ⟨hraw, hprocessed, hdb⟩
  cases hrow : m.host.db.getEnrichedByIdentity name (env.sha256 raw) with
  | some row =>
    refine .inl ⟨rfl, ?_⟩
    simp only [processFile, hrow, Option.isSome_some, if_true]
  | none =>
    refine .inr ⟨rfl, ?_⟩
    cases hnumbered : readNumberedLines raw with
    | none =>
      refine .inl ⟨.unicodeDecodeError, ?_⟩
      simp only [processFile, hrow, hnumbered, Option.isSome_none, Bool.false_eq_true, if_false,
        true_and]
      exact ⟨⟨rfl, rfl, rfl⟩, .inl trivial⟩
    | some numbered =>
      simp only [processFile, hrow, hnumbered, Option.isSome_none, Bool.false_eq_true, if_false]
      cases hall : enrichAll env numbered (summary.discovered numbered) with
      | mk b raised =>
        cases raised with
        | some e =>
          exact .inl ⟨e, rfl, ⟨rfl, rfl, rfl⟩, .inr ⟨numbered, rfl, by rw [hall]⟩⟩
        | none =>
          obtain ⟨hen, hqu⟩ := enrichAll_batch (congrArg Prod.snd hall)
          rw [hall] at hen hqu
          rcases @writeOut_cases env m name (env.sha256 raw) numbered.length b with
            ⟨⟨e, he⟩, hshelves, hsummary⟩ | ⟨hnone, ⟨fx, hshelves, hfx⟩, hsummary⟩
          · exact .inl ⟨e, he, hstayed hshelves,
              .inr ⟨numbered, rfl, by rw [hall, hsummary]⟩⟩
          · refine .inr ⟨hnone, numbered, rfl, by rw [hall], ?_, by rw [hall]; exact hsummary⟩
            obtain ⟨hraw, hprocessed, hdb⟩ := hstayed hshelves
            simp only [hfx, List.foldl_append, List.foldl_cons, List.foldl_nil, FileEffect.apply]
            refine ⟨?_, ?_, ?_⟩
            · simp only [hraw, Folder.move_fst hread]
            · simp only [hraw, hprocessed, Folder.move_snd hread]
            · simp only [hdb, enrichedOf, recordsOf, ← hen, ← hqu]

-- ---------------------------------------------------------------------------
-- All files
-- ---------------------------------------------------------------------------

def alone (s : EnrichSite) (dryRun : Bool) (m : Mount) (f : Text × ByteArray) : FileRun :=
  processFile (s.env f.1) m f.1 f.2 {} dryRun

def rawFiles (names : List Text) (raw : Folder Text) : List (Text × ByteArray) :=
  names.filterMap fun n => (raw.read n).map fun bytes => (n, bytes)

def fileErrors (s : EnrichSite) (f : Text × ByteArray) (out : FileRun) : List Text :=
  (out.raised.map fun e => f.1 ++ Text.lit ": " ++ s.errorText f.2 e).toList

def EnrichSummary.total (l : List EnrichSummary) : EnrichSummary := l.foldl EnrichSummary.add {}

theorem mem_rawFiles {folder : Folder Text} :
    (name, raw) ∈ rawFiles names folder ↔ name ∈ names ∧ folder.read name = some raw := by
  simp only [rawFiles, List.mem_filterMap, Option.map_eq_some_iff, Prod.mk.injEq]
  constructor
  · rintro ⟨n, hn, bytes, hread, rfl, rfl⟩
    exact ⟨hn, hread⟩
  · rintro ⟨hn, hread⟩
    exact ⟨name, hn, raw, hread, rfl, rfl⟩

theorem mem_scanRaw : name ∈ scanRaw s folder ↔
    (folder.read name).isSome ∧ isHidden name = false ∧ s.globbed name = true ∧
    s.aged name = true := by
  simp [scanRaw, Folder.read_isSome_iff, and_assoc]

theorem scanRaw_nodup (s : EnrichSite) (folder : Folder Text) : (scanRaw s folder).Nodup :=
  (List.perm_insertionSort _ _).nodup_iff.mpr (folder.nodupKeys.filter _)

/-- What a run that began at `m` has come to after the files `names`. -/
structure Isolated (s : EnrichSite) (m : Mount) (r₀ : EnrichReport) (names : List Text)
    (r : EnrichRun) : Prop where
  log : r.mount = r.log.foldl FileEffect.apply m
  dryRun : r.report.dryRun = r₀.dryRun
  seen : r.report.filesSeen = r₀.filesSeen
  skipped : r.report.filesSkipped = r₀.filesSkipped
  summary : r.report.toEnrichSummary = ((rawFiles names m.raw).map fun f =>
    (alone s r₀.dryRun m f).summary).foldl EnrichSummary.add r₀.toEnrichSummary
  errors : r.report.errors = r₀.errors ++
    (rawFiles names m.raw).flatMap fun f => fileErrors s f (alone s r₀.dryRun m f)
  others : ∀ n ∉ names, Aside n m r.mount
  /-- Each file found what concerns it as at the beginning, and left it as at the end. -/
  files : ∀ f ∈ rawFiles names m.raw, ∃ mid, Aside f.1 m mid ∧
    Aside f.1
      ((processFile (s.env f.1) mid f.1 f.2 {} r₀.dryRun).effects.foldl FileEffect.apply mid)
      r.mount

theorem Aside.refl (n : Text) (m : Mount) : Aside n m m := ⟨rfl, fun _ => rfl⟩

theorem Isolated.start (s : EnrichSite) (m : Mount) (r₀ : EnrichReport) :
    Isolated s m r₀ [] { mount := m, report := r₀ } where
  log := rfl
  dryRun := rfl
  seen := rfl
  skipped := rfl
  summary := rfl
  errors := by simp [rawFiles]
  others := fun n _ => .refl n m
  files := by simp [rawFiles]

theorem enrichFile_some {r : EnrichRun} (hread : r.mount.raw.read name = some raw) :
    enrichFile s r name =
      let out := processFile (s.env name) r.mount name raw {} r.report.dryRun
      { mount := out.effects.foldl FileEffect.apply r.mount
        log := r.log ++ out.effects
        report := { r.report with
          toEnrichSummary := r.report.toEnrichSummary.add out.summary
          errors := r.report.errors ++ fileErrors s (name, raw) out } } := by
  have hadd : processFile (s.env name) r.mount name raw (r.report.toEnrichSummary.add {})
      r.report.dryRun = _ := processFile_add r.report.toEnrichSummary {}
  rw [EnrichSummary.add_empty] at hadd
  simp only [enrichFile, hread, hadd, fileErrors]
  cases (processFile (s.env name) r.mount name raw {} r.report.dryRun).raised with
  | none => simp
  | some e => rfl

theorem rawFiles_append {folder : Folder Text} (h : folder.read name = some raw) :
    rawFiles (names ++ [name]) folder = rawFiles names folder ++ [(name, raw)] := by
  simp [rawFiles, h]

theorem Isolated.turn {r : EnrichRun} {names : List Text} (h : Isolated s m r₀ names r)
    (hnew : name ∉ names) (hread : m.raw.read name = some raw) :
    Isolated s m r₀ (names ++ [name]) (enrichFile s r name) := by
  have haside := h.others name hnew
  have hthere : r.mount.raw.read name = some raw := haside.raw.trans hread
  have hof : ∀ e ∈ (processFile (s.env name) r.mount name raw {} r.report.dryRun).effects,
      FileEffect.Of name e := fun e => processFile_of
  obtain ⟨hraised, hsummary⟩ :
    (processFile (s.env name) r.mount name raw {} r₀.dryRun).raised =
      (processFile (s.env name) m name raw {} r₀.dryRun).raised ∧ _ :=
    processFile_told (haside.known _) {}
  rw [enrichFile_some hthere]
  constructor
  · rw [List.foldl_append, ← h.log]
  · exact h.dryRun
  · exact h.seen
  · exact h.skipped
  · rw [rawFiles_append hread, List.map_append, List.foldl_append, ← h.summary]
    simp only [h.dryRun, hsummary]
    rfl
  · rw [rawFiles_append hread, List.flatMap_append, ← List.append_assoc, ← h.errors]
    simp only [fileErrors, h.dryRun, hraised, alone, List.flatMap_cons, List.flatMap_nil,
      List.append_nil]
  · intro n hn
    rw [List.mem_append, not_or, List.mem_singleton] at hn
    exact (h.others n hn.1).trans (foldl_aside hof hn.2 r.mount)
  · intro f hf
    rw [rawFiles_append hread, List.mem_append, List.mem_singleton] at hf
    rcases hf with hf | rfl
    · obtain ⟨mid, hbefore, hafter⟩ := h.files f hf
      have hne : f.1 ≠ name := fun heq => hnew (heq ▸ (mem_rawFiles.mp hf).1)
      exact ⟨mid, hbefore, hafter.trans (foldl_aside hof hne r.mount)⟩
    · refine ⟨r.mount, haside, ?_⟩
      rw [← h.dryRun]
      exact .refl _ _

theorem isolated_foldl {names : List Text} (hnodup : names.Nodup)
    (hthere : ∀ n ∈ names, (m.raw.read n).isSome) :
    Isolated s m r₀ names (names.foldl (enrichFile s) { mount := m, report := r₀ }) := by
  induction names using List.reverseRecOn with
  | nil => exact .start s m r₀
  | append_singleton names name ih =>
    obtain ⟨hnodup, -, hnew⟩ := List.nodup_append'.mp hnodup
    obtain ⟨raw, hread⟩ := Option.isSome_iff_exists.mp (hthere name (by simp))
    rw [List.foldl_append]
    refine (ih hnodup fun n hn => hthere n (List.mem_append_left _ hn)).turn ?_ hread
    exact fun hmem => hnew hmem (List.mem_singleton_self name)

theorem runEnrich_isolated (s : EnrichSite) (dryRun : Bool) (m : Mount) :
    Isolated s m
      { dryRun
        filesSeen := (scanRaw s m.raw).length
        filesSkipped := skippedRaw s m.raw }
      (scanRaw s m.raw) (runEnrich s dryRun m) :=
  isolated_foldl (scanRaw_nodup s m.raw) fun _ hn => (mem_scanRaw.mp hn).1

/-- How a raw file fared in a run from `m` to `m'`. -/
inductive RawFate (s : EnrichSite) (m m' : Mount) (f : Text × ByteArray) : Prop
  /-- It was known, and is left where it is. -/
  | known (hrow : (m.host.db.getEnrichedByIdentity f.1 (s.sha256 f.2)).isSome)
      (hquiet : alone s false m f = { summary := {} }) (hleft : m'.raw.read f.1 = some f.2)
  /-- It raised, and the next run meets it as this one did. -/
  | failed (e : PyError) (hnew : m.host.db.getEnrichedByIdentity f.1 (s.sha256 f.2) = none)
      (hraised : (alone s false m f).raised = some e) (hleft : m'.raw.read f.1 = some f.2)
      (hstill : m'.host.db.getEnrichedByIdentity f.1 (s.sha256 f.2) = none)
  | processed (numbered : List (Nat × Text)) (row : EnrichedRow)
      (hnew : m.host.db.getEnrichedByIdentity f.1 (s.sha256 f.2) = none)
      (hread : readNumberedLines f.2 = some numbered) (hquiet : (alone s false m f).raised = none)
      (hmoved : m'.raw.read f.1 = none)
      (hrow : m'.host.db.getEnrichedByIdentity f.1 (s.sha256 f.2) = some row)
      (htotal : row.linesTotal = numbered.length)
      (henriched : row.linesEnriched = (enrichedOf (s.env f.1) numbered).length)
      (hquarantined : row.linesQuarantined = (recordsOf (s.env f.1) numbered).length)
      (hall : row.linesEnriched + row.linesQuarantined = row.linesTotal)

theorem enrichedOf_add_recordsOf (h : (enrichAll env numbered summary).2 = none) :
    (enrichedOf env numbered).length + (recordsOf env numbered).length = numbered.length :=
  length_filterMap_add fun line hline =>
    enriched_xor_quarantined ((enrichAll_eq_none.mp h).2.2 line hline)

theorem Isolated.fate {r : EnrichRun} (h : Isolated s m r₀ names r) (hdry : r₀.dryRun = false)
    {f : Text × ByteArray} (hf : f ∈ rawFiles names m.raw) : RawFate s m r.mount f := by
  obtain ⟨mid, hbefore, hafter⟩ := h.files f hf
  have hread : mid.raw.read f.1 = some f.2 := hbefore.raw.trans (mem_rawFiles.mp hf).2
  have hknown : mid.host.db.getEnrichedByIdentity f.1 ((s.env f.1).sha256 f.2) =
      m.host.db.getEnrichedByIdentity f.1 ((s.env f.1).sha256 f.2) := hbefore.known _
  rw [hdry] at hafter
  obtain ⟨hraised, -⟩ : (processFile (s.env f.1) mid f.1 f.2 {} false).raised =
      (alone s false m f).raised ∧ _ := processFile_told hknown {}
  rcases @processFile_fares (s.env f.1) f.1 f.2 mid {} hread with
    ⟨hrow, hrun⟩ |
      ⟨hnew, ⟨e, he, hstayed, -⟩ | ⟨hnone, numbered, hnumbered, hall, hentered, -⟩⟩
  · rw [hrun] at hafter
    have hrow' : (m.host.db.getEnrichedByIdentity f.1 (s.sha256 f.2)).isSome := hknown ▸ hrow
    refine .known hrow' ?_ (hafter.raw.trans hread)
    have hsome : (m.host.db.getEnrichedByIdentity f.1 ((s.env f.1).sha256 f.2)).isSome := hrow'
    simp only [alone, processFile, hsome, if_true]
  · refine .failed e (hknown.symm.trans hnew) (hraised.symm.trans he) ?_ ?_
    · rw [hafter.raw, hstayed.raw, hread]
    · rw [hafter.known, hstayed.db]
      exact hnew
  · have hmoved : r.mount.raw.read f.1 = none := by
      rw [hafter.raw, hentered.moved, Folder.read_remove, if_pos rfl]
    obtain ⟨row, hrow, htotal, henriched, hquarantined⟩ :
        ∃ row, r.mount.host.db.getEnrichedByIdentity f.1 (s.sha256 f.2) = some row ∧
          row.linesTotal = numbered.length ∧
          row.linesEnriched = (enrichedOf (s.env f.1) numbered).length ∧
          row.linesQuarantined = (recordsOf (s.env f.1) numbered).length := by
      rw [hafter.known, hentered.db]
      exact ⟨_, getEnrichedByIdentity_insert hnew, rfl, rfl, rfl⟩
    refine .processed numbered row (hknown.symm.trans hnew) hnumbered
      (hraised.symm.trans hnone) hmoved
      hrow htotal henriched hquarantined ?_
    rw [henriched, hquarantined, htotal]
    exact enrichedOf_add_recordsOf hall

end UbkiUploader
