import UbkiUploader.Enricher.Run

/-!
# The report of an enricher's run

The counters of a report add up over the files, so that each line it tells of is enriched,
quarantined, or held back with a file that raised. A run without an alert has enriched
every line of every file that was new.
-/

namespace UbkiUploader

variable {env : EnrichEnv} {s : EnrichSite} {m : Mount} {numbered : List (Nat × Text)}

-- ---------------------------------------------------------------------------
-- The report
-- ---------------------------------------------------------------------------

theorem total_eq {g : EnrichSummary → Nat} (hg : ∀ a b, g (a.add b) = g a + g b)
    (l : List EnrichSummary) (a : EnrichSummary) :
    g (l.foldl EnrichSummary.add a) = g a + (l.map g).sum := by
  induction l generalizing a with
  | nil => rfl
  | cons b l ih => rw [List.foldl_cons, ih, hg, List.map_cons, List.sum_cons, Nat.add_assoc]

theorem enrichLines_summary {ps : List Parsed} :
    ∃ x y, (enrichLines env rows peers ps b).1.summary =
    { b.summary with linesIssuerFromPeer := x, linesDocIncomplete := y } := by
  induction ps generalizing b with
  | nil => exact ⟨_, _, rfl⟩
  | cons p ps ih =>
    rw [enrichLines]
    split
    · exact ⟨_, _, rfl⟩
    · exact ih
    · obtain ⟨x, y, hxy⟩ := @ih { b with
        enriched := b.enriched ++ [_], summary := b.summary.count _ }
      exact ⟨x, y, hxy⟩

theorem enrichAll_summary (summary : EnrichSummary) :
    ∃ x y, (enrichAll env numbered summary).1.summary =
      { summary with linesIssuerFromPeer := x, linesDocIncomplete := y } := by
  unfold enrichAll
  split
  · exact ⟨_, _, rfl⟩
  · simp only
    split
    · exact ⟨_, _, rfl⟩
    · exact enrichLines_summary

def heldBack (s : EnrichSite) (m : Mount) (f : Text × ByteArray) : Nat :=
  if (alone s false m f).raised.isSome then ((readNumberedLines f.2).getD []).length else 0

structure EnrichSummary.Balanced (u : EnrichSummary) (held : Nat) : Prop where
  lines : u.linesTotal = u.linesEnriched + u.linesQuarantined + held
  reasons : u.quarantineReasons.length = u.linesQuarantined

theorem alone_balanced (f : Text × ByteArray) (hread : m.raw.read f.1 = some f.2) :
    (alone s false m f).summary.Balanced (heldBack s m f) := by
  unfold heldBack alone
  rcases @processFile_fares (s.env f.1) f.1 f.2 m {} hread with
    ⟨-, hrun⟩ |
      ⟨-, ⟨e, he, -, ⟨hnone, hsummary⟩ | ⟨numbered, hnumbered, hsummary⟩⟩ |
      ⟨hnone, numbered, hnumbered, hall, -, hsummary⟩⟩
  · rw [hrun]
    exact ⟨rfl, rfl⟩
  · rw [he, hsummary, hnone]
    exact ⟨rfl, rfl⟩
  · obtain ⟨x, y, hxy⟩ := @enrichAll_summary (s.env f.1) numbered
      (EnrichSummary.discovered {} numbered)
    rw [he, hsummary, hnumbered, hxy]
    exact ⟨rfl, rfl⟩
  · obtain ⟨x, y, hxy⟩ := @enrichAll_summary (s.env f.1) numbered
      (EnrichSummary.discovered {} numbered)
    obtain ⟨hen, hqu⟩ := enrichAll_batch hall
    have hlines := enrichedOf_add_recordsOf hall
    rw [enrichedOf, recordsOf, ← hen, ← hqu] at hlines
    rw [hnone, hsummary]
    generalize (enrichAll (s.env f.1) numbered (EnrichSummary.discovered {} numbered)).1 = b at *
    rw [Batch.closed, hxy]
    constructor
    · simp [EnrichSummary.discovered, hlines]
    · simp [EnrichSummary.discovered]

theorem balanced_total {files : List (Text × ByteArray)}
    (hread : ∀ f ∈ files, m.raw.read f.1 = some f.2) :
    (EnrichSummary.total (files.map fun f => (alone s false m f).summary)).Balanced
      (files.map (heldBack s m)).sum := by
  have hsum (g : EnrichSummary → Nat) (hg : ∀ a b, g (a.add b) = g a + g b) (h0 : g {} = 0) :
      g (EnrichSummary.total (files.map fun f => (alone s false m f).summary)) =
        (files.map fun f => g (alone s false m f).summary).sum := by
    rw [EnrichSummary.total, total_eq hg, h0, Nat.zero_add, List.map_map]
    rfl
  have hlines (f) (hf : f ∈ files) := (alone_balanced (s := s) f (hread f hf)).lines
  have hreasons (f) (hf : f ∈ files) := (alone_balanced (s := s) f (hread f hf)).reasons
  constructor
  · rw [hsum (·.linesTotal) (fun _ _ => rfl) rfl, hsum (·.linesEnriched) (fun _ _ => rfl) rfl,
      hsum (·.linesQuarantined) (fun _ _ => rfl) rfl, ← List.sum_map_add, ← List.sum_map_add]
    exact congrArg List.sum (List.map_congr_left hlines)
  · rw [hsum (·.quarantineReasons.length) (fun _ _ => List.length_append) rfl,
      hsum (·.linesQuarantined) (fun _ _ => rfl) rfl]
    exact congrArg List.sum (List.map_congr_left hreasons)

/-- In a run each file fares as it would alone, whatever the others raise; the report is what
the files say for themselves, and of the lines it tells of each is enriched, quarantined or
held back with a file that raised. -/
theorem runEnrich_fares (s : EnrichSite) (m : Mount) :
    let files := rawFiles (scanRaw s m.raw) m.raw
    let r := runEnrich s false m
    (r.report.toEnrichSummary =
      EnrichSummary.total (files.map fun f => (alone s false m f).summary) ∧
      r.report.toEnrichSummary.Balanced (files.map (heldBack s m)).sum) ∧
    r.report.errors = files.flatMap (fun f => fileErrors s f (alone s false m f)) ∧
    (∀ f ∈ files, RawFate s m r.mount f) ∧
    ∀ n ∉ scanRaw s m.raw, Aside n m r.mount := by
  have h := runEnrich_isolated s false m
  have hsummary : (runEnrich s false m).report.toEnrichSummary = EnrichSummary.total
      ((rawFiles (scanRaw s m.raw) m.raw).map fun f => (alone s false m f).summary) := h.summary
  refine ⟨⟨hsummary, ?_⟩, ?_, fun f hf => h.fate rfl hf, h.others⟩
  · rw [hsummary]
    exact balanced_total fun f hf => (mem_rawFiles.mp hf).2
  · rw [h.errors, List.nil_append]

-- ---------------------------------------------------------------------------
-- Runs without an alert
-- ---------------------------------------------------------------------------

/-- `build_alert` -/
def buildEnrichAlert (r : EnrichReport) : Option Text :=
  if r.linesQuarantined = 0 ∧ r.filesSkipped = 0 ∧ r.filesEmpty = 0 ∧ r.errors = [] ∧
      r.linesDocIncomplete = 0 then
    none
  else
    some
      (Text.join [10] ([Text.lit "UBKI enricher: проблеми при збагаченні"] ++
      (if r.linesQuarantined = 0 then [] else
        [Text.lit "у карантині: " ++ Text.ofNat r.linesQuarantined ++
          Text.lit " рядк."] ++
        r.quarantineReasons.take 5 ++
        (if 5 < r.quarantineReasons.length then
          [Text.lit "… та ще " ++ Text.ofNat (r.quarantineReasons.length - 5)] else [])) ++
      (if r.linesDocIncomplete = 0 then [] else
        [Text.lit
          "документ без видавця/дати видачі (бюро його відкине, дані угоди" ++
          Text.lit " дійдуть): " ++ Text.ofNat r.linesDocIncomplete ++
            Text.lit " рядк."]) ++
      (if r.filesSkipped = 0 then [] else
        [Text.lit "файлів у папці поза маскою FILE_GLOB: " ++
          Text.ofNat r.filesSkipped]) ++
      (if r.filesEmpty = 0 then [] else
        [Text.lit "порожніх raw-файлів (0 рядків даних): " ++
          Text.ofNat r.filesEmpty]) ++
      r.errors ++ [Text.lit "збагачено: " ++ Text.ofNat r.linesEnriched]))

def incompleteSubject : Except Halt (Subject × DocStats) → Option Subject
  | .ok (subject, stats) => if stats.docIncomplete then some subject else none
  | .error _ => none

theorem enrichLines_incomplete {ps : List Parsed} (h : (enrichLines env rows peers ps b).2 = none) :
    (enrichLines env rows peers ps b).1.summary.linesDocIncomplete = b.summary.linesDocIncomplete +
      (ps.filterMap fun p => incompleteSubject (verdict env rows peers p.obj)).length := by
  induction ps generalizing b with
  | nil => simp [enrichLines]
  | cons p ps ih =>
    rw [enrichLines] at h ⊢
    split at h
    · cases h
    · rename_i hv
      rw [ih h, List.filterMap_cons, hv]
      rfl
    · rename_i subject stats hv
      rw [ih h, List.filterMap_cons, hv]
      cases hdoc : stats.docIncomplete
      · simp [EnrichSummary.count, incompleteSubject, hdoc]
      · simp only [EnrichSummary.count, incompleteSubject, hdoc, if_true, List.length_cons]
        omega

theorem enrichAll_incomplete (h : (enrichAll env numbered summary).2 = none) :
    (enrichAll env numbered summary).1.summary.linesDocIncomplete = summary.linesDocIncomplete +
      (numbered.filterMap fun line =>
        incompleteSubject (fileOutcome env numbered line.2)).length := by
  unfold enrichAll at h ⊢
  cases hparsed : numbered.mapM (parseLine env) with
  | error e => simp [hparsed] at h
  | ok parsed =>
    have hkeeps := (Except.mapM_eq_ok.mp hparsed).imp fun _ _ => parseLine_keeps
    have hrows : fetchRows env (parsed.flatMap (·.2)) = fileRows env numbered := by
      rw [parsed_asks hkeeps, fileRows]
    simp only [hparsed, hrows] at h ⊢
    cases hneed : clientsMissingIssuer env.ucd (fileRows env numbered) with
    | error e => simp [hneed] at h
    | ok need =>
      have hpeers : fetchPeers env need = filePeers env numbered := by simp only [filePeers, hneed]
      simp only [hneed, hpeers] at h ⊢
      have hsame : numbered.filterMap
        (fun line => incompleteSubject (fileOutcome env numbered line.2)) =
          parsed.filterMap ((fun p => incompleteSubject
            (verdict env (fileRows env numbered) (filePeers env numbered) p.obj)) ∘ (·.1)) :=
        hkeeps.filterMap_congr fun line made hkeep => by
          rw [Function.comp_apply, hkeep.outcome, fileOutcome]
      rw [enrichLines_incomplete h, List.filterMap_map, hsame]

theorem buildEnrichAlert_eq_none {r : EnrichReport} : buildEnrichAlert r = none ↔
    r.linesQuarantined = 0 ∧ r.filesSkipped = 0 ∧ r.filesEmpty = 0 ∧ r.errors = [] ∧
      r.linesDocIncomplete = 0 := by
  simp [buildEnrichAlert]

/-- Every line of the file became a package with a complete document. -/
structure Whole (env : EnrichEnv) (raw : ByteArray) : Prop where
  lines : ∃ numbered, readNumberedLines raw = some numbered ∧ numbered ≠ [] ∧
    ∀ line ∈ numbered, ∃ subject stats,
      fileOutcome env numbered line.2 = .ok (subject, stats) ∧ stats.docIncomplete = false

theorem whole_of_quiet {f : Text × ByteArray} (hread : m.raw.read f.1 = some f.2)
    (hquiet : (alone s false m f).raised = none)
    (hquarantined : (alone s false m f).summary.linesQuarantined = 0)
    (hempty : (alone s false m f).summary.filesEmpty = 0)
    (hdocs : (alone s false m f).summary.linesDocIncomplete = 0) :
    (m.host.db.getEnrichedByIdentity f.1 (s.sha256 f.2)).isSome ∨ Whole (s.env f.1) f.2 := by
  unfold alone at hquiet hquarantined hempty hdocs
  rcases @processFile_fares (s.env f.1) f.1 f.2 m {} hread with
    ⟨hrow, -⟩ | ⟨-, ⟨e, he, -⟩ | ⟨-, numbered, hnumbered, hall, -, hsummary⟩⟩
  · exact .inl hrow
  · rw [he] at hquiet
    cases hquiet
  · right
    obtain ⟨x, y, hxy⟩ := @enrichAll_summary (s.env f.1) numbered
      (EnrichSummary.discovered {} numbered)
    obtain ⟨hen, hqu⟩ := enrichAll_batch hall
    have hincomplete := enrichAll_incomplete hall
    have hlines := (enrichAll_eq_none.mp hall).2.2
    rw [hsummary] at hquarantined hempty hdocs
    generalize (enrichAll (s.env f.1) numbered (EnrichSummary.discovered {} numbered)).1 = b at *
    simp only [Batch.closed, hxy, EnrichSummary.discovered] at hquarantined hempty hdocs hincomplete
    have hnone : b.quarantined = [] := List.eq_nil_of_length_eq_zero (by omega)
    have hcomplete : numbered.filterMap (fun line =>
        incompleteSubject (fileOutcome (s.env f.1) numbered line.2)) = [] :=
      List.eq_nil_of_length_eq_zero (by omega)
    rw [hnone] at hqu
    refine ⟨numbered, hnumbered, fun hnil => ?_, fun line hline => ?_⟩
    · simp [hnil] at hempty
    · have hkept := List.filterMap_eq_nil_iff.mp hqu.symm line hline
      have hdoc := List.filterMap_eq_nil_iff.mp hcomplete line hline
      cases houtcome : fileOutcome (s.env f.1) numbered line.2 with
      | error halt =>
        cases halt with
        | raise e => exact absurd houtcome (hlines line hline e)
        | quarantine reason =>
          rw [houtcome] at hkept
          cases hkept
      | ok made =>
        refine ⟨made.1, made.2, rfl, ?_⟩
        rw [houtcome] at hdoc
        cases hflag : made.2.docIncomplete with
        | false => rfl
        | true => simp [incompleteSubject, hflag] at hdoc

theorem runEnrich_quiet (hsilent : buildEnrichAlert (runEnrich s false m).report = none) :
    ∀ f ∈ rawFiles (scanRaw s m.raw) m.raw, (alone s false m f).raised = none ∧
      ((m.host.db.getEnrichedByIdentity f.1 (s.sha256 f.2)).isSome ∨ Whole (s.env f.1) f.2) := by
  have h := runEnrich_isolated s false m
  obtain ⟨hquarantined, -, hempty, herrors, hdocs⟩ := buildEnrichAlert_eq_none.mp hsilent
  have hzero (g : EnrichSummary → Nat) (hg : ∀ a b, g (a.add b) = g a + g b)
      (hnone : g (runEnrich s false m).report.toEnrichSummary = 0) :
      ∀ f ∈ rawFiles (scanRaw s m.raw) m.raw, g (alone s false m f).summary = 0 := by
    rw [h.summary, total_eq hg, List.map_map, Nat.add_eq_zero_iff, List.sum_eq_zero_iff] at hnone
    exact fun f hf => hnone.2 _ (List.mem_map_of_mem hf)
  intro f hf
  have hquiet : (alone s false m f).raised = none := by
    rw [h.errors, List.nil_append, List.flatMap_eq_nil_iff] at herrors
    have := herrors f hf
    simpa [fileErrors] using this
  exact ⟨hquiet, whole_of_quiet (mem_rawFiles.mp hf).2 hquiet
    (hzero (·.linesQuarantined) (fun _ _ => rfl) hquarantined f hf)
    (hzero (·.filesEmpty) (fun _ _ => rfl) hempty f hf)
    (hzero (·.linesDocIncomplete) (fun _ _ => rfl) hdocs f hf)⟩

/-- The cabinet of one client, and a raw folder of which every file is taken. -/
def clientSite : EnrichSite where
  toEnrichEnv := forgetfulEnv
  globbed _ := true
  aged _ := true
  clock _ := 0
  errorText _ _ := []
  missingText _ := []

def clientRaw : Mount where
  host := {}
  raw := AList.singleton (Text.lit "a.jsonl") clientLine.toByteArray

theorem alert_client : buildEnrichAlert (runEnrich clientSite false clientRaw).report = none := by
  decide +kernel

end UbkiUploader
