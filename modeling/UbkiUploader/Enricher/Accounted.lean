import UbkiUploader.Enricher.Independence
import UbkiUploader.Enricher.Totality
import UbkiUploader.Enricher.Wire

/-!
# Every line of a file accounted for

A run of `process_file` that comes to its end leaves each line in one of two files, and
counts them in the row of the raw file. It comes to its end exactly on the files that
hold nothing harmful.
-/

namespace UbkiUploader

open Except (Post post_bind post_iff post_true_iff)
open Text (Encodes)

variable {env : EnrichEnv} {u : Ucd} {rows : Rows} {peers : Peers}

-- ---------------------------------------------------------------------------
-- Reading a line
-- ---------------------------------------------------------------------------

/-- A line, or the line it is a record of, nests deeper than the interpreter lets it. -/
def TooDeep (env : EnrichEnv) (raw : Text) : Prop :=
  Json.loads env.floats env.levels raw = .error .recursion ∨
  ∃ obj, Json.loads env.floats env.levels raw = .ok (.obj obj) ∧ isWrapper obj ∧
    ∃ inner, obj.lookup (Text.lit "line") = some (.str inner) ∧
      Json.loads env.floats env.levels inner = .error .recursion

theorem told_jsonLoads : (∀ e, jsonLoads env doc = .error e → e.Told u) ↔
    Json.loads env.floats env.levels doc ≠ .error .recursion := by
  have hwords := Json.loads_words env.floats env.levels doc
  unfold jsonLoads
  cases hloads : Json.loads env.floats env.levels doc with
  | ok v => simp
  | error e =>
    rw [hloads] at hwords
    have htext : (e.text doc).Encodes :=
      Text.encodes_of_ascii fun c hc => (LoadError.Worded.text hwords doc c hc).2
    cases e with
    | recursion => simp [Halt.Told]
    | _ => simp [Halt.told_quarantine, Reason.quoted, htext]

theorem jsonLoads_eq_ok :
    jsonLoads env doc = .ok v ↔ Json.loads env.floats env.levels doc = .ok v := by
  unfold jsonLoads
  split <;> simp [*]

theorem told_unwrapQuarantine : (∀ e, unwrapQuarantine env v = .error e → e.Told u) ↔
    ∀ obj, v = .obj obj → isWrapper obj → ∀ inner,
      obj.lookup (Text.lit "line") = some (.str inner) →
        Json.loads env.floats env.levels inner ≠ .error .recursion := by
  cases v with
  | obj obj =>
    simp only [unwrapQuarantine, Json.obj.injEq, forall_eq']
    by_cases hwrapper : isWrapper obj
    · rw [if_pos hwrapper]
      cases hline : obj.lookup (Text.lit "line") with
      | none =>
        have hkeys := hwrapper
        simp [isWrapper, quarantineKeys, hline] at hkeys
      | some inner =>
        cases inner with
        | str inner => simp [told_jsonLoads, hwrapper]
        | _ => simp
    · simp [hwrapper]
  | _ => simp [unwrapQuarantine]

theorem told_lineObject :
    (∀ e, lineObject env raw = .error e → e.Told u) ↔ ¬TooDeep env raw := by
  rw [← post_true_iff, lineObject]
  simp only [post_bind]
  refine Iff.trans (post_iff.trans (and_congr told_jsonLoads (forall₂_congr fun v _ =>
    post_iff.trans (Iff.trans (and_congr_left' told_unwrapQuarantine)
      (and_iff_left fun v _ => ?object))))) ?_
  case object =>
    cases v with
    | obj => trivial
    | _ => exact Text.encodes_lit _
  simp only [jsonLoads_eq_ok, TooDeep, not_or, not_exists, not_and, ne_eq]
  constructor
  · rintro ⟨houter, hinner⟩
    exact ⟨houter, fun obj hv => hinner _ hv obj rfl⟩
  · rintro ⟨houter, hinner⟩
    refine ⟨houter, ?_⟩
    rintro v hv obj rfl
    exact hinner obj hv

/-- `for deal in obj.get("deals") or []` has something to go over. -/
def DealsIterable (obj : Fields) : Prop :=
  ∀ v, Json.getOr obj (Text.lit "deals") = some v →
    (∃ items, v = .arr items) ∨ (∃ t, v = .str t) ∨ ∃ fields, v = .obj fields

theorem lineDlrefs_isOk : (∀ e, lineDlrefs u obj ≠ .error e) ↔ DealsIterable obj := by
  unfold lineDlrefs DealsIterable
  cases Json.getOr obj (Text.lit "deals") with
  | none => simp
  | some v => cases v <;> simp

-- ---------------------------------------------------------------------------
-- Files
-- ---------------------------------------------------------------------------

structure EnrichEnv.Decoded (env : EnrichEnv) : Prop where
  rows : ∀ dlrefs, ∀ e ∈ (env.fetch dlrefs).entries, e.2.Decoded
  peers : ∀ ids client, ∀ peer ∈ env.fetchIssuers ids client, peer.passport.Decoded

theorem EnrichEnv.Decoded.fileRows (h : env.Decoded) (numbered : List (Nat × Text)) :
    ∀ e ∈ (fileRows env numbered).entries, e.2.Decoded := by
  unfold UbkiUploader.fileRows fetchRows
  split
  · exact fun e he => absurd he List.not_mem_nil
  · exact h.rows _

theorem EnrichEnv.Decoded.filePeers (h : env.Decoded) (numbered : List (Nat × Text)) :
    ∀ client, ∀ peer ∈ filePeers env numbered client, peer.passport.Decoded := by
  intro client
  rw [UbkiUploader.filePeers]
  cases clientsMissingIssuer env.ucd (UbkiUploader.fileRows env numbered) with
  | error e => exact List.forall_mem_nil _
  | ok need =>
    show ∀ peer ∈ fetchPeers env need client, peer.passport.Decoded
    unfold fetchPeers
    by_cases hneed : need = []
    · rw [if_pos hneed]
      exact List.forall_mem_nil _
    · rw [if_neg hneed]
      exact h.peers need client

def clientsInNeed (u : Ucd) (rows : Rows) : List Cell :=
  (((rows.entries.map (·.2)).filter (missesIssuer u)).map (·.userId)).dedup

theorem clientsMissingIssuer_isOk :
    (∃ need, clientsMissingIssuer u rows = .ok need) ↔ Comparable (clientsInNeed u rows) := by
  unfold clientsMissingIssuer Cell.sorted? Comparable clientsInNeed
  simp only
  split
  · rename_i hsorted
    split at hsorted
    · exact iff_of_true ⟨_, rfl⟩ ‹_›
    · cases hsorted
  · rename_i hsorted
    split at hsorted
    · cases hsorted
    · exact iff_of_false (fun ⟨need, h⟩ => by cases h) ‹_›

/-- Nothing in a file, or in what is fetched for it, holds it back. -/
structure HarmlessFile (env : EnrichEnv) (numbered : List (Nat × Text)) : Prop where
  depth : ∀ line ∈ numbered, ¬TooDeep env line.2
  deals : ∀ line ∈ numbered, ∀ obj, lineObject env line.2 = .ok obj → DealsIterable obj
  clients : Comparable (clientsInNeed env.ucd (fileRows env numbered))
  lines : ∀ line ∈ numbered, ∀ obj, lineObject env line.2 = .ok obj →
    HarmlessLine env.ucd env.config (fileRows env numbered) (filePeers env numbered) obj

theorem settled_fileOutcome (hu : env.ucd.Scalar) (hdecoded : env.Decoded) :
    Settled env.ucd (fileOutcome env numbered raw) ↔ ¬TooDeep env raw ∧
      ∀ obj, lineObject env raw = .ok obj →
        HarmlessLine env.ucd env.config (fileRows env numbered) (filePeers env numbered) obj :=
  post_bind.trans (post_iff.trans (and_congr told_lineObject (forall₂_congr fun _ hobj =>
    settled_enrichLine hu (hdecoded.fileRows numbered) (hdecoded.filePeers numbered)
      (lineObject_within hobj))))

theorem parses_iff : Parses env raw ↔
    (∀ e, lineObject env raw ≠ .error (.raise e)) ∧
      ∀ obj, lineObject env raw = .ok obj → DealsIterable obj :=
  and_congr_right' (forall₂_congr fun _ _ => lineDlrefs_isOk)

theorem harmlessFile_iff (hu : env.ucd.Scalar) (hdecoded : env.Decoded) :
    HarmlessFile env numbered ↔
      (∀ line ∈ numbered, Parses env line.2) ∧
      (∃ need, clientsMissingIssuer env.ucd (fileRows env numbered) = .ok need) ∧
      ∀ line ∈ numbered, Settled env.ucd (fileOutcome env numbered line.2) := by
  simp only [settled_fileOutcome hu hdecoded, parses_iff, clientsMissingIssuer_isOk]
  constructor
  · rintro ⟨hdepth, hdeals, hclients, hlines⟩
    refine ⟨fun line hline => ⟨fun e he => ?_, hdeals line hline⟩, hclients,
      fun line hline => ⟨hdepth line hline, hlines line hline⟩⟩
    exact (told_lineObject (u := env.ucd)).mpr (hdepth line hline) _ he
  · rintro ⟨hparses, hclients, hlines⟩
    exact ⟨fun line hline => (hlines line hline).1, fun line hline => (hparses line hline).2,
      hclients, fun line hline => (hlines line hline).2⟩

-- ---------------------------------------------------------------------------
-- Outcomes that can be written
-- ---------------------------------------------------------------------------

theorem encodes_record {r : QuarantineRecord} (hline : r.line.Encodes) :
    (r.dumps u).Encodes ↔ (r.reason.text u).Encodes := by
  have hascii (c : Nat) (_ : 32 ≤ c) (hc : c < 128) : c.isValidChar := .inl (by omega)
  have hpart (t : Text) : (∀ c ∈ t, 32 ≤ c → c.isValidChar) ↔ t.Encodes := by
    refine forall₂_congr fun c _ => ⟨fun h => ?_, fun h _ => h⟩
    by_cases hc : 32 ≤ c
    · exact h hc
    · exact .inl (by omega)
  refine (r.forall_mem_dumps hascii).trans ?_
  rw [hpart, hpart]
  exact and_iff_left hline

/-- A settled outcome raises nothing, and what it adds to either file can be written. -/
theorem settled_iff {line : Nat × Text} (hline : line.2.Encodes)
    (o : Except Halt (Subject × DocStats)) : Settled u o ↔
      (∀ e, o ≠ .error (.raise e)) ∧ (∀ t, enrichedText o = some t → t.Encodes) ∧
        ∀ r, quarantineRecord line o = some r → (r.dumps u).Encodes := by
  cases o with
  | ok made => simp [Settled, Post, enrichedText, quarantineRecord]
  | error halt =>
    cases halt with
    | raise e => simp [Settled, Post, Halt.Told]
    | quarantine r =>
      have hrecord : (QuarantineRecord.dumps u ⟨line.1, r, line.2⟩).Encodes ↔
        (r.text u).Encodes :=
        encodes_record hline
      simp [Settled, Post, Halt.Told, enrichedText, quarantineRecord, hrecord]

theorem encodes_numbered (h : readNumberedLines raw = some numbered) :
    ∀ line ∈ numbered, line.2.Encodes := by
  obtain ⟨t, ht, rfl⟩ := Option.map_eq_some_iff.mp h
  intro line hline
  obtain ⟨⟨text, n⟩, hmem, hkept⟩ := List.mem_filterMap.mp hline
  simp only at hkept
  split at hkept
  · cases hkept
  · cases hkept
    exact Text.forall_mem_breakLines (encodes_of_decodeRaw ht) (List.fst_mem_of_mem_zipIdx hmem)

-- ---------------------------------------------------------------------------
-- The run
-- ---------------------------------------------------------------------------

/-- Lines stand in a file of the folder, in this order; no lines need no file. -/
def Holds (folder : Folder Text) (lines : List Text) : Prop :=
  lines = [] ∨ ∃ name data, folder.read name = some data ∧ readLines data = some lines

theorem effects_isSome {lines : List Text} (f : ByteArray → List FileEffect) :
    (if lines = [] then some [] else (encodeLines lines).map f).isSome ↔
    ∀ t ∈ lines, t.Encodes := by
  split
  · simp [*]
  · rw [Option.isSome_map, encodeLines_isSome]
    simp only [Text.encodes_iff]

theorem exists_effects {lines : List Text} (m : Mount) (s : Shelf) (target : ByteArray → Text)
    (hencodes : ∀ t ∈ lines, t.Encodes) (hlines : ∀ t ∈ lines, IsLine Text.isNewline t) :
    ∃ effects, (if lines = [] then some [] else (encodeLines lines).map fun data =>
        writeAtomic s (m.shelf s) (target data) data) = some effects ∧
      ∃ folder, effects.foldl FileEffect.apply m = m.setShelf folder s ∧
      Holds folder lines := by
  obtain ⟨effects, heffects⟩ := Option.isSome_iff_exists.mp
    ((effects_isSome fun data => writeAtomic s (m.shelf s) (target data) data).mpr hencodes)
  refine ⟨effects, heffects, ?_⟩
  split at heffects
  · rename_i hnil
    cases heffects
    exact ⟨m.shelf s, (m.setShelf_shelf s).symm, .inl hnil⟩
  · obtain ⟨data, hdata, rfl⟩ := Option.map_eq_some_iff.mp heffects
    exact ⟨_, foldl_writeAtomic m s (target data) data,
      .inr ⟨target data, data, read_written _ _ _, readLines_encodeLines hdata hlines⟩⟩

theorem writeOut_raised : (writeOut env m name sha total b).raised = none ↔
    (∀ t ∈ b.enriched, t.Encodes) ∧ ∀ r ∈ b.quarantined, (r.dumps env.ucd).Encodes := by
  have hen : (enrichedEffects m.host.inbox name sha b.enriched).isSome ↔
      ∀ t ∈ b.enriched, t.Encodes := effects_isSome _
  have hqu :
    (quarantineEffects m.quarantine name sha (b.quarantined.map (·.dumps env.ucd))).isSome ↔
      ∀ t ∈ b.quarantined.map (·.dumps env.ucd), t.Encodes := effects_isSome _
  rw [List.forall_mem_map] at hqu
  rw [← hen, ← hqu, writeOut]
  cases enrichedEffects m.host.inbox name sha b.enriched with
  | none => simp
  | some inbox =>
    cases quarantineEffects m.quarantine name sha (b.quarantined.map (·.dumps env.ucd)) with
    | none => simp
    | some quarantine => simp

structure Left (m m' : Mount) (env : EnrichEnv) (name sha : Text) (total : Nat) (b : Batch) :
    Prop where
  inbox : Holds m'.host.inbox b.enriched
  quarantine : Holds m'.quarantine (b.quarantined.map (·.dumps env.ucd))
  db : m'.host.db = m.host.db.insertEnrichedFile name sha total b.enriched.length
    b.quarantined.length env.utcnow

theorem writeOut_left (m : Mount) (name sha : Text) (total : Nat)
    (hen : ∀ t ∈ b.enriched, t.Encodes ∧ IsLine Text.isNewline t)
    (hqu : ∀ r ∈ b.quarantined, (r.dumps env.ucd).Encodes) :
    Left m ((writeOut env m name sha total b).effects.foldl FileEffect.apply m) env name
    sha total b := by
  have hrecords : ∀ t ∈ b.quarantined.map (·.dumps env.ucd), t.Encodes ∧
    IsLine Text.isNewline t :=
    List.forall_mem_map.mpr fun r hr => ⟨hqu r hr, r.isLine_dumps⟩
  obtain ⟨inbox, hinbox, folder, hfolder, hheld⟩ := exists_effects m .inbox
    (enrichedTarget m.host.inbox name sha) (fun t ht => (hen t ht).1) fun t ht => (hen t ht).2
  obtain ⟨quarantine, hquarantine, folder', hfolder', hheld'⟩ :=
    exists_effects (m.setShelf folder .inbox) .quarantine (quarantineTarget m.quarantine name sha)
      (fun t ht => (hrecords t ht).1) fun t ht => (hrecords t ht).2
  have hrun : (writeOut env m name sha total b).effects = inbox ++ quarantine ++
      [.toProcessed name (uniqueTarget m.processed name sha),
        .insertEnriched name sha total b.enriched.length b.quarantined.length env.utcnow] := by
    have hinbox : enrichedEffects m.host.inbox name sha b.enriched = some inbox := hinbox
    have hquarantine : quarantineEffects m.quarantine name sha
        (b.quarantined.map (·.dumps env.ucd)) = some quarantine := hquarantine
    simp only [writeOut, hinbox, hquarantine]
  rw [hrun, List.foldl_append, List.foldl_append, hfolder, hfolder']
  exact ⟨hheld, hheld', rfl⟩

-- ---------------------------------------------------------------------------
-- Every line
-- ---------------------------------------------------------------------------

def enrichedOf (env : EnrichEnv) (numbered : List (Nat × Text)) : List Text :=
  numbered.filterMap fun line => enrichedText (fileOutcome env numbered line.2)

def recordsOf (env : EnrichEnv) (numbered : List (Nat × Text)) : List QuarantineRecord :=
  numbered.filterMap fun line => quarantineRecord line (fileOutcome env numbered line.2)

/-- After a run each line stands in one of two files, in order, and the row of the raw file
counts them. -/
structure AccountedIn (env : EnrichEnv) (name sha : Text) (numbered : List (Nat × Text))
    (m : Mount) : Prop where
  once : ∀ line ∈ numbered, (enrichedText (fileOutcome env numbered line.2)).isSome ↔
    ¬(quarantineRecord line (fileOutcome env numbered line.2)).isSome
  inbox : Holds m.host.inbox (enrichedOf env numbered)
  quarantine : Holds m.quarantine ((recordsOf env numbered).map (·.dumps env.ucd))
  row : ∃ row, m.host.db.getEnrichedByIdentity name sha = some row ∧
    row.linesTotal = numbered.length ∧ row.linesEnriched = (enrichedOf env numbered).length ∧
    row.linesQuarantined = (recordsOf env numbered).length ∧
    row.linesEnriched + row.linesQuarantined = row.linesTotal

theorem enriched_xor_quarantined (h : ∀ e, o ≠ .error (.raise e)) :
    (enrichedText o).isSome ↔ ¬(quarantineRecord line o).isSome := by
  cases o with
  | ok made => simp [enrichedText, quarantineRecord]
  | error halt =>
    cases halt with
    | quarantine r => simp [enrichedText, quarantineRecord]
    | raise e => exact absurd rfl (h e)

theorem length_filterMap_add {α β γ : Type} {l : List α} {f : α → Option β}
    {g : α → Option γ}
    (h : ∀ a ∈ l, (f a).isSome ↔ ¬(g a).isSome) :
    (l.filterMap f).length + (l.filterMap g).length = l.length := by
  rw [List.length_filterMap_eq_countP, List.length_filterMap_eq_countP,
    l.length_eq_countP_add_countP (fun a => (f a).isSome)]
  congr 1
  refine List.countP_congr fun a ha => ?_
  have := h a ha
  cases hg : (g a).isSome <;> simp_all

theorem getEnrichedByIdentity_insert {db : Db} (hnew : db.getEnrichedByIdentity name sha = none) :
    (db.insertEnrichedFile name sha total enriched quarantined now).getEnrichedByIdentity name sha =
      some (Db.newEnriched name sha total enriched quarantined now db.enrichedFiles.nextKey) := by
  unfold Db.getEnrichedByIdentity at hnew ⊢
  rw [Db.insertEnrichedFile, Table.insert, List.find?_append, hnew, Option.none_or]
  simp [Db.newEnriched]

theorem processFile_new (m : Mount) (name : Text) (summary : EnrichSummary)
    (hread : readNumberedLines raw = some numbered)
    (hnew : m.host.db.getEnrichedByIdentity name (env.sha256 raw) = none) :
    (∀ e, (enrichAll env numbered (summary.discovered numbered)).2 = some e →
      (processFile env m name raw summary false).raised = some e) ∧
    ((enrichAll env numbered (summary.discovered numbered)).2 = none →
      processFile env m name raw summary false =
        writeOut env m name (env.sha256 raw) numbered.length
          (enrichAll env numbered (summary.discovered numbered)).1) := by
  simp only [processFile, hread, hnew, Option.isSome_none, Bool.false_eq_true, if_false]
  cases henrich : enrichAll env numbered (summary.discovered numbered) with
  | mk b raised =>
    cases raised with
    | some e => exact ⟨fun _ h => h, fun h => by cases h⟩
    | none => exact ⟨fun _ h => (by cases h), fun _ => rfl⟩

theorem processFile_raised (hu : env.ucd.Scalar) (hdecoded : env.Decoded) (m : Mount) (name : Text)
    (summary : EnrichSummary) (hread : readNumberedLines raw = some numbered)
    (hnew : m.host.db.getEnrichedByIdentity name (env.sha256 raw) = none) :
    (processFile env m name raw summary false).raised = none ↔ HarmlessFile env numbered := by
  have hlines := encodes_numbered hread
  obtain ⟨hsome, hnone⟩ := processFile_new m name summary hread hnew
  have hsettled : (∀ line ∈ numbered, Settled env.ucd (fileOutcome env numbered line.2)) ↔
      (∀ line ∈ numbered, ∀ e, fileOutcome env numbered line.2 ≠ .error (.raise e)) ∧
      (∀ t ∈ enrichedOf env numbered, t.Encodes) ∧
        ∀ r ∈ recordsOf env numbered, (r.dumps env.ucd).Encodes := by
    simp only [enrichedOf, recordsOf, List.forall_mem_filterMap, ← forall₂_and]
    exact forall₂_congr fun line hline => settled_iff (hlines line hline) _
  rw [harmlessFile_iff hu hdecoded, hsettled]
  cases hall : (enrichAll env numbered (summary.discovered numbered)).2 with
  | some e =>
    rw [hsome e hall]
    refine iff_of_false (fun h => by cases h) fun ⟨hparses, hneed, hno, _⟩ => ?_
    rw [enrichAll_eq_none.mpr ⟨hparses, hneed, hno⟩] at hall
    cases hall
  | none =>
    obtain ⟨hparses, hneed, hno⟩ := enrichAll_eq_none.mp hall
    obtain ⟨hen, hqu⟩ := enrichAll_batch hall
    rw [hnone hall, writeOut_raised, hen, hqu]
    exact ⟨fun h => ⟨hparses, hneed, hno, h⟩, fun h => h.2.2.2⟩

/-- A file comes to its end with every line accounted for exactly if it holds nothing
harmful. -/
theorem processFile_accounted (hu : env.ucd.Scalar) (hdecoded : env.Decoded) (m : Mount)
    (name : Text) (summary : EnrichSummary) (hread : readNumberedLines raw = some numbered)
    (hnew : m.host.db.getEnrichedByIdentity name (env.sha256 raw) = none) :
    ((processFile env m name raw summary false).raised = none ∧
      AccountedIn env name (env.sha256 raw) numbered
        ((processFile env m name raw summary false).effects.foldl FileEffect.apply m)) ↔
      HarmlessFile env numbered := by
  have hiff := processFile_raised hu hdecoded m name summary hread hnew
  refine ⟨fun h => hiff.mp h.1, fun h => ⟨hiff.mpr h, ?_⟩⟩
  obtain ⟨hparses, hneed, hsettled⟩ := (harmlessFile_iff hu hdecoded).mp h
  have hno : ∀ line ∈ numbered, ∀ e, fileOutcome env numbered line.2 ≠ .error (.raise e) :=
    fun line hline =>
      ((settled_iff (encodes_numbered hread line hline) _).mp (hsettled line hline)).1
  have hall : (enrichAll env numbered (summary.discovered numbered)).2 = none :=
    enrichAll_eq_none.mpr ⟨hparses, hneed, hno⟩
  have hrun := (processFile_new m name summary hread hnew).2 hall
  have hraised := hiff.mpr h
  have hsubjects := enrichAll_enriched hall
  obtain ⟨hen, hqu⟩ := enrichAll_batch hall
  rw [hrun] at hraised ⊢
  generalize (enrichAll env numbered (summary.discovered numbered)).1 = b at *
  obtain ⟨hencodes, hrecords⟩ := writeOut_raised.mp hraised
  have hisLine : ∀ t ∈ b.enriched, IsLine Text.isNewline t := by
    rw [hsubjects]
    exact List.forall_mem_map.mpr fun s hs =>
      isLine_dumps (fileSubjects_built s hs).within.1 Json.Separators.compact_ascii
  have hleft := writeOut_left m name (env.sha256 raw) numbered.length
    (fun t ht => ⟨hencodes t ht, hisLine t ht⟩) hrecords
  have honce : ∀ line ∈ numbered, (enrichedText (fileOutcome env numbered line.2)).isSome ↔
      ¬(quarantineRecord line (fileOutcome env numbered line.2)).isSome :=
    fun line hline => enriched_xor_quarantined (hno line hline)
  have hen : b.enriched = enrichedOf env numbered := hen
  have hqu : b.quarantined = recordsOf env numbered := hqu
  refine ⟨honce, hen ▸ hleft.inbox, hqu ▸ hleft.quarantine, _,
    hleft.db ▸ getEnrichedByIdentity_insert hnew, rfl, congrArg List.length hen,
    congrArg List.length hqu, ?_⟩
  show b.enriched.length + b.quarantined.length = numbered.length
  rw [hen, hqu]
  exact length_filterMap_add honce

-- ---------------------------------------------------------------------------
-- Bad lines
-- ---------------------------------------------------------------------------

def cardRow : Row :=
  { forgetfulRow with
    snap :=
      ⟨.str (Text.lit "123456789"), .str (Text.lit "9995-01-01"), .str (Text.lit "1234")⟩ }

def cardEnv : EnrichEnv := .ascii (fun _ => AList.singleton (Text.lit "5") cardRow) fun _ _ => []

def runOn (env : EnrichEnv) (lines : String) : FileRun :=
  processFile env { host := {} } (Text.lit "a.jsonl") lines.toByteArray {} false

/-- A file with one good line, and what holds it back: deals that are a number, a tax id
with a lone surrogate, an ID card issued in 9995. -/
theorem processFile_heldBack :
    (runOn forgetfulEnv clientLine).raised = none ∧
    (runOn forgetfulEnv (clientLine ++ "\n\x7b\"deals\":1\x7d")).raised = some .typeError ∧
    (runOn forgetfulEnv (clientLine ++
      "\n\x7b\"inn\":\"\\ud800\",\"deals\":[\x7b\"dlref\":\"5\"\x7d]\x7d")).raised =
        some .unicodeEncodeError ∧
    (runOn cardEnv clientLine).raised = some .valueError := by
  refine ⟨?_, ?_, ?_, ?_⟩ <;> decide +kernel

theorem forgetfulEnv_decoded : forgetfulEnv.Decoded where
  rows dlrefs e he := by
    have hlit (s : String) : (Cell.str (Text.lit s)).Decoded := by
      rintro t ⟨⟩
      exact Text.encodes_lit s
    have hnull : Cell.null.Decoded := fun t h => by cases h
    have hint (n : Int) : (Cell.int n).Decoded := fun t h => by cases h
    rw [List.mem_singleton.mp he]
    refine ⟨hint 7, ⟨hlit _, hnull, hnull⟩, ⟨hnull, hnull, hnull⟩, hlit _,
      hnull, hint _, ?_⟩
    simp [forgetfulRow, hnull]
  peers ids client peer hpeer := by
    have hlit (s : String) : (Cell.str (Text.lit s)).Decoded := by
      rintro t ⟨⟩
      exact Text.encodes_lit s
    rw [List.mem_singleton.mp hpeer]
    exact ⟨hlit _, hlit _, hlit _⟩

/-- A good line, a blank one and one that is no object: the last is quarantined under its
own number. -/
theorem processFile_accounted_client :
    (runOn forgetfulEnv (clientLine ++ "\n\n[]")).raised = none ∧
      (recordsOf forgetfulEnv [(1, Text.lit clientLine), (3, Text.lit "[]")]).map (·.lineNo) =
        [3] ∧
      AccountedIn forgetfulEnv (Text.lit "a.jsonl")
        (forgetfulEnv.sha256 (clientLine ++ "\n\n[]").toByteArray)
        [(1, Text.lit clientLine), (3, Text.lit "[]")]
        ((runOn forgetfulEnv (clientLine ++ "\n\n[]")).effects.foldl FileEffect.apply
          { host := {} }) := by
  have hread : readNumberedLines (clientLine ++ "\n\n[]").toByteArray =
      some [(1, Text.lit clientLine), (3, Text.lit "[]")] := by decide +kernel
  have hraised := processFile_raised Ucd.ascii_scalar forgetfulEnv_decoded { host := {} }
    (Text.lit "a.jsonl") {} hread rfl
  have haccounted := (processFile_accounted Ucd.ascii_scalar forgetfulEnv_decoded
    { host := {} } (Text.lit "a.jsonl") {} hread rfl).mpr (hraised.mp (by decide +kernel))
  exact ⟨haccounted.1, by decide +kernel, haccounted.2⟩

end UbkiUploader
