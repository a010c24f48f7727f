import UbkiUploader.Backfill.Readers
import UbkiUploader.Enricher.Accounted

/-!
# Quarantine files that are dropped again

A quarantine file has the name and the shape of a raw file, so that it can be dropped
back once the cabinet is fixed. A record wraps its line. The reader takes one wrapping
off, and breaks lines where the writer leaves characters as they are.
-/

namespace UbkiUploader

variable {env : EnrichEnv} {u : Ucd} {raw : Text} {r : QuarantineRecord}

-- ---------------------------------------------------------------------------
-- Generations
-- ---------------------------------------------------------------------------

/-- A record that was written for a producer's line the `n`-th time, if each record before it
was read back as a line. The cabinet may answer each time what it likes. -/
inductive Requarantined (env : EnrichEnv) (raw : Text) : Nat → QuarantineRecord → Prop
  | first {rows peers lineNo reason} :
      IsLine Text.isLineBreak raw →
      lineOutcome env rows peers raw = .error (.quarantine reason) →
      Requarantined env raw 1 ⟨lineNo, reason, raw⟩
  | again {n r rows peers lineNo reason} :
      Requarantined env raw n r → IsLine Text.isLineBreak (r.dumps env.ucd) →
      lineOutcome env rows peers (r.dumps env.ucd) = .error (.quarantine reason) →
      Requarantined env raw (n + 1) ⟨lineNo, reason, r.dumps env.ucd⟩

theorem isLine_of_mem_numbered (h : readNumberedLines data = some numbered)
    (hmem : line ∈ numbered) :
    IsLine Text.isLineBreak line.2 := by
  obtain ⟨t, -, rfl⟩ := Option.map_eq_some_iff.mp h
  obtain ⟨⟨text, n⟩, hzip, hkept⟩ := List.mem_filterMap.mp hmem
  simp only at hkept
  split at hkept
  · cases hkept
  · rename_i hblank
    cases hkept
    exact ⟨by simpa using hblank,
      Text.not_isBreak_of_mem_breakLines (List.fst_mem_of_mem_zipIdx hzip)⟩

theorem requarantined_first (h : readNumberedLines data = some numbered)
    (hr : r ∈ recordsOf env numbered) : Requarantined env r.line 1 r := by
  obtain ⟨line, hline, hrecord⟩ := List.mem_filterMap.mp hr
  have hraw := isLine_of_mem_numbered h hline
  unfold quarantineRecord at hrecord
  split at hrecord
  · cases hrecord
    exact .first hraw ‹_›
  · cases hrecord

-- ---------------------------------------------------------------------------
-- Reading records back
-- ---------------------------------------------------------------------------

def numberLines (lines : List Text) : List (Nat × Text) := (lines.zipIdx 1).map Prod.swap

theorem numberedLines_unlines {lines : List Text}
    (h : ∀ line ∈ lines, IsLine Text.isLineBreak line) :
    numberedLines (Text.unlines lines) = numberLines lines := by
  rw [numberedLines, Text.splitlines,
    Text.breakLines_unlines rfl rfl fun line hline => (h line hline).2,
    numberLines, ← List.filterMap_eq_map]
  refine List.filterMap_congr fun e he => ?_
  have hblank := (h e.1 (List.fst_mem_of_mem_zipIdx he)).1
  simp [hblank, Prod.swap]

theorem decodeRaw_of_encodeUtf8 (h : Text.encodeUtf8 t = some data) : decodeRaw data = some t := by
  rw [decodeRaw, Text.decodeUtf8_of_encodeUtf8 h, Option.some_or]

theorem readNumberedLines_encodeLines {lines : List Text} (hne : lines ≠ [])
    (hdata : encodeLines lines = some data) :
    readNumberedLines data = some (numberLines lines) ↔
      ∀ line ∈ lines, IsLine Text.isLineBreak line := by
  constructor
  · intro h line hline
    obtain ⟨n, hn⟩ : ∃ n, (line, n) ∈ lines.zipIdx 1 := by
      rw [← List.zipIdx_map_fst 1 lines] at hline
      obtain ⟨⟨text, n⟩, hmem, rfl⟩ := List.mem_map.mp hline
      exact ⟨n, hmem⟩
    have hmem : (n, line) ∈ numberLines lines := List.mem_map.mpr ⟨_, hn, rfl⟩
    exact isLine_of_mem_numbered h hmem
  · intro h
    rw [encodeLines, Text.join_newline hne] at hdata
    rw [readNumberedLines, decodeRaw_of_encodeUtf8 hdata, Option.map_some, numberedLines_unlines h]

/-- The reader breaks a record where the characters of its reason or its line break. -/
theorem QuarantineRecord.isLineBreak_dumps (r : QuarantineRecord) :
    IsLine Text.isLineBreak (r.dumps u) ↔ Unbroken (r.reason.text u) ∧ Unbroken r.line :=
  (and_iff_right r.isLine_dumps.1).trans ((r.forall_mem_dumps isLineBreak_ascii).trans
    (and_congr unbroken_iff unbroken_iff))

-- ---------------------------------------------------------------------------
-- Unwrapping
-- ---------------------------------------------------------------------------

/-- The record as `json.loads` reads it. -/
def QuarantineRecord.fields (u : Ucd) (r : QuarantineRecord) : Fields :=
  [(Text.lit "line_no", .int r.lineNo), (Text.lit "reason", .str (r.reason.text u)),
    (Text.lit "line", .str r.line)]

theorem loads_dumps_record (hlevels : 0 < env.levels)
    (hno : (Text.ofNat r.lineNo).length ≤ Json.maxStrDigits) :
    Json.loads env.floats env.levels (r.dumps env.ucd) = .ok (.obj (r.fields env.ucd)) := by
  refine Json.loads_dumps Json.Separators.standard_fine (v := r.toJson env.ucd) ⟨?_, ?_⟩ hlevels
  · simp only [List.map_cons, List.map_nil]
    decide
  · exact ⟨hno, trivial, trivial, trivial⟩

theorem isWrapper_fields (r : QuarantineRecord) : isWrapper (r.fields u) = true := by
  simp only [isWrapper, QuarantineRecord.fields, List.all_cons, List.all_nil, quarantineKeys]
  rfl

theorem lookup_fields (r : QuarantineRecord) :
    (r.fields u).lookup (Text.lit "line") = some (.str r.line) := rfl

/-- What a line unwraps to is the text of another line. -/
def Unwraps (env : EnrichEnv) (raw line : Text) : Prop :=
  ∃ obj, Json.loads env.floats env.levels line = .ok (.obj obj) ∧ isWrapper obj ∧
    obj.lookup (Text.lit "line") = some (.str raw)

theorem unwraps_dumps (hlevels : 0 < env.levels)
    (hno : (Text.ofNat r.lineNo).length ≤ Json.maxStrDigits) :
    Unwraps env raw (r.dumps env.ucd) ↔ r.line = raw := by
  have hloads := loads_dumps_record hlevels hno
  constructor
  · rintro ⟨obj, hobj, -, hline⟩
    rw [hloads] at hobj
    cases hobj
    rw [lookup_fields] at hline
    exact Json.str.inj (Option.some.inj hline)
  · rintro rfl
    exact ⟨_, hloads, isWrapper_fields r, lookup_fields r⟩

-- ---------------------------------------------------------------------------
-- Verdicts
-- ---------------------------------------------------------------------------

/-- The same subject, or the same kind of reason. -/
def SameVerdict : Except Halt (Subject × DocStats) → Except Halt (Subject × DocStats) → Prop
  | .ok made, .ok made' => made.1 = made'.1
  | .error (.quarantine reason), .error (.quarantine reason') => reason.ctorIdx = reason'.ctorIdx
  | .error (.raise e), .error (.raise e') => e = e'
  | _, _ => False

theorem SameVerdict.refl (o : Except Halt (Subject × DocStats)) : SameVerdict o o := by
  cases o with
  | ok made => rfl
  | error halt => cases halt <;> rfl

/-- Against the same rows, whatever they are, two lines get the same verdict. -/
def SameVerdicts (env : EnrichEnv) (line raw : Text) : Prop :=
  ∀ rows peers, SameVerdict (lineOutcome env rows peers line) (lineOutcome env rows peers raw)

def IsWrapperLine (env : EnrichEnv) (raw : Text) : Prop :=
  ∃ obj, Json.loads env.floats env.levels raw = .ok (.obj obj) ∧ isWrapper obj

/-- A line that is quarantined because it has no `inn`. -/
def MissesInn (env : EnrichEnv) (raw : Text) : Prop :=
  ∃ obj, lineObject env raw = .ok obj ∧ lineText env.ucd obj "inn" = []

def objectOf : Json → Except Halt Fields
  | .obj obj => .ok obj
  | _ => .error (.quarantine .notAnObject)

theorem lineObject_eq : lineObject env raw =
    jsonLoads env raw >>= fun v => unwrapQuarantine env v >>= objectOf := by
  unfold lineObject
  refine congrArg _ (funext fun v => congrArg _ (funext fun v' => ?_))
  cases v' <;> rfl

theorem lineObject_dumps (hlevels : 0 < env.levels)
    (hno : (Text.ofNat r.lineNo).length ≤ Json.maxStrDigits) :
    lineObject env (r.dumps env.ucd) = jsonLoads env r.line >>= objectOf := by
  have houter : jsonLoads env (r.dumps env.ucd) = .ok (.obj (r.fields env.ucd)) :=
    jsonLoads_eq_ok.mpr (loads_dumps_record hlevels hno)
  have hinner : unwrapQuarantine env (.obj (r.fields env.ucd)) = jsonLoads env r.line := by
    rw [unwrapQuarantine, if_pos (isWrapper_fields r), lookup_fields]
  rw [lineObject_eq, houter, Except.ok_bind, hinner]

theorem lineObject_of_plain (h : ¬IsWrapperLine env raw) :
    lineObject env raw = jsonLoads env raw >>= objectOf := by
  rw [lineObject_eq]
  cases hv : jsonLoads env raw with
  | error halt => rfl
  | ok v =>
    have hsame : unwrapQuarantine env v = .ok v := by
      cases v with
      | obj obj =>
        have hno : ¬isWrapper obj := fun hw => h ⟨obj, jsonLoads_eq_ok.mp hv, hw⟩
        rw [unwrapQuarantine, if_neg hno]
      | _ => rfl
    rw [Except.ok_bind, hsame]

theorem lineText_wrapper (h : isWrapper obj) : lineText u obj "inn" = [] := by
  have hnone : obj.lookup (Text.lit "inn") = none := by
    rw [List.lookup_eq_none_iff]
    intro f hf
    simp only [isWrapper, Bool.and_eq_true, List.all_eq_true, decide_eq_true_eq] at h
    have hkey := h.1 f hf
    simp only [quarantineKeys, List.mem_cons, List.not_mem_nil, or_false] at hkey
    rcases hkey with hkey | hkey | hkey <;> rw [hkey] <;> decide
  rw [lineText, Json.textOr, hnone]
  rfl

theorem enrichLine_noInn (h : lineText u line "inn" = []) :
    enrichLine u config rows peers line = .error (.quarantine .noInn) := by
  have hinn : lineInn u line = .error (.quarantine .noInn) := if_pos h
  rw [enrichLine, hinn]
  rfl

theorem MissesInn.outcome (h : MissesInn env raw) :
    lineOutcome env rows peers raw = .error (.quarantine .noInn) := by
  obtain ⟨obj, hobj, hinn⟩ := h
  rw [lineOutcome, hobj, Except.ok_bind, enrichLine_noInn hinn]

theorem lineObject_eq_quarantine (h : lineObject env raw = .error (.quarantine reason)) :
    (∃ exc, reason = .brokenJson exc) ∨ reason = .notAnObject := by
  have hjson {doc : Text} (h : jsonLoads env doc = .error (.quarantine reason)) :
      ∃ exc, reason = .brokenJson exc := by
    unfold jsonLoads at h
    split at h
    · cases h
    · cases h
    · cases h
      exact ⟨_, rfl⟩
  rw [lineObject_eq, Except.bind_eq_error] at h
  rcases h with h | ⟨v, -, h⟩
  · exact .inl (hjson h)
  · rcases Except.bind_eq_error.mp h with h | ⟨v', -, h⟩
    · unfold unwrapQuarantine at h
      split at h
      · split at h
        · split at h
          · exact .inl (hjson h)
          · cases h
          · cases h
        · cases h
      · cases h
    · unfold objectOf at h
      split at h
      · cases h
      · cases h
        exact .inr rfl

/-- With no rows at all, only a line without `inn` is quarantined for that. -/
theorem missesInn_of_outcome (h : lineOutcome env ∅ peers raw = .error (.quarantine .noInn)) :
    MissesInn env raw := by
  rcases Except.bind_eq_error.mp h with h | ⟨obj, hobj, h⟩
  · rcases lineObject_eq_quarantine h with ⟨exc, h⟩ | h <;> cases h
  refine ⟨obj, hobj, by_contra fun hinn => ?_⟩
  have hok : lineInn env.ucd obj = .ok (lineText env.ucd obj "inn") := if_neg hinn
  rw [enrichLine, hok, Except.ok_bind] at h
  rcases Except.bind_eq_error.mp h with h | ⟨deals, hdeals, h⟩
  · unfold lineDeals at h
    split at h <;> cases h
  · rcases Except.bind_eq_error.mp h with h | ⟨dealRows, hrows, -⟩
    · obtain ⟨deal, -, hdeal⟩ := Except.mapM_eq_error h
      unfold dealRow at hdeal
      split at hdeal
      · cases hdeal
      · split at hdeal <;> cases hdeal
    · obtain ⟨deal, hdeal⟩ := List.exists_mem_of_ne_nil _ (lineDeals_eq_ok hdeals).2
      obtain ⟨row, -, hrow⟩ := (Except.mapM_eq_ok.mp hrows).exists_right hdeal
      have hfound := (dealRow_eq_ok.mp hrow).2
      rw [AList.lookup_empty] at hfound
      cases hfound

/-- A record gets the verdict of its line, unless that is a record itself, and has an
`inn` under its own wrapping. -/
theorem sameVerdicts_dumps (hlevels : 0 < env.levels)
    (hno : (Text.ofNat r.lineNo).length ≤ Json.maxStrDigits) :
    SameVerdicts env (r.dumps env.ucd) r.line ↔
    (IsWrapperLine env r.line → MissesInn env r.line) := by
  by_cases hwrapper : IsWrapperLine env r.line
  · obtain ⟨obj, hobj, hkeys⟩ := id hwrapper
    have hlost (rows : Rows) (peers : Peers) :
        lineOutcome env rows peers (r.dumps env.ucd) = .error (.quarantine .noInn) := by
      rw [lineOutcome, lineObject_dumps hlevels hno, jsonLoads_eq_ok.mpr hobj]
      exact enrichLine_noInn (lineText_wrapper hkeys)
    simp only [SameVerdicts, hlost, hwrapper, true_implies]
    constructor
    · intro h
      have hnone := h ∅ fun _ => []
      suffices lineOutcome env ∅ (fun _ => []) r.line = .error (.quarantine .noInn) from
        missesInn_of_outcome this
      cases houtcome : lineOutcome env ∅ (fun _ => []) r.line with
      | ok made => simp [SameVerdict, houtcome] at hnone
      | error halt =>
        cases halt with
        | raise e => simp [SameVerdict, houtcome] at hnone
        | quarantine reason =>
          rw [houtcome] at hnone
          cases reason <;> first | rfl | cases hnone
    · intro h rows peers
      rw [h.outcome]
      rfl
  · refine iff_of_true (fun rows peers => ?_) fun h => absurd h hwrapper
    rw [lineOutcome, lineOutcome, lineObject_dumps hlevels hno, lineObject_of_plain hwrapper]
    exact SameVerdict.refl _

-- ---------------------------------------------------------------------------
-- Files
-- ---------------------------------------------------------------------------

/-- A quarantine file comes back as it went: each record is one line, unwraps to the
producer's line and gets its verdict. -/
structure RoundTrips (env : EnrichEnv) (raws : List Text) (rs : List QuarantineRecord)
    (data : ByteArray) : Prop where
  read : readNumberedLines data = some (numberLines (rs.map (·.dumps env.ucd)))
  unwraps : List.Forall₂ (fun raw r => Unwraps env raw (r.dumps env.ucd)) raws rs
  verdicts : List.Forall₂ (fun raw r => SameVerdicts env (r.dumps env.ucd) raw) raws rs

theorem length_lt_quote (t : Text) : t.length < (Json.quote t).length := by
  have hescape (c : Nat) : 1 ≤ (Json.escape c).length := by
    unfold Json.escape
    repeat' split
    all_goals simp [Text.lit, Text.hex]
  have hall : t.length ≤ (t.flatMap Json.escape).length := by
    induction t with
    | nil => exact Nat.le_refl 0
    | cons c t ih =>
      have := hescape c
      rw [List.flatMap_cons, List.length_append, List.length_cons]
      omega
  simp only [Json.quote, List.length_append, List.length_cons]
  omega

theorem length_lt_dumps (r : QuarantineRecord) : r.line.length < (r.dumps u).length := by
  have := length_lt_quote r.line
  simp only [QuarantineRecord.dumps, QuarantineRecord.toJson, Json.dumps, Json.dumpsFields,
    Text.join_cons_cons, Text.join_singleton, List.length_append, List.length_cons]
  omega

/-- Only the record of the first time carries the producer's line. -/
theorem Requarantined.line_eq_or_length (h : Requarantined env raw n r) :
    (n = 1 ∧ r.line = raw) ∨ (1 < n ∧ raw.length < r.line.length) := by
  induction h with
  | first _ _ => exact .inl ⟨rfl, rfl⟩
  | @again n r _ _ _ _ _ _ _ ih =>
    have := length_lt_dumps (u := env.ucd) r
    right
    rcases ih with ⟨rfl, rfl⟩ | ⟨hn, hlen⟩
    · exact ⟨by omega, this⟩
    · exact ⟨by omega, hlen.trans this⟩

theorem Requarantined.unbroken (h : Requarantined env raw n r) : Unbroken r.line := by
  cases h with
  | first hraw _ => exact unbroken_iff.mp fun c hc _ => hraw.2 c hc
  | again _ hline _ => exact unbroken_iff.mp fun c hc _ => hline.2 c hc

/-- A quarantine file comes back exactly if its records were written for the first time, no
reason in it holds a character that ends a line, and no line of it that is a record itself
has an `inn` under its wrapping. -/
theorem requarantined_roundTrips (hlevels : 0 < env.levels) (hne : rs ≠ [])
    (hgen : List.Forall₂ (fun raw r => Requarantined env raw n r) raws rs)
    (hno : ∀ r ∈ rs, (Text.ofNat r.lineNo).length ≤ Json.maxStrDigits)
    (hdata : encodeLines (rs.map (·.dumps env.ucd)) = some data) :
    RoundTrips env raws rs data ↔ n = 1 ∧ ∀ r ∈ rs, Unbroken (r.reason.text env.ucd) ∧
      (IsWrapperLine env r.line → MissesInn env r.line) := by
  have hread : readNumberedLines data = some (numberLines (rs.map (·.dumps env.ucd))) ↔
      ∀ r ∈ rs, Unbroken (r.reason.text env.ucd) := by
    rw [readNumberedLines_encodeLines (by simpa using hne) hdata, List.forall_mem_map]
    refine forall₂_congr fun r hr => r.isLineBreak_dumps.trans (and_iff_left ?_)
    obtain ⟨raw, -, hraw⟩ := hgen.exists_left hr
    exact hraw.unbroken
  -- where the records carry the producers' lines, there is one thing to say of each record
  have hown (h : List.Forall₂ (fun raw r => r.line = raw) raws rs) : raws = rs.map (·.line) := by
    have heq : List.Forall₂ (· = ·) (rs.map (·.line)) raws :=
      List.forall₂_map_left_iff.mpr h.flip
    rw [List.forall₂_eq_eq_eq] at heq
    exact heq.symm
  constructor
  · rintro ⟨hlines, hunwraps, hverdicts⟩
    have hraws : raws = rs.map (·.line) := by
      refine hown (hunwraps.flip.imp_of_mem fun r hr raw hraw => ?_).flip
      exact (unwraps_dumps hlevels (hno r hr)).mp hraw
    subst hraws
    rw [List.forall₂_map_left_iff, List.forall₂_same] at hgen hverdicts
    obtain ⟨r, hr⟩ := List.exists_mem_of_ne_nil _ hne
    refine ⟨?_, fun r hr => ⟨hread.mp hlines r hr, ?_⟩⟩
    · rcases (hgen r hr).line_eq_or_length with ⟨hn, -⟩ | ⟨-, hlen⟩
      · exact hn
      · exact absurd hlen (lt_irrefl _)
    · exact (sameVerdicts_dumps hlevels (hno r hr)).mp (hverdicts r hr)
  · rintro ⟨rfl, hall⟩
    have hraws : raws = rs.map (·.line) := by
      refine hown (hgen.imp fun raw r h => ?_)
      rcases h.line_eq_or_length with ⟨-, hline⟩ | ⟨hn, -⟩
      · exact hline
      · exact absurd hn (lt_irrefl _)
    subst hraws
    refine ⟨hread.mpr fun r hr => (hall r hr).1, ?_, ?_⟩
    · rw [List.forall₂_map_left_iff, List.forall₂_same]
      exact fun r hr => (unwraps_dumps hlevels (hno r hr)).mpr rfl
    · rw [List.forall₂_map_left_iff, List.forall₂_same]
      exact fun r hr => (sameVerdicts_dumps hlevels (hno r hr)).mpr (hall r hr).2

-- ---------------------------------------------------------------------------
-- Files that come back changed
-- ---------------------------------------------------------------------------

def quarantineFile (env : EnrichEnv) (raw : ByteArray) : Option ByteArray :=
  (batchOf env raw).bind fun made => encodeLines (made.1.quarantined.map (·.dumps env.ucd))

def tagsOf (env : EnrichEnv) (raw : ByteArray) : Option (List Nat) :=
  (reasonsOf env raw).map (·.map Reason.ctorIdx)

/-- A `dlref` that is not found is told so again after one drop, but after two the line
has no `inn`; with a line separator in it there are two lines of broken JSON after one. -/
theorem quarantineFile_lost :
    (reasonsOf twoEnv (dealLine "9").toByteArray = some [.unknownDlref (Text.lit "9")] ∧
      (quarantineFile twoEnv (dealLine "9").toByteArray).bind (reasonsOf twoEnv) =
        some [.unknownDlref (Text.lit "9")] ∧
      ((quarantineFile twoEnv (dealLine "9").toByteArray).bind (quarantineFile twoEnv)).bind
        (reasonsOf twoEnv) = some [.noInn]) ∧
    (tagsOf twoEnv (dealLine "9\\u20289").toByteArray =
        some [(Reason.unknownDlref []).ctorIdx] ∧
      (quarantineFile twoEnv (dealLine "9\\u20289").toByteArray).bind (tagsOf twoEnv) =
        some [(Reason.brokenJson []).ctorIdx, (Reason.brokenJson []).ctorIdx]) := by
  refine ⟨⟨?_, ?_, ?_⟩, ?_, ?_⟩ <;> decide +kernel

/-- The record of a line with an unknown `dlref`. -/
def unknownRecord : QuarantineRecord :=
  ⟨1, .unknownDlref (Text.lit "9"), Text.lit (dealLine "9")⟩

theorem requarantined_roundTrips_unknown :
    ∃ data, encodeLines [unknownRecord.dumps twoEnv.ucd] = some data ∧
      RoundTrips twoEnv [Text.lit (dealLine "9")] [unknownRecord] data := by
  have hwritten : (encodeLines [unknownRecord.dumps twoEnv.ucd]).isSome := by decide +kernel
  obtain ⟨data, hdata⟩ := Option.isSome_iff_exists.mp hwritten
  have hread : readNumberedLines (dealLine "9").toByteArray =
    some [(1, Text.lit (dealLine "9"))] := by
    decide +kernel
  have hrecord : unknownRecord ∈ recordsOf twoEnv [(1, Text.lit (dealLine "9"))] := by
    decide +kernel
  have hplain : ¬IsWrapperLine twoEnv (Text.lit (dealLine "9")) := by
    have hkeys : (Json.loads twoEnv.floats twoEnv.levels (Text.lit (dealLine "9"))).toOption.any
        (fun v => match v with | .obj obj => isWrapper obj | _ => false) = false := by
          decide +kernel
    rintro ⟨obj, hobj, hw⟩
    rw [hobj] at hkeys
    cases hw.symm.trans hkeys
  have hgen : Requarantined twoEnv (Text.lit (dealLine "9")) 1 unknownRecord :=
    requarantined_first hread hrecord
  refine ⟨data, hdata,
    (requarantined_roundTrips (by decide) (List.cons_ne_nil _ _) (.cons hgen .nil)
    (by decide +kernel) hdata).mpr ⟨rfl,
      List.forall_mem_singleton.mpr ⟨?_, fun h => absurd h hplain⟩⟩⟩
  unfold Unbroken
  decide +kernel

end UbkiUploader
