import UbkiUploader.DbLaws
import UbkiUploader.Enricher.FileLaws

/-!
# From a subject to the wire

A subject is dumped, written with others into a file of the inbox, read as a line,
kept as the raw line of a record and spliced into an envelope. No stage parses what
the one before wrote, and the bureau still reads the subject.
-/

namespace UbkiUploader

variable {env : EnrichEnv}

-- ---------------------------------------------------------------------------
-- The envelope
-- ---------------------------------------------------------------------------

def envelopeJson (reqidout : Text) (data : Json) : Json :=
  .obj [(Text.lit "reqtype", .str (Text.lit "u")), (Text.lit "reqidout", .str reqidout),
    (Text.lit "reqreason", .str (Text.lit "0")),
    (Text.lit "data", .obj [(Text.lit "fo_cki", data)])]

/-- `uuid4().hex`: lower-case hexadecimal digits. -/
def IsUuid (t : Text) : Prop := ∀ c ∈ t, 48 ≤ c ∧ c ≤ 57 ∨ 97 ≤ c ∧ c ≤ 102

theorem isUuid_hex (width n : Nat) : IsUuid (Text.hex width n) := by
  induction width generalizing n with
  | zero => rintro c hc; cases hc
  | succ width ih =>
    intro c hc
    rcases List.mem_append.mp hc with hc | hc
    · exact ih _ c hc
    · rw [List.mem_singleton.mp hc, Text.hexDigit]
      split <;> omega

theorem IsUuid.flatMap_escape {t : Text} (h : IsUuid t) : t.flatMap Json.escape = t := by
  induction t with
  | nil => rfl
  | cons c t ih =>
    have hc := h c List.mem_cons_self
    have hescape : Json.escape c = [c] := by
      unfold Json.escape
      repeat rw [if_neg (by omega)]
    rw [List.flatMap_cons, hescape, ih fun d hd => h d (List.mem_cons_of_mem _ hd)]
    rfl

theorem strip_eq_self {t : Text} (hfirst : Text.isSpace first = false)
    (hlast : Text.isSpace last = false) :
    Text.strip (first :: t ++ [last]) = first :: t ++ [last] := by
  have hleft : Text.lstrip (first :: t ++ [last]) = first :: t ++ [last] := by
    rw [Text.lstrip, List.cons_append, List.dropWhile_cons, hfirst]
    rfl
  rw [Text.strip, hleft, Text.rstrip, List.rdropWhile_concat_neg _ _ _ (by simp [hlast])]

theorem strip_dumps_obj (fields : Fields) :
    Text.strip ((Json.obj fields).dumps seps) = (Json.obj fields).dumps seps :=
  strip_eq_self rfl rfl

theorem buildEnvelope_dumps {v : Json} (hstrip : Text.strip (v.dumps .compact) = v.dumps .compact)
    (huuid : IsUuid uuid) :
    buildEnvelope (v.dumps .compact) uuid = (envelopeJson uuid v).dumps .compact := by
  have hquote : Json.quote uuid = 34 :: uuid ++ [34] := by rw [Json.quote, huuid.flatMap_escape]
  rw [buildEnvelope, hstrip]
  simp only [envelopeJson, Json.dumps, Json.dumpsFields, hquote]
  simp [Text.join_cons_cons, Text.lit, Json.quote, Json.escape, Json.Separators.compact]

theorem envelopeJson_within {v : Json} (h : Json.Within F levels v) :
    Json.Within F (levels + 2) (envelopeJson uuid v) := by
  refine Within.obj (by simp only [List.map_cons, List.map_nil]; decide) fun f hf => ?_
  simp only [List.mem_cons, List.not_mem_nil, or_false] at hf
  rcases hf with rfl | rfl | rfl | rfl
  · exact ⟨trivial, Nat.zero_le _⟩
  · exact ⟨trivial, Nat.zero_le _⟩
  · exact ⟨trivial, Nat.zero_le _⟩
  · refine Within.obj (by simp only [List.map_cons, List.map_nil]; decide) fun f hf => ?_
    rw [List.mem_singleton.mp hf]
    exact h

theorem loads_buildEnvelope {s : Subject} (h : s.Built env) (huuid : IsUuid uuid) :
    Json.loads env.floats (env.levels + 2) (buildEnvelope s.dumps uuid) =
      .ok (envelopeJson uuid s.toJson) := by
  have hwithin : Json.Within env.floats (env.levels + 2) (envelopeJson uuid s.toJson) :=
    envelopeJson_within h.within
  have hstrip : Text.strip (s.toJson.dumps .compact) = s.toJson.dumps .compact :=
    strip_dumps_obj _
  rw [Subject.dumps, buildEnvelope_dumps hstrip huuid]
  exact Json.loads_dumps Json.Separators.compact_fine hwithin.1 hwithin.2

-- ---------------------------------------------------------------------------
-- The file
-- ---------------------------------------------------------------------------

/-- A folder after the writer is done holds the data under the target's name. -/
theorem read_writeAtomic (m : Mount) (target : Text) (data : ByteArray) :
    (((writeAtomic .inbox m.host.inbox target data).foldl FileEffect.apply m).host.inbox.read
      target) = some data := by
  have hwritten := foldl_writeAtomic m .inbox target data
  simp only [Mount.shelf] at hwritten
  rw [hwritten]
  exact read_written _ target data

structure CarriedBy (env : EnrichEnv) (fileId lineNo : Nat) (s : Subject) (r : RecordRow) :
    Prop where
  file : r.fileId = fileId
  line : r.lineNo = lineNo
  raw : r.rawLine = s.dumps
  received : Json.loads env.floats (env.levels + 2) (buildEnvelope r.rawLine r.uuid) =
    .ok (envelopeJson r.uuid s.toJson)

theorem carriedBy_of_inserted {uuid4 : Nat → Text} {subjects : List Subject}
    (hbuilt : ∀ s ∈ subjects, s.Built env)
    (huuid : ∀ n, IsUuid (uuid4 n))
    (h : List.Forall₂ (fun line r => r =
      Db.newRecord (uuid4 line.2) fileId line.2 line.1 now r.id)
      ((subjects.map Subject.dumps).zipIdx k) records) :
    List.Forall₂ (fun s r => CarriedBy env fileId s.2 s.1 r) (subjects.zipIdx k) records := by
  induction subjects generalizing k records with
  | nil =>
    cases h
    exact .nil
  | cons s subjects ih =>
    obtain ⟨r, records, hr, hrecords, rfl⟩ := List.forall₂_cons_left_iff.mp h
    refine .cons ?_ (ih (fun s hs => hbuilt s (List.mem_cons_of_mem _ hs)) hrecords)
    rw [hr]
    exact ⟨rfl, rfl, rfl, loads_buildEnvelope (hbuilt s List.mem_cons_self) (huuid k)⟩

/-- Subjects come through: the file holds their texts, a line each, and the records made of
it carry them in order. -/
theorem subjects_carried {subjects : List Subject} (hbuilt : ∀ s ∈ subjects, s.Built env)
    (hencodes : ∀ s ∈ subjects, (Text.encodeUtf8 s.dumps).isSome) (m : Mount) (name sha : Text)
    (db : Db) (filename sha' : Text) (size : Nat) (now : Timestamp) (uuid4 : Nat → Text)
    (huuid : ∀ n, IsUuid (uuid4 n)) :
    ∃ data target lines records, encodeLines (subjects.map Subject.dumps) = some data ∧
      target = enrichedTarget m.host.inbox name sha data ∧
      ((writeAtomic .inbox m.host.inbox target data).foldl FileEffect.apply m).host.inbox.read
        target = some data ∧
      readLines data = some lines ∧
      (db.insertFile filename sha' size lines uuid4 now).records.rows =
        db.records.rows ++ records ∧
      List.Forall₂ (fun s r => CarriedBy env db.files.nextKey s.2 s.1 r) (subjects.zipIdx 1)
        records := by
  have hsome : (encodeLines (subjects.map Subject.dumps)).isSome :=
    encodeLines_isSome.mpr (List.forall_mem_map.mpr hencodes)
  obtain ⟨data, hdata⟩ := Option.isSome_iff_exists.mp hsome
  have hlines : ∀ line ∈ subjects.map Subject.dumps, IsLine Text.isNewline line :=
    List.forall_mem_map.mpr fun s hs =>
      isLine_dumps (hbuilt s hs).within.1 Json.Separators.compact_ascii
  obtain ⟨records, hrows, hrecords⟩ : ∃ records : List RecordRow,
      (db.insertFile filename sha' size (subjects.map Subject.dumps) uuid4 now).records.rows =
        db.records.rows ++ records ∧ List.Forall₂ _ _ records := Db.insertRecordRows_rows
  exact ⟨data, _, _, records, hdata, rfl, read_writeAtomic m _ data,
    readLines_encodeLines hdata hlines, hrows, carriedBy_of_inserted hbuilt huuid hrecords⟩

def forgetfulEnv : EnrichEnv :=
  .ascii (fun _ => AList.singleton (Text.lit "5") forgetfulRow) fun _ _ => [forgetfulPeer]

def twoDealLine : Fields :=
  Json.setField (Text.lit "deals") (.arr [.obj [(Text.lit "dlref", .int 5)],
    .obj [(Text.lit "dlref", .int 5), (Text.lit "dlcurr", .str (Text.lit "980"))]]) forgetfulLine

theorem forgetfulLine_within :
    Json.Within forgetfulEnv.floats forgetfulEnv.levels (.obj forgetfulLine) := by
  refine ⟨?_, by decide⟩
  simp only [forgetfulLine, Json.Good, Json.goodFields_iff]
  refine ⟨by decide, ?_⟩
  simp [Json.Good, Json.GoodItems, Json.GoodFields]
  decide

theorem twoDealLine_within :
    Json.Within forgetfulEnv.floats forgetfulEnv.levels (.obj twoDealLine) := by
  refine ⟨?_, by decide⟩
  have hline : twoDealLine = [_, _, _, _, _] := rfl
  simp only [hline, Json.Good, Json.goodFields_iff]
  refine ⟨by decide, ?_⟩
  simp [Json.Good, Json.GoodItems, Json.GoodFields]
  decide

/-- A line of the client becomes a subject, which can be written. -/
theorem exists_built {line : Fields} {deals : Nat}
    (hwithin : Json.Within forgetfulEnv.floats forgetfulEnv.levels (.obj line))
    (hmade : (enrichLine .ascii {} (AList.singleton (Text.lit "5") forgetfulRow)
      (fun _ => [forgetfulPeer]) line).toOption.any (fun made =>
        decide (made.1.deals.length = deals ∧ ∀ c ∈ made.1.dumps, c.isValidChar)) = true) :
    ∃ s : Subject, s.Built forgetfulEnv ∧ s.deals.length = deals ∧
      (Text.encodeUtf8 s.dumps).isSome := by
  cases hline : enrichLine .ascii {} (AList.singleton (Text.lit "5") forgetfulRow)
      (fun _ => [forgetfulPeer]) line with
  | error halt =>
    rw [hline] at hmade
    cases hmade
  | ok made =>
    rw [hline] at hmade
    obtain ⟨hdeals, hchars⟩ := of_decide_eq_true hmade
    exact ⟨made.1, ⟨_, _, _, made.2, hwithin, hline⟩, hdeals,
      Text.encodeUtf8_isSome_iff.mpr hchars⟩

theorem subjects_carried_forgetful : ∃ s₁ s₂ : Subject,
    (s₁.Built forgetfulEnv ∧ s₁.deals.length = 1) ∧
    (s₂.Built forgetfulEnv ∧ s₂.deals.length = 2) ∧
    ∃ data target lines records, encodeLines [s₁.dumps, s₂.dumps] = some data ∧
      target = enrichedTarget ∅ (Text.lit "a.jsonl") [] data ∧
      ((writeAtomic .inbox ∅ target data).foldl FileEffect.apply { host := {} }).host.inbox.read
        target = some data ∧
      readLines data = some lines ∧
      (({} : Db).insertFile (Text.lit "a.jsonl") [] 1 lines (Text.hex 32) 0).records.rows =
        [] ++ records ∧
      List.Forall₂ (fun s r => CarriedBy forgetfulEnv 1 s.2 s.1 r) [(s₁, 1), (s₂, 2)]
        records := by
  obtain ⟨s₁, hbuilt₁, hdeals₁, hencodes₁⟩ :=
    @exists_built forgetfulLine 1 forgetfulLine_within (by decide +kernel)
  obtain ⟨s₂, hbuilt₂, hdeals₂, hencodes₂⟩ :=
    @exists_built twoDealLine 2 twoDealLine_within (by decide +kernel)
  have hbuilt : ∀ s ∈ [s₁, s₂], s.Built forgetfulEnv := by
    simpa using ⟨hbuilt₁, hbuilt₂⟩
  have hencodes : ∀ s ∈ [s₁, s₂], (Text.encodeUtf8 s.dumps).isSome := by
    simpa using ⟨hencodes₁, hencodes₂⟩
  exact ⟨s₁, s₂, ⟨hbuilt₁, hdeals₁⟩, ⟨hbuilt₂, hdeals₂⟩,
    subjects_carried hbuilt hencodes { host := {} } (Text.lit "a.jsonl") [] {}
      (Text.lit "a.jsonl") [] 1 0 (Text.hex 32) (isUuid_hex 32)⟩

end UbkiUploader
