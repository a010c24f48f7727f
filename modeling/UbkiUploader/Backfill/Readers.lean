import UbkiUploader.Enricher.Accounted

/-!
# Three readers of lines (backfill_deallife.py, `read_file_lines`)

The uploader reads a file in text mode, the enricher and the backfill tool break it
with `splitlines`. On what is valid UTF-8 they differ only where `splitlines` breaks
a line that text mode leaves whole.
-/

namespace UbkiUploader

def readFileLines (raw : ByteArray) : Option (List Text) :=
  (decodeRaw raw).map fun text => (Text.splitlines text).filter (!isBlank ·)

/-- The uploader, the enricher and the backfill tool read these lines in a file. -/
structure AllRead (raw : ByteArray) (lines : List Text) : Prop where
  uploader : readLines raw = some lines
  enricher : (readNumberedLines raw).map (·.map (·.2)) = some lines
  backfill : readFileLines raw = some lines

/-- A text without the breaks that only `splitlines` has and JSON leaves as they are. -/
def Unbroken (t : Text) : Prop := ∀ c ∈ t, c ≠ 0x85 ∧ c ≠ 0x2028 ∧ c ≠ 0x2029

theorem numberedLines_map_snd (text : Text) :
    (numberedLines text).map (·.2) = (Text.splitlines text).filter (!isBlank ·) := by
  have hzip (lines : List Text) (n : Nat) : ((lines.zipIdx n).filterMap fun p =>
      if isBlank p.1 then none else some (p.2, p.1)).map (·.2) = lines.filter (!isBlank ·) := by
    induction lines generalizing n with
    | nil => rfl
    | cons line lines ih =>
      by_cases hblank : isBlank line
      · simpa [hblank] using ih (n + 1)
      · simpa [hblank] using ih (n + 1)
  exact hzip _ 1

/-- On valid UTF-8 the readers of the enricher and of the backfill tool are one. -/
theorem allRead_iff (h : Text.decodeUtf8 raw = some t) : AllRead raw lines ↔
    (Text.breakLines Text.isNewline t).filter (!isBlank ·) = lines ∧
      (Text.splitlines t).filter (!isBlank ·) = lines := by
  have hraw : decodeRaw raw = some t := by rw [decodeRaw, h, Option.some_or]
  constructor
  · rintro ⟨hup, -, hback⟩
    rw [readLines, h] at hup
    rw [readFileLines, hraw] at hback
    exact ⟨Option.some.inj hup, Option.some.inj hback⟩
  · rintro ⟨hup, hback⟩
    refine ⟨by rw [readLines, h, Option.map_some, hup], ?_, ?_⟩
    · rw [readNumberedLines, hraw, Option.map_some, Option.map_some, numberedLines_map_snd, hback]
    · rw [readFileLines, hraw, Option.map_some, hback]

theorem exists_allRead_iff (h : Text.decodeUtf8 raw = some t) : (∃ lines, AllRead raw lines) ↔
    (Text.breakLines Text.isNewline t).filter (!isBlank ·) =
      (Text.splitlines t).filter (!isBlank ·) := by
  simp only [allRead_iff h]
  exact ⟨fun ⟨_, hup, hback⟩ => hup.trans hback.symm, fun heq => ⟨_, rfl, heq.symm⟩⟩

theorem isLineBreak_of_isNewline (c : Nat) (h : Text.isNewline c) : Text.isLineBreak c := by
  simp only [Text.isNewline, Bool.or_eq_true, decide_eq_true_eq] at h
  rcases h with rfl | rfl <;> rfl

/-- Lines that are not blank are read alike exactly when `splitlines` breaks none. -/
theorem filter_splitlines_eq_iff (t : Text) :
    (Text.breakLines Text.isNewline t).filter (!isBlank ·) =
      (Text.splitlines t).filter (!isBlank ·) ↔
    ∀ line ∈ t.splitOnP Text.isNewline, isBlank line = false →
      ∀ c ∈ line, Text.isLineBreak c = false := by
  simp only [isBlank_eq, Bool.not_eq_false', Bool.not_not]
  exact Text.filter_breakLines_eq_iff isLineBreak_of_isNewline rfl rfl (!Text.isSpace ·) t

/-- Where JSON leaves the characters as they are, these three are all that end a line. -/
theorem unbroken_iff {t : Text} :
    (∀ c ∈ t, 32 ≤ c → Text.isLineBreak c = false) ↔ Unbroken t := by
  refine forall₂_congr fun c _ => ?_
  simp only [Text.isLineBreak, Bool.or_eq_false_iff, Bool.and_eq_false_iff, decide_eq_false_iff_not]
  omega

theorem isLineBreak_ascii (c : Nat) (h32 : 32 ≤ c) (h128 : c < 128) :
    Text.isLineBreak c = false := by
  simp only [Text.isLineBreak, Bool.or_eq_false_iff, Bool.and_eq_false_iff, decide_eq_false_iff_not]
  omega

theorem isLineBreak_dumps_iff {s : Subject} (h : s.Built env) :
    (∀ c ∈ s.dumps, Text.isLineBreak c = false) ↔ s.toJson.AllTexts Unbroken := by
  have htext : (fun t : Text => ∀ c ∈ t, 32 ≤ c → Text.isLineBreak c = false) = Unbroken :=
    funext fun t => propext unbroken_iff
  rw [← htext, Subject.dumps,
    Json.forall_mem_dumps isLineBreak_ascii Json.Separators.compact_ascii h.within.1]

/-- When the three readers agree on a file that is valid UTF-8, and when on a file that
the enricher has written, where they should see one line for each subject. -/
theorem readers_agree (env : EnrichEnv) :
    (∀ raw t, Text.decodeUtf8 raw = some t → ((∃ lines, AllRead raw lines) ↔
      ∀ line ∈ t.splitOnP Text.isNewline, isBlank line = false →
        ∀ c ∈ line, Text.isLineBreak c = false)) ∧
    ∀ m name raw summary dryRun tmp data,
      .write .inbox tmp data ∈ (processFile env m name raw summary dryRun).effects →
      ∃ subjects : List Subject, (∀ s ∈ subjects, s.Built env) ∧
        encodeLines (subjects.map Subject.dumps) = some data ∧
        (AllRead data (subjects.map Subject.dumps) ↔
          ∀ s ∈ subjects, s.toJson.AllTexts Unbroken) := by
  constructor
  · intro raw t h
    rw [exists_allRead_iff h, filter_splitlines_eq_iff]
  · intro m name raw summary dryRun tmp data h
    obtain ⟨subjects, hne, hbuilt, hdata⟩ := processFile_inbox h
    refine ⟨subjects, hbuilt, hdata, ?_⟩
    have hlines : ∀ line ∈ subjects.map Subject.dumps, IsLine Text.isNewline line :=
      List.forall_mem_map.mpr fun s hs =>
        isLine_dumps (hbuilt s hs).within.1 Json.Separators.compact_ascii
    have hnonempty : subjects.map Subject.dumps ≠ [] := fun h => hne (List.map_eq_nil_iff.mp h)
    rw [allRead_iff (decodeUtf8_encodeLines hnonempty hdata),
      and_iff_right (filter_breakLines_unlines rfl rfl hlines)]
    constructor
    · intro hread s hs
      have hmem : s.dumps ∈ (Text.splitlines _).filter (!isBlank ·) :=
        hread.symm ▸ List.mem_map_of_mem hs
      exact (isLineBreak_dumps_iff (hbuilt s hs)).mp
        (Text.not_isBreak_of_mem_breakLines (List.mem_filter.mp hmem).1)
    · intro htexts
      refine filter_breakLines_unlines rfl rfl (List.forall_mem_map.mpr fun s hs => ?_)
      exact ⟨(hlines _ (List.mem_map_of_mem hs)).1,
        (isLineBreak_dumps_iff (hbuilt s hs)).mpr (htexts s hs)⟩

/-- The effect writes packages. -/
def FileEffect.feedsInbox : FileEffect → Bool
  | .write .inbox _ _ => true
  | _ => false

theorem exists_write_inbox {effects : List FileEffect}
    (h : effects.any FileEffect.feedsInbox = true) :
    ∃ tmp data, .write .inbox tmp data ∈ effects := by
  obtain ⟨e, he, hfeeds⟩ := List.any_eq_true.mp h
  cases e with
  | write shelf tmp data =>
    cases shelf with
    | inbox => exact ⟨tmp, data, he⟩
    | quarantine => cases hfeeds
  | _ => cases hfeeds

/-- A paragraph separator alone on its line is a break for all three. What the enricher
writes for the client is read alike where its texts have no breaks. -/
theorem readers_agree_alone :
    (∃ lines, AllRead "\x7b\x7d\n \u2029\n".toByteArray lines) ∧
    ∃ tmp data, .write .inbox tmp data ∈ (runOn forgetfulEnv clientLine).effects ∧
      ∃ subjects : List Subject, encodeLines (subjects.map Subject.dumps) = some data ∧
        (AllRead data (subjects.map Subject.dumps) ↔
          ∀ s ∈ subjects, s.toJson.AllTexts Unbroken) := by
  obtain ⟨hutf8, hwritten⟩ := readers_agree forgetfulEnv
  obtain ⟨tmp, data, hwrite⟩ : ∃ tmp data,
      .write .inbox tmp data ∈ (runOn forgetfulEnv clientLine).effects :=
    exists_write_inbox (by decide +kernel)
  obtain ⟨subjects, -, hdata, hiff⟩ := hwritten _ _ _ _ _ tmp data hwrite
  have hdecode := Text.decodeUtf8_of_encodeUtf8 (Text.encodeUtf8_lit "\x7b\x7d\n \u2029\n")
  exact ⟨(hutf8 _ _ hdecode).mpr (by decide), tmp, data, hwrite, subjects, hdata, hiff⟩

/-- A name with a line separator, as `json.dumps` writes it: the uploader reads one line,
the others read two. -/
theorem readers_disagree :
    readLines "\x7b\"lname\":\"a\u2028b\"\x7d".toByteArray =
      some [Text.lit "\x7b\"lname\":\"a\u2028b\"\x7d"] ∧
    (readNumberedLines "\x7b\"lname\":\"a\u2028b\"\x7d".toByteArray).map (·.map (·.2)) =
      some [Text.lit "\x7b\"lname\":\"a", Text.lit "b\"\x7d"] ∧
    readFileLines "\x7b\"lname\":\"a\u2028b\"\x7d".toByteArray =
      some [Text.lit "\x7b\"lname\":\"a", Text.lit "b\"\x7d"] := by
  have hdecode :=
    Text.decodeUtf8_of_encodeUtf8 (Text.encodeUtf8_lit "\x7b\"lname\":\"a\u2028b\"\x7d")
  rw [readLines, readNumberedLines, readFileLines, decodeRaw, hdecode]
  decide

end UbkiUploader
