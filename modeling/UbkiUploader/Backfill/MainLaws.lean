import UbkiUploader.Backfill.Fits
import UbkiUploader.Backfill.Main
import UbkiUploader.Backfill.Readers

/-!
# All or nothing

The output file is opened before the first line is processed, and no line is processed
under a handler of anything but JSONDecodeError. So one line on which something raises
leaves the lines before it in the uploader's inbox.
-/

namespace UbkiUploader

variable {env : BackfillEnv} {args : BackfillArgs} {stats : BackfillStats}

-- ---------------------------------------------------------------------------
-- One line
-- ---------------------------------------------------------------------------

/-- What is to be written for a line: the expanded subject, or the line itself where it
is not JSON or the subject is too large. -/
inductive OutputFor (env : BackfillEnv) (args : BackfillArgs) (line : SourceLine) : Text → Prop
  | passed (h : parseSubject env line.1 = .ok none) : OutputFor env args line line.1
  | expanded (subject out : Fields) (before after : ExpandStats) (bytes : ByteArray)
    (h : parseSubject env line.1 = .ok (some (.obj subject)))
    (hrun : expandSubject env.interpreter subject before args.maxStep args.includeFinal
      args.includeMultiDeal = .ok (out, after))
    (hbytes : ((Json.obj out).dumps .compact).encodeUtf8 = some bytes)
    (hsize : bytes.size ≤ backfillMaxLineBytes) :
    OutputFor env args line ((Json.obj out).dumps .compact)
  | oversized (subject out : Fields) (before after : ExpandStats) (bytes : ByteArray)
    (h : parseSubject env line.1 = .ok (some (.obj subject)))
    (hrun : expandSubject env.interpreter subject before args.maxStep args.includeFinal
      args.includeMultiDeal = .ok (out, after))
    (hbytes : ((Json.obj out).dumps .compact).encodeUtf8 = some bytes)
    (hsize : backfillMaxLineBytes < bytes.size) :
    OutputFor env args line line.1

def Harmless (env : BackfillEnv) (args : BackfillArgs) (line : SourceLine) : Prop :=
  parseSubject env line.1 = .ok none ∨
    ∃ subject, parseSubject env line.1 = .ok (some (.obj subject)) ∧
      SubjectFits env.interpreter args.maxStep args.includeFinal args.includeMultiDeal subject

theorem good_parseSubject (h : parseSubject env line = .ok (some v)) :
    v.Good env.interpreter.floats := by
  unfold parseSubject at h
  split at h <;> cases h
  rename_i hloads
  exact (Json.loads_within hloads).1

theorem processLine_eq_ok (h : processLine env args line stats = .ok (out, stats')) :
    OutputFor env args line out ∧ Harmless env args line ∧
    stats'.subjects = stats.subjects + 1 := by
  obtain ⟨v, hparse, h⟩ := Except.bind_eq_ok.mp h
  split at h
  · cases h
    exact ⟨.passed hparse, .inl hparse, rfl⟩
  · rename_i subject
    obtain ⟨deals, -, h⟩ := Except.bind_eq_ok.mp h
    obtain ⟨⟨expanded, expand⟩, hrun, h⟩ := Except.bind_eq_ok.mp h
    obtain ⟨hsane, h⟩ := Except.unit_bind_eq_ok.mp h
    simp only at h
    split at h
    · cases h
    · rename_i bytes hbytes
      have hencodes : ((Json.obj expanded).dumps .compact).Encodes := by
        rw [Text.encodes_iff, hbytes]
        rfl
      have hfits := (expandSubject_passes (good_parseSubject hparse) stats.expand).mp
        ⟨expanded, expand, hrun, hsane, hencodes⟩
      refine ⟨?_, .inr ⟨subject, hparse, hfits⟩, ?_⟩
      · split at h
        · rename_i hsize
          cases h
          exact .oversized subject expanded _ expand bytes hparse hrun hbytes hsize
        · rename_i hsize
          cases h
          exact .expanded subject expanded _ expand bytes hparse hrun hbytes
            (Nat.le_of_not_lt hsize)
      · split at h <;> cases h <;> rfl
  · cases h

theorem processLine_isOk (stats : BackfillStats) :
    (∃ made, processLine env args line stats = .ok made) ↔ Harmless env args line := by
  constructor
  · rintro ⟨⟨out, stats'⟩, h⟩
    exact (processLine_eq_ok h).2.1
  · rintro (hparse | ⟨subject, hparse, hfits⟩)
    · exact ⟨_, Except.bind_eq_ok.mpr ⟨none, hparse, rfl⟩⟩
    · obtain ⟨out, expand, hrun, hsane, hencodes⟩ :=
        (expandSubject_passes (good_parseSubject hparse) stats.expand).mpr hfits
      obtain ⟨bytes, hbytes⟩ := Option.isSome_iff_exists.mp (Text.encodes_iff.mp hencodes)
      obtain ⟨deals, hdeals, -⟩ := hfits
      simp only [processLine, hparse, hdeals, hrun, hsane, hbytes, Except.ok_bind]
      split
      · exact ⟨_, rfl⟩
      · exact ⟨_, rfl⟩

-- ---------------------------------------------------------------------------
-- The loop
-- ---------------------------------------------------------------------------

def remaining {α : Type} (args : BackfillArgs) (subjects : Nat) (lines : List α) : List α :=
  match args.limit with
  | none => lines
  | some limit => lines.take (limit - subjects).toNat

theorem remaining_cons {α : Type} {line : α} {lines : List α} (subjects : Nat) :
    remaining args subjects (line :: lines) =
      if args.limit.any (· ≤ (subjects : Int)) then []
      else line :: remaining args (subjects + 1) lines := by
  unfold remaining
  cases args.limit with
  | none => rfl
  | some limit =>
    simp only [Option.any_some, decide_eq_true_eq]
    split
    · rw [show (limit - subjects).toNat = 0 by omega, List.take_zero]
    · rw [show (limit - subjects).toNat = (limit - (subjects + 1 : Nat)).toNat + 1 by omega,
        List.take_succ_cons]

/-- The loop ends well exactly when every line does, and then each has been written. -/
theorem writeLines_spec (lines : List SourceLine) (stats : BackfillStats) :
    ((∃ stats', (writeLines env args lines stats).2 = .ok stats') ↔
      ∀ line ∈ remaining args stats.subjects lines, Harmless env args line) ∧
    ∀ stats', (writeLines env args lines stats).2 = .ok stats' →
      List.Forall₂ (OutputFor env args) (remaining args stats.subjects lines)
        (writeLines env args lines stats).1 := by
  induction lines generalizing stats with
  | nil =>
    have hnil : remaining args stats.subjects ([] : List SourceLine) = [] := by
      unfold remaining
      split
      · rfl
      · exact List.take_nil
    rw [hnil]
    exact ⟨iff_of_true ⟨stats, rfl⟩ (by simp), fun _ _ => .nil⟩
  | cons line lines ih =>
    rw [remaining_cons, writeLines]
    split
    · exact ⟨iff_of_true ⟨stats, rfl⟩ (by simp), fun _ _ => .nil⟩
    · rw [List.forall_mem_cons, ← processLine_isOk stats]
      cases hline : processLine env args line stats with
      | error e => simp
      | ok made =>
        obtain ⟨out, stats₁⟩ := made
        obtain ⟨hout, -, hcount⟩ := processLine_eq_ok hline
        obtain ⟨hends, hwritten⟩ := ih stats₁
        rw [hcount] at hends hwritten
        simp only
        refine ⟨hends.trans (and_iff_right ⟨_, rfl⟩).symm, fun stats' hok => ?_⟩
        exact .cons hout (hwritten stats' hok)

-- ---------------------------------------------------------------------------
-- The run
-- ---------------------------------------------------------------------------

/-- Either no file is opened, or one line is written for each that was selected. -/
def AllOrNothing (env : BackfillEnv) (args : BackfillArgs) (lines : List SourceLine)
    (run : BackfillRun) : Prop :=
  run.output = none ∨
    run.result = .ok 0 ∧ ∃ selected written, selectLines env args lines = .ok selected ∧
      run.output = some written ∧
      List.Forall₂ (OutputFor env args) (remaining args 0 selected) written

/-- When that is so. -/
theorem backfillMain_allOrNothing (env : BackfillEnv) (args : BackfillArgs)
    (lines : List SourceLine) :
    AllOrNothing env args lines (backfillMain env args lines) ↔
      (lines ≠ [] → ∀ selected, selectLines env args lines = .ok selected →
        ∀ line ∈ remaining args 0 selected, Harmless env args line) := by
  unfold backfillMain
  by_cases hnil : lines = []
  · rw [if_pos hnil]
    exact iff_of_true (.inl rfl) fun hne => absurd hnil hne
  · rw [if_neg hnil]
    cases hselect : selectLines env args lines with
    | error e => exact iff_of_true (.inl rfl) fun _ _ h => nomatch h
    | ok selected =>
      obtain ⟨hends, hwritten⟩ := @writeLines_spec env args selected {}
      simp only [ne_eq, hnil, not_false_eq_true, true_implies, Except.ok.injEq, forall_eq']
      refine Iff.trans ?_ hends
      simp only [AllOrNothing, hselect, reduceCtorEq, false_or, Except.ok.injEq, Option.some.injEq]
      constructor
      · rintro ⟨hok, -⟩
        obtain ⟨stats', hok, -⟩ := Except.map_eq_ok.mp hok
        exact ⟨stats', hok⟩
      · rintro ⟨stats', hok⟩
        exact ⟨Except.map_eq_ok.mpr ⟨stats', hok, rfl⟩, selected, _, rfl, rfl,
          hwritten stats' hok⟩

def BackfillEnv.ascii : BackfillEnv where
  interpreter := .ascii
  levels := 100
  shuffle := ⟨fun _ lines => lines, fun _ lines => .refl lines⟩

def sourceLine (s : String) : SourceLine := ⟨Text.lit s, Text.encodes_lit s⟩

/-- A list after an object: the first line is written, and the second raises. -/
theorem backfillMain_truncates :
    backfillMain .ascii {} [sourceLine "\x7b\x7d", sourceLine "[]"] =
      ⟨some [Text.lit "\x7b\"deals\":[]\x7d"], .error .attributeError⟩ ∧
    ¬AllOrNothing .ascii {} [sourceLine "\x7b\x7d", sourceLine "[]"]
      (backfillMain .ascii {} [sourceLine "\x7b\x7d", sourceLine "[]"]) := by
  have hrun : backfillMain .ascii {} [sourceLine "\x7b\x7d", sourceLine "[]"] =
      ⟨some [Text.lit "\x7b\"deals\":[]\x7d"], .error .attributeError⟩ := by decide
  refine ⟨hrun, ?_⟩
  rw [hrun]
  rintro (hnone | ⟨hok, -⟩)
  · cases hnone
  · cases hok

end UbkiUploader
