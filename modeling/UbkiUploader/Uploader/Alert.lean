import UbkiUploader.Client.ResponseLaws
import UbkiUploader.Uploader.RunLaws

/-!
# What an operator is told of lost data

A package may be accepted although the bureau dropped a component of it. The result
of the send says so, the summary counts such results, and the alert of the pass is
built from the summary.
-/

namespace UbkiUploader

def buildAlert (s : RunSummary) : Option Text :=
  let count (n : Nat) (before after : String) : List Text :=
    if n = 0 then [] else [Text.lit before ++ Text.ofNat n ++ Text.lit after]
  if s.recordsFailed = 0 ∧ s.recordsRejected = 0 ∧ s.recordsWarnings = 0 ∧
      s.recordsComponentsDropped = 0 ∧ s.filesSkipped = 0 ∧ s.filesEmpty = 0 ∧
        s.errors = [] then
    none
  else
    some (Text.join [10]
      ([Text.lit "UBKI uploader: проблеми за останній прохід"] ++
      count s.recordsFailed "failed: " " (буде ретрай)" ++
      count s.recordsRejected "rejected: " " (потрібен ручний розбір)" ++
      count s.recordsComponentsDropped
        "прийнято, але бюро відкинуло компонент (IGNORED): "
        " — дані втрачені" ++
      count s.recordsWarnings
        "прийнято з зауваженнями (крім типових): " "" ++
      count s.filesSkipped "файлів у папці поза маскою FILE_GLOB: " "" ++
      count s.filesEmpty "порожніх файлів (0 рядків даних): " "" ++
      s.errors ++ [Text.lit "sent: " ++ Text.ofNat s.recordsSent]))

-- ---------------------------------------------------------------------------
-- Counting
-- ---------------------------------------------------------------------------

/-- A commit of a package that was accepted without one of its components. -/
def Commit.loses (c : Commit) : Bool :=
  c.result.status = .sent && c.result.componentsDropped

theorem tally_dropped (s : RunSummary) (r : UploadResult) :
    (s.tally r).recordsComponentsDropped = s.recordsComponentsDropped +
      if r.status = .sent ∧ r.componentsDropped then 1 else 0 := by
  unfold RunSummary.tally
  cases hr : r.status <;> simp

variable {env : Env} {final : Bool} {sessid : Text} {wave : List Db.SendableRow} {p : Pass}
  {order : List (List Nat)} {tr : List Event}

theorem replay_dropped (p : Pass) (hcount : ∀ c ∈ commits tr, c.loses → c.countSummary) :
    (p.replay env tr).summary.recordsComponentsDropped =
      p.summary.recordsComponentsDropped + (commits tr).countP Commit.loses := by
  induction tr using List.reverseRecOn with
  | nil => simp
  | append_singleton tr e ih =>
    simp only [commits_append, List.mem_append] at hcount
    have ih := ih fun c hc => hcount c (.inl hc)
    rw [Pass.replay_snoc, commits_append, List.countP_append]
    cases e with
    | commit c =>
      have hc := hcount c (.inr (by simp))
      rw [Pass.after, Pass.commit, commits_commit, List.countP_singleton, ← Nat.add_assoc, ← ih]
      simp only
      split
      · rw [tally_dropped]
        simp [Commit.loses]
      · rename_i hno
        have : c.loses = false := by
          rw [← Bool.not_eq_true]
          exact fun h => hno (hc h)
        simp [this]
    | submit r => simpa [Pass.after] using ih
    | auth => simpa [Pass.after] using ih
    | reauth => simpa [Pass.after] using ih

theorem Ran.dropped {w : Wave} (hr : Ran env final sessid wave p order tr w) :
    w.pass.summary.recordsComponentsDropped =
      p.summary.recordsComponentsDropped + (commits tr).countP Commit.loses := by
  rw [hr.pass]
  refine replay_dropped p fun c hc hloses => ?_
  by_contra hno
  have hdeferred : c.deferred := by simpa [Commit.deferred] using hno
  have hfailed : c.result.status = .failed := by
    rw [hr.result hc, settlement_deferred, Bool.and_eq_true] at hdeferred
    rw [hr.result_eq hc]
    exact UploadResult.networkFailed _ (UploadResult.paired _ hdeferred.1)
  simp [Commit.loses, hfailed] at hloses

theorem closePass_dropped (p : Pass) :
    (closePass env p b).summary.recordsComponentsDropped = p.summary.recordsComponentsDropped := by
  unfold closePass
  split <;> rfl

theorem sendRecords_dropped {db : Db} {summary : RunSummary} {out : Pass}
    (h : sendRecords env first resend db summary = some out) :
    out.summary.recordsComponentsDropped =
      summary.recordsComponentsDropped + (commits out.trace).countP Commit.loses := by
  cases sendRecords_course h with
  | nothing => simp
  | @blocked e p hauth =>
    obtain ⟨hsame, hcommits⟩ := Pass.ensureSession_same hauth
    simp [blockPass, RunSummary.abort, hsame.summary, hcommits]
  | @oneWave sessid p w hauth hw hno =>
    obtain ⟨hsame, hcommits⟩ := Pass.ensureSession_same hauth
    obtain ⟨tr, hr⟩ := runWave_ran hw
    rw [closePass_dropped, closePass_trace, hr.dropped, hsame.summary, hr.trace, commits_append,
      hcommits]
    simp
  | @stranded sessid p w e q hauth hw hexp hab hre =>
    obtain ⟨hsame, hcommits⟩ := Pass.ensureSession_same hauth
    obtain ⟨tr, hr⟩ := runWave_ran hw
    obtain ⟨hsame', htrace, -⟩ := Pass.reauth_same hre
    simp only [strand]
    rw [hsame'.summary, hr.dropped, hsame.summary, htrace, hr.trace, commits_append,
      commits_append, hcommits]
    simp
  | @resent sessid p w fresh q again hauth hw hexp hab hre hagain =>
    obtain ⟨hsame, hcommits⟩ := Pass.ensureSession_same hauth
    obtain ⟨tr, hr⟩ := runWave_ran hw
    obtain ⟨hsame', htrace, -⟩ := Pass.reauth_same hre
    obtain ⟨tr', hr'⟩ := runWave_ran hagain
    rw [closePass_dropped, closePass_trace, hr'.dropped, hsame'.summary, hr.dropped, hsame.summary,
      hr'.trace, htrace, hr.trace]
    simp only [commits_append, hcommits, commits_reauth, commits_nil, List.append_nil,
      List.nil_append, List.countP_append]
    omega

theorem finishRun_dropped {r out : Run} (h : finishRun s sched r touched = some out) :
    out.summary.recordsComponentsDropped = r.summary.recordsComponentsDropped := by
  obtain ⟨n, hsummary⟩ := archiveCompletedFiles_summary s (recomputeFiles s sched.recompute r)
  simp only [finishRun] at h
  split at h
  · cases h
    simp only [Run.insertRun, Run.perform, hsummary, recomputeFiles_summary]
  · cases h

theorem buildAlert_isSome (h : s.recordsComponentsDropped ≠ 0) : (buildAlert s).isSome := by
  simp [buildAlert, h]

-- ---------------------------------------------------------------------------
-- What a result tells
-- ---------------------------------------------------------------------------

variable {I : Interpreter} {info : Fields} {st : Text}

def findings (u : Ucd) (info : Fields) : List (Severity × Text) :=
  (itemsOf info).filterMap (finding u)

/-- The counter is positive, or an item is IGNORED. -/
def Lost (I : Interpreter) (info : Fields) : Prop :=
  (∃ n > 0, counter I info "ig" = .ok n) ∨ ∃ f ∈ findings I.ucd info, f.1 = .ignored

/-- A result tells of all that an accepted package has lost, and of every notice that
is not a benign one. -/
structure Truthful (I : Interpreter) (info : Fields) (st : Text) (r : UploadResult) : Prop where
  dropped : r.componentsDropped ↔ Lost I info
  silent : r.hasWarnings = false → ¬Lost I info ∧
    (∀ f ∈ findings I.ucd info, f.1 = .notice → f.2 ∈ benignWarningCodes) ∧
    ((∀ f ∈ findings I.ucd info, f.1 ≠ .notice) →
      st = Text.lit "ok" ∧ counter I info "nt" = .ok 0)

/-- The counter is positive, or an IGNORED item has a code. -/
def LossSeen (I : Interpreter) (info : Fields) : Prop :=
  (∃ n > 0, counter I info "ig" = .ok n) ∨
    ∃ f ∈ findings I.ucd info, f.2 ≠ [] ∧ f.1 = .ignored

/-- A notice has a code that is not benign; or all have codes, and without notices
the counter is not negative; or none has a code, and the state or the counter speaks. -/
def NoticesSeen (I : Interpreter) (info : Fields) (st : Text) : Prop :=
  (∃ f ∈ findings I.ucd info, f.2 ≠ [] ∧ f.2 ∉ benignWarningCodes) ∨
  ((∀ f ∈ findings I.ucd info, f.2 ≠ []) ∧ (findings I.ucd info = [] →
    ¬(st = Text.lit "ok" ∧ ∃ n < 0, counter I info "nt" = .ok n))) ∨
  ((∀ f ∈ findings I.ucd info, f.2 = []) ∧
    (st = Text.lit "nt" ∨ ∃ n > 0, counter I info "nt" = .ok n))

theorem mem_codedFindings :
    f ∈ codedFindings u info ↔ f ∈ findings u info ∧ f.2 ≠ [] := by
  simp [codedFindings, findings]

theorem codedFindings_eq_nil :
    codedFindings u info = [] ↔ ∀ f ∈ findings u info, f.2 = [] := by
  rw [List.eq_nil_iff_forall_not_mem]
  simp only [mem_codedFindings, not_and, not_not]

theorem notable_eq_nil : notable u info = [] ↔
    ∀ f ∈ findings u info, f.2 ≠ [] → f.2 ∈ benignWarningCodes := by
  rw [notable, List.filter_eq_nil_iff, List.forall_mem_map]
  simp [mem_codedFindings, and_imp]

theorem droppedComponents_eq_ok (h : droppedComponents I info = .ok b) :
    b = true ↔ LossSeen I info := by
  have hcodes : (warningCodes I.ucd info).2 = true ↔
      ∃ f ∈ findings I.ucd info, f.2 ≠ [] ∧ f.1 = .ignored := by
    simp only [warningCodes, List.any_eq_true, decide_eq_true_eq, mem_codedFindings, and_assoc]
  unfold droppedComponents at h
  split at h
  · rename_i hany
    cases h
    exact iff_of_true rfl (.inr (hcodes.mp hany))
  · rename_i hany
    obtain ⟨n, hn, h⟩ := Except.bind_eq_ok.mp h
    cases h
    rw [decide_eq_true_iff]
    constructor
    · exact fun hpos => .inl ⟨n, hpos, hn⟩
    · rintro (⟨m, hpos, hm⟩ | hsome)
      · cases hn.symm.trans hm
        exact hpos
      · exact absurd (hcodes.mpr hsome) hany

/-- Nothing was dropped: the codes decide, and without any the state and the
counter. -/
theorem warned_eq_ok (h : warned I info st false = .ok b) :
    b = false ↔ notable I.ucd info = [] ∧ (codedFindings I.ucd info ≠ [] ∨
      st ≠ Text.lit "nt" ∧ ∃ n ≤ 0, counter I info "nt" = .ok n) := by
  have hcodes : (warningCodes I.ucd info).1 = [] ↔ codedFindings I.ucd info = [] := by
    rw [warningCodes, ← List.length_eq_zero_iff, List.length_insertionSort,
      List.length_eq_zero_iff, List.dedup_eq_nil, List.map_eq_nil_iff]
  simp only [warned, Bool.false_eq_true, or_false] at h
  split at h
  · rename_i hnotable
    cases h
    exact iff_of_false (by decide) fun h => hnotable h.1
  · rename_i hnotable
    have hnotable := not_not.mp hnotable
    split at h
    · rename_i hcoded
      cases h
      exact iff_of_true rfl ⟨hnotable, .inl fun h => hcoded (hcodes.mpr h)⟩
    · rename_i hcoded
      have hcoded := hcodes.mp (not_not.mp hcoded)
      split at h
      · rename_i hst
        cases h
        refine iff_of_false (by decide) ?_
        rintro ⟨-, h | h⟩
        · exact h hcoded
        · exact h.1 hst
      · rename_i hst
        obtain ⟨n, hn, h⟩ := Except.bind_eq_ok.mp h
        cases h
        rw [decide_eq_false_iff_not, Int.not_lt]
        constructor
        · exact fun hle => ⟨hnotable, .inr ⟨hst, n, hle, hn⟩⟩
        · rintro ⟨-, h | ⟨-, m, hle, hm⟩⟩
          · exact absurd hcoded h
          · cases hn.symm.trans hm
            exact hle

/-- Where nothing was dropped, silence is right exactly when the notices are seen. -/
theorem truthful_of_kept {r : UploadResult} (hacc : isAccepted st)
    (hdrop : r.componentsDropped = false)
    (hseen : ¬LossSeen I info) (hw : warned I info st false = .ok r.hasWarnings) :
    Truthful I info st r ↔
      (∀ f ∈ findings I.ucd info, f.1 = .notice) ∧ NoticesSeen I info st := by
  have hsilent := warned_eq_ok hw
  have hlost : Lost I info ↔ ∃ f ∈ findings I.ucd info, f.1 = .ignored :=
    ⟨fun h => h.resolve_left fun h => hseen (.inl h), .inr⟩
  have hnone : ¬Lost I info ↔ ∀ f ∈ findings I.ucd info, f.1 = .notice := by
    rw [hlost, not_exists]
    refine forall_congr' fun f => ?_
    rw [not_and]
    refine imp_congr_right fun _ => ?_
    cases f.1 <;> simp
  constructor
  · intro h
    have hno : ¬Lost I info := by
      rw [← h.dropped, hdrop]
      exact Bool.false_ne_true
    refine ⟨hnone.mp hno, ?_⟩
    cases hwarn : r.hasWarnings with
    | false =>
      obtain ⟨-, hbenign, hquiet⟩ := h.silent hwarn
      refine .inr (.inl ⟨fun f hf hempty => ?_, fun hnil => ?_⟩)
      · have := hbenign f hf (hnone.mp hno f hf)
        rw [hempty] at this
        exact absurd this (by decide)
      · rintro ⟨-, n, hneg, hn⟩
        obtain ⟨-, hzero⟩ := hquiet (by simp [hnil])
        cases hzero.symm.trans hn
        omega
    | true =>
      rw [hwarn] at hw hsilent
      by_cases hnotable : notable I.ucd info = []
      · have hrest : ¬(codedFindings I.ucd info ≠ [] ∨ _) :=
          fun h => absurd (hsilent.mpr ⟨hnotable, h⟩) (by decide)
        obtain ⟨hcoded, hquiet⟩ := not_or.mp hrest
        refine .inr (.inr ⟨codedFindings_eq_nil.mp (not_not.mp hcoded), ?_⟩)
        by_cases hst : st = Text.lit "nt"
        · exact .inl hst
        · right
          have hcodes : (warningCodes I.ucd info).1 = [] := by
            simp [warningCodes, not_not.mp hcoded]
          simp only [warned, hnotable, hcodes, hst, ne_eq, not_true_eq_false, Bool.false_eq_true,
            or_self, if_false] at hw
          obtain ⟨n, hn, hpos⟩ := Except.bind_eq_ok.mp hw
          exact ⟨n, by simpa using Except.ok.inj hpos, hn⟩
      · left
        rw [notable_eq_nil] at hnotable
        push Not at hnotable
        exact hnotable
  · rintro ⟨hall, htold⟩
    have hno := hnone.mpr hall
    refine ⟨by rw [hdrop]; exact iff_of_false Bool.false_ne_true hno,
      fun hwarn => ⟨hno, ?_⟩⟩
    obtain ⟨hnotable, hwhy⟩ := hsilent.mp hwarn
    rw [notable_eq_nil] at hnotable
    rcases htold with ⟨f, hf, hcode, hbad⟩ | ⟨hcoded, hneg⟩ | ⟨hbare, hspeaks⟩
    · exact absurd (hnotable f hf hcode) hbad
    · refine ⟨fun f hf _ => hnotable f hf (hcoded f hf), fun hempty => ?_⟩
      have hnil : findings I.ucd info = [] :=
        List.eq_nil_iff_forall_not_mem.mpr fun f hf => hempty f hf (hall f hf)
      rcases hwhy with hwhy | ⟨hst, n, hle, hn⟩
      · exact absurd (codedFindings_eq_nil.mpr (by simp [hnil])) hwhy
      · have hok := hacc.resolve_right hst
        have : ¬n < 0 := fun h => hneg hnil ⟨hok, n, h, hn⟩
        obtain rfl : n = 0 := by omega
        exact ⟨hok, hn⟩
    · rcases hwhy with hwhy | ⟨hst, n, hle, hn⟩
      · exact absurd (codedFindings_eq_nil.mpr hbare) hwhy
      · rcases hspeaks with hnt | ⟨m, hpos, hm⟩
        · exact absurd hnt hst
        · cases hn.symm.trans hm
          omega

/-- The result for an accepted package is truthful exactly when the loss is seen, or
nothing was lost and the notices are seen. -/
theorem truthful_iff {r : UploadResult} (h : mapState I info (some st) httpStatus text = .ok r)
    (hsent : r.status = .sent) :
    Truthful I info st r ↔ LossSeen I info ∨
      (∀ f ∈ findings I.ucd info, f.1 = .notice) ∧ NoticesSeen I info st := by
  obtain ⟨-, hread, -⟩ := mapState_eq_ok h
  obtain ⟨st', hst, hacc, n, -, -, hdropped, hw⟩ := hread hsent
  cases hst
  have hseen := droppedComponents_eq_ok hdropped
  cases hdrop : r.componentsDropped with
  | true =>
    have hseen := hseen.mp hdrop
    have hlost : Lost I info := hseen.imp_right fun ⟨f, hf, _, hign⟩ => ⟨f, hf, hign⟩
    have hwarn : r.hasWarnings = true := by
      rw [hdrop] at hw
      simp only [warned, or_true, if_true] at hw
      exact (Except.ok.inj hw).symm
    exact iff_of_true ⟨iff_of_true hdrop hlost,
      fun h => absurd (h.symm.trans hwarn) (by decide)⟩
      (.inl hseen)
  | false =>
    rw [hdrop] at hseen hw
    have hseen : ¬LossSeen I info := fun h => absurd (hseen.mpr h) (by decide)
    rw [truthful_of_kept hacc hdrop hseen hw]
    exact ⟨.inr, fun h => h.resolve_left hseen⟩

end UbkiUploader
