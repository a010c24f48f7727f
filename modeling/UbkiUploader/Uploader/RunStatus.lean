import UbkiUploader.Uploader.RunLaws

/-!
# The status of a run

The status in a run's row is read off one flag, which a pass sets when it cannot
authenticate and when its sends fail in a row. A session that cannot be refreshed in the
middle of a pass does not set it, so that a pass left without a session counts as
successful.
-/

namespace UbkiUploader

open Db (SendableRow)

variable {env : Env} {db : Db} {summary : RunSummary} {s : Site} {host : Host} {r : Run}

-- ---------------------------------------------------------------------------
-- What goes wrong in a pass
-- ---------------------------------------------------------------------------

def AuthFails (env : Env) (db : Db) : Prop :=
  db.sendableRecords env.config.retryCap ≠ [] ∧
    ∃ e, (Session.ensureSession env.kyivToday env.ensureAnswer { db }).1 = .error e

def resendResults (env : Env) (stale : List SendableRow) (order : List (List Nat)) : List Commit :=
  match env.reauthAnswer with
  | .ok fresh => arrivals env true fresh stale order
  | .error _ => []

/-- The first wave leaves stale records, and the session cannot be refreshed. -/
def ReauthFails (env : Env) (first : List (List Nat)) (db : Db) : Prop :=
  ∃ sessid, (Session.ensureSession env.kyivToday env.ensureAnswer { db }).1 = .ok sessid ∧
    let wave := db.sendableRecords env.config.retryCap
    ¬NetworkRow env.config.networkAbortThreshold 0 (arrivals env false sessid wave first) ∧
    staleRecords env sessid wave first ≠ [] ∧ ∃ e, env.reauthAnswer = .error e

/-- The results of the waves, one after the other, hold a row of network-like failures
as long as the threshold. -/
def WaveAborts (env : Env) (first resend : List (List Nat)) (db : Db) : Prop :=
  ∃ sessid, (Session.ensureSession env.kyivToday env.ensureAnswer { db }).1 = .ok sessid ∧
    let wave := db.sendableRecords env.config.retryCap
    NetworkRow env.config.networkAbortThreshold 0 (arrivals env false sessid wave first ++
      resendResults env (staleRecords env sessid wave first) resend)

/-- A pass without a usable session is not successful, and any other is aborted exactly
when its sends fail in a row. -/
structure StatusTold (env : Env) (first resend : List (List Nat)) (db before after : Db)
    (row : RunRow) : Prop where
  unusable : AuthFails env db ∨ ReauthFails env first db →
    row.status ≠ .success ∧ after.lastSuccessfulRun = before.lastSuccessfulRun
  usable : ¬(AuthFails env db ∨ ReauthFails env first db) →
    (row.status = .aborted ↔ WaveAborts env first resend db)

-- ---------------------------------------------------------------------------
-- The flag
-- ---------------------------------------------------------------------------

theorem not_networkRow_nil : ¬NetworkRow t n [] := by
  rw [← reaches_iff_networkRow, signals_nil, Streak.reaches_nil]
  exact Bool.false_ne_true

@[simp] theorem resendResults_nil : resendResults env [] order = [] := by
  rw [resendResults]
  split
  · exact arrivals_nil
  · rfl

theorem waveAborts_iff {p : Pass}
    (hauth : ({ db, summary } : Pass).ensureSession env = (.ok sessid, p)) :
    WaveAborts env first resend db ↔
      NetworkRow env.config.networkAbortThreshold 0
        (arrivals env false sessid (db.sendableRecords env.config.retryCap) first ++
          resendResults env
            (staleRecords env sessid (db.sendableRecords env.config.retryCap) first) resend) := by
  have hok := (Prod.mk.inj hauth).1
  constructor
  · rintro ⟨sessid', hok', h⟩
    obtain rfl : sessid = sessid' := Except.ok.inj (hok.symm.trans hok')
    exact h
  · intro h
    exact ⟨sessid, hok, h⟩

theorem not_authFails {p : Pass}
    (hauth : ({ db, summary } : Pass).ensureSession env = (.ok sessid, p)) :
    ¬AuthFails env db := by
  rintro ⟨-, e, he⟩
  cases (Prod.mk.inj hauth).1.symm.trans he

/-- The flag is set where authenticating fails or sends fail in a row, and nowhere else. -/
theorem sendRecords_aborted_iff {out : Pass}
    (h : sendRecords env first resend db summary = some out)
    (hfresh : summary.aborted = false) :
    out.summary.aborted = true ↔ AuthFails env db ∨ WaveAborts env first resend db := by
  cases sendRecords_course h with
  | nothing hnone =>
    rw [hfresh]
    refine iff_of_false Bool.false_ne_true ?_
    rintro (⟨hne, -⟩ | ⟨sessid, -, hrow⟩)
    · exact hne hnone
    · simp only [hnone, arrivals_nil, staleRecords_nil, List.nil_append, resendResults_nil] at hrow
      exact not_networkRow_nil hrow
  | @blocked e p hauth =>
    have hflag : (blockPass p e).summary.aborted = true := rfl
    refine iff_of_true hflag ?_
    by_cases hnone : db.sendableRecords env.config.retryCap = []
    · -- nobody is asked for a session when there is nothing to send
      simp only [sendRecords, hnone, if_pos, Option.some.injEq] at h
      rw [← h] at hflag
      cases hfresh.symm.trans hflag
    · exact .inl ⟨hnone, e, (Prod.mk.inj hauth).1⟩
  | @oneWave sessid p w hauth hw hno =>
    obtain ⟨hsame, -⟩ := Pass.ensureSession_same hauth
    obtain ⟨tr, hr⟩ := runWave_ran hw
    rw [closePass_aborted, hr.summary_aborted, hsame.summary, hfresh, Bool.or_false,
      or_iff_right (not_authFails hauth), waveAborts_iff hauth, hr.networkRow_append hsame.streak]
    refine ⟨.inl, ?_⟩
    rintro (hab | hrow)
    · exact hab
    · obtain hno | hab := hno
      · rw [← hr.expired_eq, hno, resendResults_nil, signals_nil, Streak.reaches_nil] at hrow
        cases hrow
      · exact hab
  | @stranded sessid p w e q hauth hw hexp hab hre =>
    obtain ⟨hsame, -⟩ := Pass.ensureSession_same hauth
    obtain ⟨tr, hr⟩ := runWave_ran hw
    obtain ⟨hsame', -, hanswer⟩ := Pass.reauth_same hre
    have hflag : (strand w.expired q e).summary.aborted = false := by
      rw [strand, hsame'.summary, hr.summary_aborted, hsame.summary, hfresh]
    rw [hflag, or_iff_right (not_authFails hauth), waveAborts_iff hauth,
      hr.networkRow_append hsame.streak, hab, resendResults, ← hanswer]
    simp
  | @resent sessid p w fresh q again hauth hw hexp hab hre hagain =>
    obtain ⟨hsame, -⟩ := Pass.ensureSession_same hauth
    obtain ⟨tr, hr⟩ := runWave_ran hw
    obtain ⟨hsame', -, hanswer⟩ := Pass.reauth_same hre
    obtain ⟨tr', hr'⟩ := runWave_ran hagain
    rw [closePass_aborted, hr'.summary_aborted, hsame'.summary, hr.summary_aborted, hsame.summary,
      hfresh, Bool.or_false, or_iff_right (not_authFails hauth), waveAborts_iff hauth,
      hr.networkRow_append hsame.streak, hab, ← hr.expired_eq, hr'.aborted, hr'.results,
      hsame'.streak]
    simp only [resendResults, ← hanswer, arrivals, Bool.false_eq_true, false_or]

-- ---------------------------------------------------------------------------
-- The runs
-- ---------------------------------------------------------------------------

def Effect.logsRun : Effect → Bool
  | .insertRun .. => true
  | _ => false

theorem replayDb_runs (h : ∀ e ∈ fx, Effect.logsRun e = false) :
    (replayDb fx db).runs = db.runs := by
  induction fx generalizing db with
  | nil => rfl
  | cons e fx ih =>
    have he := h e List.mem_cons_self
    rw [replayDb_cons, ih fun e he => h e (List.mem_cons_of_mem _ he)]
    cases e with
    | insertRun => cases he
    | _ => rfl

theorem logsRun_of_ingests (h : Effect.ingests e) : e.logsRun = false := by
  cases e <;> first | rfl | cases h

theorem logsRun_of_archives (h : Effect.archives e) : e.logsRun = false := by
  cases e <;> first | rfl | cases h

theorem finishRun_status {out : Run} (h : finishRun s sched r touched = some out) :
    ∃ row : RunRow, out.host.db.runs.rows = r.host.db.runs.rows ++ [row] ∧
      row.status = if r.summary.aborted then .aborted else .success := by
  simp only [finishRun] at h
  split at h
  · cases h
    obtain ⟨recs, hrec, hrecs, -⟩ := recomputeFiles_did s sched.recompute r
    obtain ⟨arcs, harc, harcs⟩ :=
      archiveCompletedFiles_did s (recomputeFiles s sched.recompute r)
    obtain ⟨n, hsummary⟩ := archiveCompletedFiles_summary s (recomputeFiles s sched.recompute r)
    have hruns : (archiveCompletedFiles s (recomputeFiles s sched.recompute r)).host.db.runs =
        r.host.db.runs := by
      rw [(hrec.trans harc).db]
      refine replayDb_runs fun e he => ?_
      obtain he | he := List.mem_append.mp he
      · obtain ⟨id, now, rfl⟩ := hrecs e he
        rfl
      · exact logsRun_of_archives (harcs e he)
    rw [hsummary, recomputeFiles_summary]
    exact ⟨_, by rw [Run.insertRun, Run.perform, apply_db, ← hruns]; rfl, rfl⟩
  · cases h

theorem sendRecords_runs_eq {out : Pass}
    (h : sendRecords env first resend db summary = some out) :
    out.db.runs = db.runs := by
  rw [show out.db = _ from sendRecords_durable h]
  refine replayDb_runs fun e he => ?_
  obtain ⟨today, sessid, rfl⟩ | ⟨c, now, rfl⟩ := effectsFrom_cases he
  · rfl
  · rfl

theorem ingestFile_summary (h : ingestFile s r name bytes = .ok r') :
    ∃ new empty, r'.summary = { r.summary with filesNew := new, filesEmpty := empty } := by
  simp only [ingestFile] at h
  split at h
  · cases h
    exact ⟨_, _, rfl⟩
  · split at h
    · cases h
    · split at h
      · cases h
        exact ⟨_, _, rfl⟩
      · cases h
        exact ⟨_, _, rfl⟩

theorem ingestNewFiles_summary (s : Site) (names : List Text) (r : Run) :
    ∃ new empty, (ingestNewFiles s names r).1.summary =
      { r.summary with filesNew := new, filesEmpty := empty } := by
  induction names generalizing r with
  | nil => exact ⟨_, _, rfl⟩
  | cons name names ih =>
    rw [ingestNewFiles]
    split
    · exact ih r
    · split
      · rename_i r' h
        obtain ⟨new, empty, heq⟩ := ingestFile_summary h
        obtain ⟨new', empty', heq'⟩ := ih r'
        exact ⟨new', empty', by rw [heq', heq]⟩
      · exact ⟨_, _, rfl⟩

theorem ingested_summary (h : s.ingested host = (r, e)) :
    ∃ new empty, r.summary =
      { (s.scanned false host).summary with filesNew := new, filesEmpty := empty } := by
  have hsummary := ingestNewFiles_summary s (scanFolder s host.inbox) (s.scanned false host)
  rw [Site.ingested] at h
  rwa [h] at hsummary

theorem ingested_spec (h : s.ingested host = (r, e)) :
    r.summary.aborted = false ∧ r.host.db.runs = host.db.runs := by
  obtain ⟨new, empty, hsummary⟩ := ingested_summary h
  obtain ⟨ins, hins, hall⟩ :=
    ingestNewFiles_did s (scanFolder s host.inbox) (s.scanned false host)
  rw [Site.ingested] at h
  rw [h] at hins
  refine ⟨by rw [hsummary]; rfl, ?_⟩
  rw [hins.db]
  exact replayDb_runs fun e he => logsRun_of_ingests (hall e he)

theorem lastSuccessfulRun_of_status {before after : Db} {row : RunRow}
    (hrows : after.runs.rows = before.runs.rows ++ [row]) (hstatus : row.status ≠ .success) :
    after.lastSuccessfulRun = before.lastSuccessfulRun := by
  rw [Db.lastSuccessfulRun, Db.lastSuccessfulRun, hrows, List.filter_append,
    List.filter_cons_of_neg (by simpa using hstatus), List.filter_nil, List.append_nil]

-- ---------------------------------------------------------------------------
-- The status
-- ---------------------------------------------------------------------------

/-- A session that cannot be refreshed leaves no row of failures that aborts. -/
theorem not_waveAborts_of_reauthFails (h : ReauthFails env first db) :
    ¬(AuthFails env db ∨ WaveAborts env first resend db) := by
  obtain ⟨sessid, hok, hrow, -, e, he⟩ := h
  rintro (⟨-, e', he'⟩ | ⟨sessid', hok', hrow'⟩)
  · cases hok.symm.trans he'
  · obtain rfl : sessid = sessid' := Except.ok.inj (hok.symm.trans hok')
    simp only [resendResults, he, List.append_nil] at hrow'
    exact hrow hrow'

/-- A run's row tells of a pass without a session, and of no other trouble than sends that
fail in a row, exactly when the session did not have to be refreshed in vain. -/
theorem runLocked_status {out : Run}
    (h : runLocked s sched dryRun host = some (.finished, out)) :
    ∃ row, out.host.db.runs.rows = host.db.runs.rows ++ [row] ∧
      (StatusTold s.toEnv sched.first sched.resend (s.ingested host).1.host.db host.db
          out.host.db row ↔
        ¬ReauthFails s.toEnv sched.first (s.ingested host).1.host.db) := by
  obtain ⟨r, p, hing, hp, hout⟩ := runLocked_phases h
  obtain ⟨hfresh, hruns⟩ := ingested_spec hing
  obtain ⟨row, hrows, hstatus⟩ := finishRun_status hout
  have hflag := sendRecords_aborted_iff hp hfresh
  have hrows' : out.host.db.runs.rows = host.db.runs.rows ++ [row] := by
    rw [hrows, ← hruns, ← sendRecords_runs_eq hp]
    rfl
  have haborted : row.status = .aborted ↔
      AuthFails s.toEnv r.host.db ∨ WaveAborts s.toEnv sched.first sched.resend r.host.db := by
    rw [← hflag, hstatus, Run.sent]
    cases p.summary.aborted <;> simp
  have hsuccess : row.status ≠ .aborted → row.status = .success := by
    rw [hstatus]
    cases (r.sent s.toEnv p).summary.aborted <;> simp
  rw [hing]
  refine ⟨row, hrows', fun htold hre => ?_, fun hre => ⟨?_, ?_⟩⟩
  · have hquiet : row.status ≠ .aborted := haborted.not.mpr (not_waveAborts_of_reauthFails hre)
    exact (htold.unusable (.inr hre)).1 (hsuccess hquiet)
  · rintro (hauth | hre')
    · have hab := haborted.mpr (.inl hauth)
      have hne : row.status ≠ .success := by rw [hab]; decide
      exact ⟨hne, lastSuccessfulRun_of_status hrows' hne⟩
    · exact absurd hre' hre
  · intro hno
    rw [haborted]
    exact or_iff_right fun hauth => hno (.inl hauth)

def oneSend : Schedule := { first := [[0]], resend := [[0]], recompute := [1] }

def lineHost : Host := { db := oneFile [Text.lit "\x7b\x7d"] }

theorem runLocked_status_refreshed :
    ∃ out row, runLocked staleSite oneSend false lineHost = some (.finished, out) ∧
      out.host.db.runs.rows = [row] ∧
      StatusTold staleSite.toEnv [[0]] [[0]] (staleSite.ingested lineHost).1.host.db lineHost.db
        out.host.db row := by
  have hends : (runLocked staleSite oneSend false lineHost).map (·.1) = some .finished := by
    decide
  obtain ⟨⟨ending, out⟩, hrun, rfl⟩ := Option.map_eq_some_iff.mp hends
  obtain ⟨row, hrows, h⟩ := runLocked_status hrun
  refine ⟨out, row, hrun, hrows, h.mpr ?_⟩
  rintro ⟨sessid, -, -, -, e, he⟩
  cases he

def strandedSite : Site :=
  { staleSite with reauthAnswer := .error (Text.lit "auth HTTP 503: ") }

/-- The only record stays unsent, for want of a session, and the pass is successful. -/
theorem runLocked_stranded :
    ReauthFails strandedSite.toEnv [[0]] lineHost.db ∧
    lineHost.db.lastSuccessfulRun = none ∧
    (runLocked strandedSite oneSend false lineHost).map (fun out =>
      (out.1, out.2.host.db.runs.rows.map (·.status), out.2.host.db.lastSuccessfulRun.isSome,
        out.2.host.db.records.rows.map (·.status))) =
      some (.finished, [.success], true, [.failed]) := by
  refine ⟨⟨Text.lit "s1", rfl, ?_, by decide, Text.lit "auth HTTP 503: ", rfl⟩,
    rfl, by decide⟩
  rw [← reaches_iff_networkRow]
  decide

end UbkiUploader
