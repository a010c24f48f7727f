import UbkiUploader.Uploader.Alert
import UbkiUploader.Uploader.Provenance
import UbkiUploader.Uploader.RunStatus

/-!
# What a pass leaves of its records

The row of a record is told by the last result committed for it, and a pass that is not
aborted commits one for every record it selects. So a pass that raises no alert leaves
nothing unsent behind, and the records of a file reset by hand are all sent again.
-/

namespace UbkiUploader

open Db (SendableRow)

variable {env : Env} {db : Db} {host : Host} {s : Site} {sched : Schedule} {out : Run}
  {fx : List Effect} {c : Commit}

-- ---------------------------------------------------------------------------
-- The last result
-- ---------------------------------------------------------------------------

/-- A commit writes its result into the row of its record; what else a pass does after
ingesting leaves the records alone. -/
theorem find?_onDb {e : Effect} (he : ¬e.ingests) (db : Db) (k : Nat) :
    (e.onDb db).records.find? k = db.records.find? k ∧ (∀ c ∈ e.committed?, c.key ≠ k) ∨
      ∃ c now, e.committed? = some c ∧ c.key = k ∧
        (e.onDb db).records.find? k = (db.records.find? k).map (c.result.row.apply now) := by
  cases e with
  | insertFile => exact absurd trivial he
  | commit c now =>
    have hfind : ((Effect.commit c now).onDb db).records.find? k = _ := Db.find?_updateRecordResult
    by_cases hk : k = c.record.id
    · rw [if_pos hk] at hfind
      exact .inr ⟨c, now, rfl, hk.symm, hfind⟩
    · rw [if_neg hk] at hfind
      refine .inl ⟨hfind, fun d hd => ?_⟩
      obtain rfl := Option.some.inj hd
      exact Ne.symm hk
  | _ => exact .inl ⟨rfl, by simp [Effect.committed?]⟩

theorem replayDb_last (hfx : ∀ e ∈ fx, ¬e.ingests) (hrow : db.records.find? k = some x) :
    (∃ row, (replayDb fx db).records.find? k = some row) ∧
    (∀ c, LastWrite.last Commit.key (fx.filterMap Effect.committed?) k = some c →
      ∃ now y, (replayDb fx db).records.find? k = some (c.result.row.apply now y)) ∧
    (LastWrite.last Commit.key (fx.filterMap Effect.committed?) k = none →
      (replayDb fx db).records.find? k = some x) := by
  induction fx using List.reverseRecOn with
  | nil => exact ⟨⟨x, hrow⟩, (fun c hc => by cases hc), fun _ => hrow⟩
  | append_singleton fx e ih =>
    obtain ⟨⟨row, hbefore⟩, hsome, hnone⟩ :=
      ih fun e he => hfx e (List.mem_append_left _ he)
    have he : ¬e.ingests := hfx e (by simp)
    rw [replayDb_append, replayDb_cons, replayDb_nil, List.filterMap_append]
    rcases find?_onDb he (replayDb fx db) k with ⟨hsame, hother⟩ | ⟨c, now, hc, hk, hfind⟩
    · have hlast : LastWrite.last Commit.key
          (fx.filterMap Effect.committed? ++ [e].filterMap Effect.committed?) k =
          LastWrite.last Commit.key (fx.filterMap Effect.committed?) k := by
        cases hcom : e.committed? with
        | none => simp [hcom]
        | some c =>
          rw [List.filterMap_cons_some hcom, List.filterMap_nil, LastWrite.last_snoc,
            if_neg (hother c hcom)]
      rw [hlast, hsame]
      exact ⟨⟨row, hbefore⟩, hsome, hnone⟩
    · rw [hfind, hbefore, List.filterMap_cons_some hc, List.filterMap_nil, LastWrite.last_snoc,
        if_pos hk]
      refine ⟨⟨_, rfl⟩, fun d hd => ?_, fun h => by cases h⟩
      obtain rfl := Option.some.inj hd
      exact ⟨now, row, rfl⟩

theorem replayDb_keeps (hfx : ∀ e ∈ fx, e.keepsRecords) (db : Db) :
    (replayDb fx db).records = db.records := by
  induction fx generalizing db with
  | nil => rfl
  | cons e fx ih =>
    rw [replayDb_cons, ih (fun e he => hfx e (List.mem_cons_of_mem _ he)),
      keepsRecords_records (hfx e List.mem_cons_self)]

-- ---------------------------------------------------------------------------
-- Passes that are not aborted
-- ---------------------------------------------------------------------------

theorem Ran.commits_all {w : Wave} (hr : Ran env final sessid wave p order tr w)
    (hc : 1 ≤ env.config.ubkiConcurrency) (ha : w.aborted = false) (hx : x ∈ wave) :
    ∃ c ∈ commits tr, c.record = x := by
  rw [← hr.complete hc ha] at hx
  exact hr.committed_iff.mpr hx

/-- A pass that is not aborted commits a result for every record it selects. -/
theorem sendRecords_commits {p : Pass} (h : sendRecords env first resend db summary = some p)
    (hc : 1 ≤ env.config.ubkiConcurrency) (hquiet : p.summary.aborted = false)
    (hx : x ∈ db.sendableRecords env.config.retryCap) :
    ∃ c ∈ commits p.trace, c.record = x ∧
      ∃ final sessid, c.result = sendOne env final sessid c.record := by
  cases sendRecords_course h with
  | nothing hnone =>
    rw [hnone] at hx
    cases hx
  | blocked => cases hquiet
  | @oneWave sessid q w hauth hw hno =>
    obtain ⟨tr, hr⟩ := runWave_ran hw
    have ha : w.aborted = false := by
      rw [closePass_aborted, Bool.or_eq_false_iff] at hquiet
      exact hquiet.1
    obtain ⟨c, hcm, hcx⟩ := hr.commits_all hc ha hx
    have hmem : c ∈ commits (closePass env w.pass w.aborted).trace := by
      rw [closePass_trace, hr.trace, commits_append]
      exact List.mem_append_right _ hcm
    exact ⟨c, hmem, hcx, _, _, hr.result_eq hcm⟩
  | @stranded sessid q w e q' hauth hw hexp hab hre =>
    obtain ⟨tr, hr⟩ := runWave_ran hw
    obtain ⟨-, htrace, -⟩ := Pass.reauth_same hre
    obtain ⟨c, hcm, hcx⟩ := hr.commits_all hc hab hx
    exact ⟨c, by simp [strand, htrace, hr.trace, hcm], hcx, _, _, hr.result_eq hcm⟩
  | @resent sessid q w fresh q' again hauth hw hexp hab hre hagain =>
    obtain ⟨tr, hr⟩ := runWave_ran hw
    obtain ⟨tr', hr'⟩ := runWave_ran hagain
    obtain ⟨-, htrace, -⟩ := Pass.reauth_same hre
    obtain ⟨c, hcm, hcx⟩ := hr.commits_all hc hab hx
    exact ⟨c, by simp [hr'.trace, htrace, hr.trace, hcm], hcx, _, _, hr.result_eq hcm⟩

/-- What a finished pass leaves of the records: `r` is the pass when sending begins and `p`
its end. -/
structure Settles (s : Site) (r : Run) (p : Pass) (out : Run) : Prop where
  summary : ∃ n, out.summary = { p.summary with filesArchived := n }
  /-- Nothing but the results of `p` changed the records. -/
  records : out.host.db.records = (replayDb (effectsFrom s.toEnv 0 p.trace) r.host.db).records
  commits : ∀ c ∈ commits p.trace, ∃ now, Effect.commit c now ∈ out.log
  run : ∃ row : RunRow, out.host.db.runs.rows = r.host.db.runs.rows ++ [row] ∧
    row.status = if p.summary.aborted then .aborted else .success

theorem effect_of_mem_commits (hc : c ∈ commits tr) :
    ∃ now, Effect.commit c now ∈ effectsFrom env i tr := by
  rw [← @committed_effects env i tr] at hc
  obtain ⟨e, he, hec⟩ := List.mem_filterMap.mp hc
  cases e with
  | commit d now =>
    obtain rfl := Option.some.inj hec
    exact ⟨now, he⟩
  | _ => cases hec

theorem finishRun_settles (hp : sendRecords s.toEnv first resend r.host.db r.summary = some p)
    (h : finishRun s sched (r.sent s.toEnv p) touched = some out) : Settles s r p out := by
  have hdurable : p.db = replayDb (effectsFrom s.toEnv 0 p.trace) r.host.db :=
    sendRecords_durable hp
  obtain ⟨row, hrows, hstatus⟩ := finishRun_status h
  obtain ⟨recs, arcs, startedAt, status, filesSeen, error, now, hdid,
    ⟨hrecs, -⟩, harcs, -⟩ :=
    finishRun_did h
  refine ⟨?_, ?_, fun c hc => ?_, row, ?_, hstatus⟩
  · simp only [finishRun] at h
    split at h
    · cases h
      obtain ⟨n, hsummary⟩ := archiveCompletedFiles_summary s
        (recomputeFiles s sched.recompute (r.sent s.toEnv p))
      refine ⟨n, ?_⟩
      rw [recomputeFiles_summary] at hsummary
      exact hsummary
    · cases h
  · rw [hdid.db, ← hdurable]
    have hkeep : ∀ e ∈ recs ++ arcs ++ [.insertRun startedAt status filesSeen
        (out.summary.recordsOf .sent) (out.summary.recordsOf .failed)
        (out.summary.recordsOf .rejected) error now], e.keepsRecords := by
      intro e he
      simp only [List.mem_append, List.mem_singleton] at he
      rcases he with (he | he) | rfl
      · obtain ⟨id, t, rfl⟩ := hrecs e he
        rfl
      · have := harcs e he
        cases e <;> first | rfl | cases this
      · rfl
    exact replayDb_keeps hkeep p.db
  · obtain ⟨now, he⟩ : ∃ now, Effect.commit c now ∈ effectsFrom s.toEnv 0 p.trace :=
      effect_of_mem_commits hc
    refine ⟨now, ?_⟩
    rw [hdid.log]
    exact List.mem_append_left _ (List.mem_append_right _ he)
  · rw [hrows, ← sendRecords_runs_eq hp]
    rfl

theorem runLocked_settles (h : runLocked s sched false host = some (.finished, out)) :
    ∃ r p, s.ingested host = (r, none) ∧
      sendRecords s.toEnv sched.first sched.resend r.host.db r.summary = some p ∧
      Settles s r p out := by
  obtain ⟨r, p, hing, hp, hout⟩ := runLocked_phases h
  exact ⟨r, p, hing, hp, finishRun_settles hp hout⟩

theorem ingested_records {r : Run} (h : s.ingested host = (r, e)) :
    (∀ f ∈ host.db.files.rows, f ∈ r.host.db.files.rows) ∧
    (∀ row ∈ host.db.records.rows, row ∈ r.host.db.records.rows) ∧
    ∀ row ∈ r.host.db.records.rows, row ∈ host.db.records.rows ∨ Fresh row := by
  obtain ⟨ins, hins, hingests⟩ :=
    ingestNewFiles_did s (scanFolder s host.inbox) (s.scanned false host)
  rw [Site.ingested] at h
  rw [h] at hins
  rw [hins.db, Site.scanned_host]
  clear hins h
  generalize host.db = db
  induction ins generalizing db with
  | nil => exact ⟨fun _ h => h, fun _ h => h, fun _ h => .inl h⟩
  | cons e ins ih =>
    have he := hingests e List.mem_cons_self
    cases e with
    | insertFile n s size lines uuid4 now =>
      obtain ⟨hfiles, hkept, hnew⟩ := ih (fun e he => hingests e (List.mem_cons_of_mem _ he))
        (db.insertFile n s size lines uuid4 now)
      refine ⟨fun f hf => hfiles f (Db.mem_files_insertFile.mpr (.inl hf)),
        fun row hrow => hkept row (Db.mem_insertRecordRows_of_mem hrow), fun row hrow => ?_⟩
      refine (hnew row hrow).elim (fun hrow => ?_) .inr
      rcases Db.mem_insertRecordRows hrow with hold | ⟨-, lineNo, -, rawLine, -, heq⟩
      · exact .inl hold
      · rw [heq]
        exact .inr ⟨rfl, rfl, rfl, rfl, rfl⟩
    | _ => cases he

theorem Complete.ingested {r : Run} (hdb : Complete host.db) (h : s.ingested host = (r, e)) :
    Complete r.host.db := by
  obtain ⟨ins, hins, -⟩ := ingestNewFiles_did s (scanFolder s host.inbox) (s.scanned false host)
  rw [Site.ingested] at h
  rw [h] at hins
  rw [hins.db]
  exact hdb.replay ins

theorem sendable_of_linked (hl : Linked db)
    (hrow : row ∈ db.records.rows) (hsend : Db.sendable cap row = true) :
    ∃ x ∈ db.sendableRecords cap, x.toRecordRow = row := by
  obtain ⟨f, hf, hid⟩ := hl row hrow
  have hfind : db.files.find? row.fileId = some f := Table.find?_eq_some_iff.mpr ⟨hf, hid⟩
  exact ⟨{ row with filename := f.filename },
    Db.mem_sendableRecords.mpr ⟨hrow, hsend, f, hfind, rfl⟩,
    rfl⟩

-- ---------------------------------------------------------------------------
-- A pass without an alert
-- ---------------------------------------------------------------------------

theorem NetworkRow.append (h : NetworkRow t n cs) (more : List Commit) :
    NetworkRow t n (cs ++ more) := by
  obtain ⟨before, row, after, rfl, hrow⟩ := h
  exact ⟨before, row, after ++ more, by simp, hrow⟩

theorem allDealtWith_of_quiet (h : ¬WaveAborts env first resend db) :
    AllDealtWith env first resend db := by
  intro sessid hok
  refine .inr fun hrow => h ⟨sessid, hok, ?_⟩
  unfold resendArrivals at hrow
  unfold resendResults
  cases hre : env.reauthAnswer with
  | error e =>
    rw [hre] at hrow
    exact hrow
  | ok fresh =>
    rw [hre] at hrow
    have hmore := hrow.append ((arrivals env true fresh
      (staleRecords env sessid (db.sendableRecords env.config.retryCap) first) resend).drop
      ((staleRecords env sessid (db.sendableRecords env.config.retryCap) first).length -
        env.config.ubkiConcurrency))
    rw [List.append_assoc, List.take_append_drop] at hmore
    exact hmore

theorem sendRecords_aborted_error {p : Pass}
    (h : sendRecords env first resend db summary = some p) (hfresh : summary.aborted = false)
    (hnone : p.summary.errors = []) : p.summary.aborted = false := by
  have hclose (q : Pass) (b : Bool) (hq : q.summary.aborted = false)
      (hnone : (closePass env q b).summary.errors = []) :
      (closePass env q b).summary.aborted = false := by
    unfold closePass at hnone ⊢
    split at hnone
    · simp [RunSummary.abort] at hnone
    · rename_i hb
      rw [if_neg hb]
      exact hq
  cases sendRecords_course h with
  | nothing => exact hfresh
  | blocked => simp [blockPass, RunSummary.abort] at hnone
  | oneWave hauth hw =>
    obtain ⟨hsame, -⟩ := Pass.ensureSession_same hauth
    obtain ⟨tr, hr⟩ := runWave_ran hw
    exact hclose _ _ (by rw [hr.summary_aborted, hsame.summary]; exact hfresh) hnone
  | stranded => simp [strand] at hnone
  | resent hauth hw _ _ hre hagain =>
    obtain ⟨hsame, -⟩ := Pass.ensureSession_same hauth
    obtain ⟨tr, hr⟩ := runWave_ran hw
    obtain ⟨hsame', -, -⟩ := Pass.reauth_same hre
    obtain ⟨tr', hr'⟩ := runWave_ran hagain
    refine hclose _ _ ?_ hnone
    rw [hr'.summary_aborted, hsame'.summary, hr.summary_aborted, hsame.summary]
    exact hfresh

theorem ne_of_settledAs (h : settledAs o cs = 0) (hlast : LastWrite.last Commit.key cs k = some c) :
    c.result.status ≠ o := by
  obtain ⟨hmem, hk⟩ := LastWrite.last_eq_some hlast
  have hkey : k ∈ (cs.map Commit.key).dedup :=
    List.mem_dedup.mpr (hk ▸ List.mem_map_of_mem hmem)
  have hno := List.countP_eq_zero.mp h k hkey
  simpa [hlast] using hno

theorem replayDb_none (hfx : ∀ e ∈ fx, ¬e.ingests) (hnone : db.records.find? k = none) :
    (replayDb fx db).records.find? k = none := by
  induction fx generalizing db with
  | nil => exact hnone
  | cons e fx ih =>
    rw [replayDb_cons]
    refine ih (fun e he => hfx e (List.mem_cons_of_mem _ he)) ?_
    rcases find?_onDb (hfx e List.mem_cons_self) db k with ⟨hsame, -⟩ |
      ⟨c, now, -, -, hfind⟩
    · rw [hsame, hnone]
    · rw [hfind, hnone]
      rfl

/-- How a row came out of a pass: no result was committed for it and it is as it was, or
the last result for it is in it. -/
theorem Settles.row {r : Run} {p : Pass} {row : RecordRow} (h : Settles s r p out)
    (hrow : row ∈ out.host.db.records.rows) :
    ∃ x ∈ r.host.db.records.rows, x.id = row.id ∧
      (row = x ∧ (∀ c ∈ UbkiUploader.commits p.trace, c.key ≠ row.id) ∨
        ∃ c now y, LastWrite.last Commit.key (UbkiUploader.commits p.trace) row.id = some c ∧
          row = c.result.row.apply now y) := by
  have hstay : ∀ e ∈ effectsFrom s.toEnv 0 p.trace, ¬e.ingests := fun e => effectsFrom_ingests
  have hfind := Table.find?_key hrow
  rw [h.records] at hfind
  cases hold : r.host.db.records.find? row.id with
  | none =>
    rw [replayDb_none hstay hold] at hfind
    cases hfind
  | some x =>
    obtain ⟨hx, hid⟩ := Table.find?_eq_some_iff.mp hold
    obtain ⟨-, hsome, hnone⟩ := replayDb_last hstay hold
    rw [committed_effects] at hsome hnone
    refine ⟨x, hx, hid, ?_⟩
    cases hlast : LastWrite.last Commit.key (UbkiUploader.commits p.trace) row.id with
    | none =>
      have hkey := LastWrite.last_eq_none_iff.mp hlast
      rw [hnone hlast] at hfind
      exact .inl ⟨(Option.some.inj hfind).symm,
        fun c hc h => hkey (h ▸ List.mem_map_of_mem hc)⟩
    | some c =>
      obtain ⟨now, y, hc⟩ := hsome c hlast
      rw [hc] at hfind
      exact .inr ⟨c, now, y, rfl, (Option.some.inj hfind).symm⟩

theorem buildAlert_eq_none {u : RunSummary} : buildAlert u = none ↔
    u.recordsFailed = 0 ∧ u.recordsRejected = 0 ∧ u.recordsWarnings = 0 ∧
      u.recordsComponentsDropped = 0 ∧ u.filesSkipped = 0 ∧ u.filesEmpty = 0 ∧
      u.errors = [] := by
  simp [buildAlert]

theorem replay_filesSkipped (p : Pass) :
    (p.replay env tr).summary.filesSkipped = p.summary.filesSkipped := by
  induction tr using List.reverseRecOn with
  | nil => rfl
  | append_singleton tr e ih =>
    rw [Pass.replay_snoc, ← ih]
    cases e with
    | commit c =>
      simp only [Pass.after, Pass.commit]
      split
      · unfold RunSummary.tally
        split <;> rfl
      · rfl
    | _ => rfl

theorem Ran.filesSkipped {w : Wave} (hr : Ran env final sessid wave p order tr w) :
    w.pass.summary.filesSkipped = p.summary.filesSkipped := by
  rw [hr.pass]
  exact replay_filesSkipped p

theorem closePass_filesSkipped (p : Pass) :
    (closePass env p b).summary.filesSkipped = p.summary.filesSkipped := by
  unfold closePass
  split <;> rfl

theorem sendRecords_filesSkipped {summary : RunSummary} {p : Pass}
    (h : sendRecords env first resend db summary = some p) :
    p.summary.filesSkipped = summary.filesSkipped := by
  cases sendRecords_course h with
  | nothing => rfl
  | @blocked e p hauth =>
    obtain ⟨hsame, -⟩ := Pass.ensureSession_same hauth
    simp only [blockPass, RunSummary.abort, hsame.summary]
  | @oneWave sessid p w hauth hw hno =>
    obtain ⟨hsame, -⟩ := Pass.ensureSession_same hauth
    obtain ⟨tr, hr⟩ := runWave_ran hw
    rw [closePass_filesSkipped, hr.filesSkipped, hsame.summary]
  | @stranded sessid p w e q hauth hw hexp hab hre =>
    obtain ⟨hsame, -⟩ := Pass.ensureSession_same hauth
    obtain ⟨tr, hr⟩ := runWave_ran hw
    obtain ⟨hsame', -, -⟩ := Pass.reauth_same hre
    simp only [strand]
    rw [hsame'.summary, hr.filesSkipped, hsame.summary]
  | @resent sessid p w fresh q again hauth hw hexp hab hre hagain =>
    obtain ⟨hsame, -⟩ := Pass.ensureSession_same hauth
    obtain ⟨tr, hr⟩ := runWave_ran hw
    obtain ⟨hsame', -, -⟩ := Pass.reauth_same hre
    obtain ⟨tr', hr'⟩ := runWave_ran hagain
    rw [closePass_filesSkipped, hr'.filesSkipped, hsame'.summary, hr.filesSkipped, hsame.summary]

theorem runLocked_filesSkipped (hpass : runLocked s sched false host = some (.finished, out)) :
    out.summary.filesSkipped = skippedFolder s host.inbox := by
  obtain ⟨r, p, hing, hp, hset⟩ := runLocked_settles hpass
  obtain ⟨n, hsummary⟩ := hset.summary
  obtain ⟨new, empty, hscanned⟩ := ingested_summary hing
  rw [hsummary, sendRecords_filesSkipped hp, hscanned]
  rfl

/-- A pass without an alert, from where the files have their records. -/
theorem runLocked_silent (hdb : Complete host.db) (hc : 1 ≤ s.config.ubkiConcurrency)
    (hpass : runLocked s sched false host = some (.finished, out))
    (hsilent : buildAlert out.summary = none) :
    (∃ run, out.host.db.runs.rows = host.db.runs.rows ++ [run] ∧ run.status = .success) ∧
    ∀ row ∈ out.host.db.records.rows,
      (row ∈ host.db.records.rows ∧ Db.sendable s.config.retryCap row = false) ∨
      (row.status = .sent ∧
        ∃ c now, Effect.commit c now ∈ out.log ∧ c.key = row.id ∧
        c.result.status = .sent) := by
  obtain ⟨r, p, hing, hp, hset⟩ := runLocked_settles hpass
  obtain ⟨n, hsummary⟩ := hset.summary
  rw [buildAlert_eq_none, hsummary] at hsilent
  obtain ⟨hfailed, hrejected, -, -, -, -, herrors⟩ := hsilent
  obtain ⟨hfresh, hruns⟩ := ingested_spec hing
  have hquiet : p.summary.aborted = false := sendRecords_aborted_error hp hfresh herrors
  have hwave : ¬WaveAborts s.toEnv sched.first sched.resend r.host.db := fun hw => by
    have := (sendRecords_aborted_iff hp hfresh).mpr (.inr hw)
    rw [hquiet] at this
    cases this
  have hcount := (sendRecords_accounted_iff hc hp).mpr (allDealtWith_of_quiet hwave)
  have hno (o : Outcome) (ho : p.summary.recordsOf o = 0) :
      settledAs o (UbkiUploader.commits p.trace) = 0 := by
    have := hcount o
    omega
  refine ⟨?_, fun row hrow => ?_⟩
  · obtain ⟨run, hrows, hstatus⟩ := hset.run
    exact ⟨run, by rw [hrows, hruns], by rw [hstatus, hquiet]; rfl⟩
  · obtain ⟨x, hx, -, ⟨rfl, hnone⟩ | ⟨c, now, y, hlast, rfl⟩⟩ := hset.row hrow
    · left
      have hlinked : Linked r.host.db := (hdb.ingested hing).files
      have hnot : Db.sendable s.config.retryCap row = false := by
        by_contra hsend
        obtain ⟨sel, hsel, hrowsel⟩ := sendable_of_linked hlinked hx (by simpa using hsend)
        obtain ⟨c, hcm, hcx, -⟩ := sendRecords_commits hp hc hquiet hsel
        refine hnone c hcm ?_
        rw [Commit.key, hcx, ← hrowsel]
      refine ⟨?_, hnot⟩
      refine ((ingested_records hing).2.2 row hx).resolve_right fun hpending => ?_
      have : Db.sendable s.config.retryCap row = true := by
        simp [Db.sendable, hpending.1]
      rw [hnot] at this
      cases this
    · right
      obtain ⟨hmem, hkey⟩ := LastWrite.last_eq_some hlast
      have hsent : c.result.status = .sent := by
        have hf := ne_of_settledAs (hno .failed hfailed) hlast
        have hr := ne_of_settledAs (hno .rejected hrejected) hlast
        cases hst : c.result.status with
        | sent => rfl
        | failed => exact absurd hst hf
        | rejected => exact absurd hst hr
      obtain ⟨t, hlog⟩ := hset.commits c hmem
      refine ⟨?_, c, t, hlog, hkey, hsent⟩
      show c.result.status.toStatus = _
      rw [hsent]
      rfl

/-- A pass that ends without an alert was successful, and every record that it could have
sent it has sent. -/
theorem silent_pass (deeds : List Deed) (host : Host) (s : Site) (sched : Schedule) (out : Run)
    (hrun : Machine.run deed {} deeds = some host) (hc : 1 ≤ s.config.ubkiConcurrency)
    (hpass : runLocked s sched false host = some (.finished, out))
    (hsilent : buildAlert out.summary = none) :
    (∃ run, out.host.db.runs.rows = host.db.runs.rows ++ [run] ∧ run.status = .success) ∧
    ∀ row ∈ out.host.db.records.rows,
      (row ∈ host.db.records.rows ∧ Db.sendable s.config.retryCap row = false) ∨
      (row.status = .sent ∧
        ∃ c now, Effect.commit c now ∈ out.log ∧ c.key = row.id ∧
        c.result.status = .sent) :=
  runLocked_silent (complete_run hrun) hc hpass hsilent

def soleSend : Schedule := { first := [[0]], resend := [], recompute := [1] }

theorem silent_pass_retriedArchive :
    ∃ host out, Machine.run deed {} retriedArchive = some host ∧
      runLocked (answering accepted) soleSend false host = some (.finished, out) ∧
      buildAlert out.summary = none ∧ ∀ row ∈ out.host.db.records.rows,
        (row ∈ host.db.records.rows ∧ Db.sendable 5 row = false) ∨
        (row.status = .sent ∧
          ∃ c now, Effect.commit c now ∈ out.log ∧ c.key = row.id ∧
          c.result.status = .sent) := by
  have hends : ((Machine.run deed {} retriedArchive).bind fun host =>
      runLocked (answering accepted) soleSend false host).map
        (fun out => (out.1, buildAlert out.2.summary)) = some (.finished, none) := by decide
  obtain ⟨⟨ending, out⟩, hout, hends⟩ := Option.map_eq_some_iff.mp hends
  obtain ⟨rfl, hsilent⟩ := Prod.mk.inj hends
  obtain ⟨host, hrun, hpass⟩ := Option.bind_eq_some_iff.mp hout
  exact ⟨host, out, hrun, hpass, hsilent,
    (silent_pass retriedArchive host (answering accepted) soleSend out hrun (by decide) hpass
      hsilent).2⟩

-- ---------------------------------------------------------------------------
-- Records reset by hand
-- ---------------------------------------------------------------------------

theorem Settles.kept {r : Run} {p : Pass} {x : RecordRow} (h : Settles s r p out)
    (hx : x ∈ r.host.db.records.rows) : ∃ row ∈ out.host.db.records.rows, row.id = x.id := by
  have hfind : r.host.db.records.find? x.id = some x := Table.find?_key hx
  obtain ⟨⟨row, hrow⟩, -⟩ := replayDb_last (fun e => effectsFrom_ingests) hfind
  rw [← h.records] at hrow
  exact ⟨row, Table.find?_eq_some_iff.mp hrow⟩

/-- What a pass that is not aborted does for a record that waits to be sent. -/
theorem runLocked_settled (hdb : Complete host.db) (hc : 1 ≤ s.config.ubkiConcurrency)
    (hpass : runLocked s sched false host = some (.finished, out))
    (hquiet : out.summary.aborted = false) (hx : x ∈ host.db.records.rows)
    (hsend : Db.sendable s.config.retryCap x = true) :
    (∃ c now, Effect.commit c now ∈ out.log ∧ c.record.toRecordRow = x ∧
      ∃ final sessid, c.result = sendOne s.toEnv final sessid c.record) ∧
    ∃ row ∈ out.host.db.records.rows, row.id = x.id ∧
      ∃ c now at' y, Effect.commit c now ∈ out.log ∧ c.key = x.id ∧
        row = c.result.row.apply at' y := by
  obtain ⟨r, p, hing, hp, hset⟩ := runLocked_settles hpass
  obtain ⟨n, hsummary⟩ := hset.summary
  rw [hsummary] at hquiet
  have hx' := (ingested_records hing).2.1 x hx
  obtain ⟨sel, hsel, hrowsel⟩ := sendable_of_linked (hdb.ingested hing).files hx' hsend
  obtain ⟨c, hcm, hcx, hresult⟩ := sendRecords_commits hp hc hquiet hsel
  obtain ⟨now, hlog⟩ := hset.commits c hcm
  refine ⟨⟨c, now, hlog, hcx ▸ hrowsel, hresult⟩, ?_⟩
  obtain ⟨row, hrow, hid⟩ := hset.kept hx'
  refine ⟨row, hrow, hid, ?_⟩
  obtain ⟨z, -, -, ⟨-, hnone⟩ | ⟨d, t, y, hlast, heq⟩⟩ := hset.row hrow
  · refine absurd ?_ (hnone c hcm)
    rw [Commit.key, hcx, hid, ← hrowsel]
  · obtain ⟨hmem, hkey⟩ := LastWrite.last_eq_some hlast
    obtain ⟨now', hlog'⟩ := hset.commits d hmem
    exact ⟨d, now', t, y, hlog', hkey.trans hid, heq⟩

theorem runLocked_left (hpass : runLocked s sched false host = some (.finished, out))
    (hx : x ∈ host.db.records.rows) (hnot : Db.sendable s.config.retryCap x = false) :
    x ∈ out.host.db.records.rows := by
  obtain ⟨r, p, hing, hp, hset⟩ := runLocked_settles hpass
  have hx' := (ingested_records hing).2.1 x hx
  obtain ⟨row, hrow, hid⟩ := hset.kept hx'
  obtain ⟨z, hz, hzid, ⟨rfl, -⟩ | ⟨c, t, y, hlast, -⟩⟩ := hset.row hrow
  · rwa [Table.eq_of_key hx' hz (hid.symm.trans hzid.symm)]
  · obtain ⟨hmem, hkey⟩ := LastWrite.last_eq_some hlast
    obtain ⟨hsel, -⟩ := sendRecords_covered hp c hmem
    obtain ⟨hrow', hsend, -⟩ := Db.mem_sendableRecords.mp hsel
    have : c.record.toRecordRow = x := Table.eq_of_key hrow' hx' (hkey.trans hid)
    rw [this, hnot] at hsend
    cases hsend

/-- A retry by hand resets the failed and the rejected records of its file and no other row.
The next pass that is not aborted commits a result for each of them, whatever the number of
its attempts, and leaves those that had been sent. -/
theorem retried_resent (deeds : List Deed) (host : Host) (fileId n : Nat) (now : Timestamp)
    (db : Db) (s : Site) (sched : Schedule) (out : Run)
    (hrun : Machine.run deed {} deeds = some host)
    (hretry : retryFile host.db fileId now = (.reset n, db))
    (hc : 1 ≤ s.config.ubkiConcurrency)
    (hpass : runLocked s sched false { host with db } = some (.finished, out))
    (hquiet : out.summary.aborted = false) :
    n = host.db.records.rows.countP (fun row => (Db.ResetTarget.file fileId).resets row) ∧
    db.records.rows = host.db.records.rows.map (fun row =>
      if row.fileId = fileId ∧ (row.status = .failed ∨ row.status = .rejected) then
        Db.resetRow row else row) ∧
    ∀ row ∈ host.db.records.rows, row.fileId = fileId →
      (row.status = .failed ∨ row.status = .rejected →
        (∃ c t, Effect.commit c t ∈ out.log ∧ c.record.toRecordRow = Db.resetRow row ∧
          ∃ final sessid, c.result = sendOne s.toEnv final sessid c.record) ∧
        ∃ after ∈ out.host.db.records.rows, after.id = row.id ∧
          ∃ c t at' y, Effect.commit c t ∈ out.log ∧ c.key = row.id ∧
            after = c.result.row.apply at' y) ∧
      (row.status = .sent → row ∈ out.host.db.records.rows) := by
  have hdb := (complete_run hrun).retry (.file fileId) now
  rw [show retry host.db (.file fileId) now = retryFile host.db fileId now from rfl, hretry] at hdb
  have hrecords : db.records = (host.db.resetRecords (.file fileId)).1.records ∧
      n = host.db.records.rows.countP (fun row => (Db.ResetTarget.file fileId).resets row) := by
    unfold retryFile at hretry
    split at hretry
    · cases hretry
    · cases hretry
      exact ⟨rfl, rfl⟩
  refine ⟨hrecords.2, ?_, fun row hrow hfile => ⟨fun hst => ?_, fun hst => ?_⟩⟩
  · rw [hrecords.1]
    refine List.map_congr_left fun row _ => ?_
    simp [Db.ResetTarget.resets, Db.ResetTarget.covers]
  · have hresets : (Db.ResetTarget.file fileId).resets row = true := by
      simp [Db.ResetTarget.resets, Db.ResetTarget.covers, hfile, hst]
    have hmem : Db.resetRow row ∈ db.records.rows := by
      rw [hrecords.1]
      exact Db.mem_resetRecords.mpr ⟨row, hrow, if_pos hresets⟩
    exact runLocked_settled hdb hc hpass hquiet hmem (by simp [Db.sendable, Db.resetRow])
  · have hmem : row ∈ db.records.rows := by
      rw [hrecords.1]
      refine Db.mem_resetRecords.mpr ⟨row, hrow, if_neg ?_⟩
      simp [Db.ResetTarget.resets, hst]
    exact runLocked_left hpass hmem (by simp [Db.sendable, hst])

def refusedArchive : List Deed :=
  [.deliver (AList.singleton (Text.lit "a.txt") (ByteArray.mk #[0x7b, 0x7d, 0x0a])),
   .pass (answering refused) soleSend false]

theorem retried_resent_refusedArchive :
    ∃ host db out, Machine.run deed {} refusedArchive = some host ∧
      retryFile host.db 1 9 = (.reset 1, db) ∧
      runLocked (answering accepted) soleSend false { host with db } = some (.finished, out) ∧
      ∀ row ∈ host.db.records.rows, row.fileId = 1 →
      row.status = .failed ∨ row.status = .rejected →
        ∃ c t, Effect.commit c t ∈ out.log ∧ c.record.toRecordRow = Db.resetRow row ∧
          ∃ final sessid,
            c.result = sendOne (answering accepted).toEnv final sessid c.record := by
  have hends : ((Machine.run deed {} refusedArchive).bind fun host =>
      (runLocked (answering accepted) soleSend false
        { host with db := (retryFile host.db 1 9).2 }).map
        fun out => ((retryFile host.db 1 9).1, out)).map
          (fun out => (out.1, out.2.1, out.2.2.summary.aborted)) =
      some (.reset 1, .finished, false) := by decide
  obtain ⟨⟨answer, ending, out⟩, hout, hends⟩ := Option.map_eq_some_iff.mp hends
  obtain ⟨rfl, hends⟩ := Prod.mk.inj hends
  obtain ⟨rfl, hquiet⟩ := Prod.mk.inj hends
  obtain ⟨host, hrun, hboth⟩ := Option.bind_eq_some_iff.mp hout
  obtain ⟨⟨ending, out⟩, hpass, heq⟩ := Option.map_eq_some_iff.mp hboth
  obtain ⟨hanswer, rfl, rfl⟩ : _ ∧ _ ∧ _ := by simpa only [Prod.mk.injEq] using heq
  have hretry : retryFile host.db 1 9 = (.reset 1, (retryFile host.db 1 9).2) :=
    Prod.ext hanswer rfl
  exact ⟨host, _, out, hrun, hretry, hpass, fun row hrow hfile hst =>
    (((retried_resent refusedArchive host 1 1 9 _ (answering accepted) soleSend out hrun hretry
      (by decide) hpass hquiet).2.2 row hrow hfile).1 hst).1⟩

end UbkiUploader
