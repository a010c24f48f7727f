import UbkiUploader.Uploader.Accounting

/-!
# Stale sessions

A stale session counts as network-like, so the results that ask for a fresh
session are also the ones that abort a pass. Which of the two happens is decided
by the order in which the first wave's sends finish.
-/

namespace UbkiUploader

open Db (SendableRow)

variable {env : Env} {db : Db} {summary : RunSummary} {out : Pass}

theorem Ran.row {w : Wave} (hr : Ran env final sessid wave p order tr w)
    (hn : (wave.map (·.id)).Nodup) (h : r ∈ submits tr) :
    ∃ now, w.pass.db.records.find? r.id =
      (p.db.records.find? r.id).map ((sendOne env final sessid r).row.apply now) := by
  obtain ⟨c, hc, rfl⟩ := hr.committed_iff.mpr h
  obtain ⟨now, hnow⟩ := replay_row p (hr.distinct hn) hc
  rw [hr.result_eq hc] at hnow
  rw [hr.db]
  exact ⟨now, hnow⟩

theorem replay_aborted (p : Pass) :
    (p.replay env tr).summary.aborted = p.summary.aborted := by
  induction tr using List.reverseRecOn with
  | nil => rfl
  | append_singleton tr e ih =>
    rw [Pass.replay_snoc, ← ih]
    cases e with
    | commit c =>
      simp only [Pass.after, Pass.commit, RunSummary.tally]
      split
      · split <;> rfl
      · rfl
    | _ => rfl

theorem Ran.no_reauth {w : Wave} (hr : Ran env final sessid wave p order tr w) : .reauth ∉ tr :=
  (hr.lawful tr List.prefix_rfl).sends.2

theorem mem_staleRecords : r ∈ staleRecords env sessid wave order ↔
    r ∈ order.flatten.filterMap (wave[·]?) ∧ (sendOne env false sessid r).sessionExpired := by
  rw [staleRecords, List.mem_filter]

theorem Ran.stale_submitted {w : Wave} (hr : Ran env false sessid wave p order tr w)
    (h : r ∈ staleRecords env sessid wave order) : r ∈ submits tr := by
  rw [← hr.committed_iff, hr.results]
  exact ⟨_, List.mem_map_of_mem (mem_staleRecords.mp h).1, rfl⟩

/-- A stale session fails the record without using up an attempt. -/
theorem stale_row (h : (sendOne env final sessid r).sessionExpired) (row : RecordRow) :
    ((sendOne env final sessid r).row.apply now row).status = .failed ∧
      ((sendOne env final sessid r).row.apply now row).attempts = row.attempts := by
  have hnet := (sendOne env final sessid r).paired h
  have hfailed := (sendOne env final sessid r).networkFailed hnet
  simp [Db.RecordResult.apply, UploadResult.row, hfailed, hnet, Outcome.toStatus]

/-- In a first wave the streak reaches the threshold exactly when it aborts. -/
theorem Ran.aborted_iff {w : Wave} (hr : Ran env final sessid wave p order tr w)
    (hp : p.streak = 0) : w.aborted = true ↔
      NetworkRow env.config.networkAbortThreshold 0 (arrivals env final sessid wave order) := by
  rw [hr.aborted, hp, reaches_iff_networkRow, hr.results, arrivals]

theorem Ran.all_accepted {w : Wave} (hr : Ran env final sessid wave p order tr w)
    (hc : 1 ≤ env.config.ubkiConcurrency)
    (hsent : ∀ r ∈ wave, (sendOne env final sessid r).status = .sent) :
    w.aborted = false ∧ submits tr = wave := by
  have hnohit : .hit ∉ signals (commits tr) := by
    intro hmem
    obtain ⟨c, hcm, hs⟩ := List.mem_map.mp hmem
    rw [signal_eq_hit] at hs
    have hfailed := c.result.networkFailed hs
    have hwave : c.record ∈ wave :=
      hr.submits_sublist.subset (hr.committed_iff.mp ⟨c, hcm, rfl⟩)
    rw [hr.result_eq hcm, hsent _ hwave] at hfailed
    cases hfailed
  have ha : w.aborted = false := by rw [hr.aborted, Streak.reaches_of_no_hit hnohit]
  exact ⟨ha, hr.complete hc ha⟩

theorem closePass_aborted (p : Pass) :
    (closePass env p b).summary.aborted = (b || p.summary.aborted) := by
  unfold closePass
  cases b <;> simp [RunSummary.abort]

theorem closePass_db (p : Pass) : (closePass env p b).db = p.db := by
  unfold closePass
  split <;> rfl

theorem Ran.summary_aborted {w : Wave} (hr : Ran env final sessid wave p order tr w) :
    w.pass.summary.aborted = p.summary.aborted := by
  rw [hr.pass]
  exact replay_aborted p

/-- After a first wave a stale record is there, failed, with the attempts it had. -/
theorem Ran.stale_failed {w : Wave} (hr : Ran env false sessid wave p order tr w)
    (hn : (wave.map (·.id)).Nodup) (h : r ∈ staleRecords env sessid wave order)
    (hrow : p.db.records.find? r.id = some x) :
    ∃ row, w.pass.db.records.find? r.id = some row ∧
      row.status = .failed ∧ row.attempts = x.attempts := by
  obtain ⟨now, hnow⟩ := hr.row hn (hr.stale_submitted h)
  refine ⟨_, by rw [hnow, hrow, Option.map_some], ?_⟩
  exact stale_row (mem_staleRecords.mp h).2 x

theorem sendOne_of_stale (h : (sendOne env false sessid r).sessionExpired) :
    sendOne env true fresh r = env.reply true r fresh := by
  unfold sendOne at h ⊢
  split
  · rename_i hbig
    simp [hbig, localReject] at h
  · rfl

/-- The session was refreshed once, the stale records were resent once each, and
all of them were accepted. -/
structure Recovered (stale : List SendableRow) (before : RunSummary) (out : Pass) : Prop where
  aborted : out.summary.aborted = before.aborted
  sent : ∀ r ∈ stale, (out.db.records.find? r.id).map (·.status) = some .sent
  resent : ∃ earlier later, out.trace = earlier ++ .reauth :: later ∧
    .reauth ∉ earlier ∧ .reauth ∉ later ∧ submits later = stale

/-- A stale session is recovered from unless `t` of them come in a row: then the
pass is aborted without asking for a session, and the stale records keep their
attempts and wait for the next pass. -/
theorem sendRecords_stale (env : Env) (db : Db) (summary : RunSummary)
    (first resend : List (List Nat)) (hc : 1 ≤ env.config.ubkiConcurrency)
    (hauth : (Session.ensureSession env.kyivToday env.ensureAnswer { db }).1 = .ok sessid)
    (hre : env.reauthAnswer = .ok fresh)
    (haccept : ∀ r ∈ db.sendableRecords env.config.retryCap,
      (env.reply true r fresh).status = .sent)
    (h : sendRecords env first resend db summary = some out) :
    let wave := db.sendableRecords env.config.retryCap
    let stale := staleRecords env sessid wave first
    let row := NetworkRow env.config.networkAbortThreshold 0 (arrivals env false sessid wave first)
    (¬row → stale ≠ [] → Recovered stale summary out) ∧
    (¬row → stale = [] → out.summary.aborted = summary.aborted ∧ .reauth ∉ out.trace) ∧
    (row → out.summary.aborted = true ∧ .reauth ∉ out.trace ∧
      ∀ r ∈ stale, ∃ row', out.db.records.find? r.id = some row' ∧
        row'.status = .failed ∧ row'.attempts = r.attempts) := by
  have hn := db.sendableRecords_nodup env.config.retryCap
  have hfind {r : SendableRow} (hr : r ∈ db.sendableRecords env.config.retryCap) :=
    Db.find?_of_mem_sendableRecords hr
  intro wave stale row
  cases sendRecords_course h with
  | nothing hnone =>
    have hwave : wave = [] := hnone
    have hstale : stale = [] := by simp only [stale, hwave, staleRecords_nil]
    have hrow : ¬row := by
      simp only [row, hwave, arrivals_nil, ← reaches_iff_networkRow, signals_nil,
        Streak.reaches_nil]
      simp
    exact ⟨fun _ h => absurd hstale h, fun _ _ => ⟨rfl, by simp⟩, fun h => absurd h hrow⟩
  | @blocked e p hblocked => cases (Prod.mk.inj hblocked).1.symm.trans hauth
  | @oneWave sessid' p w hok hw hno =>
    obtain rfl : sessid' = sessid := Except.ok.inj ((Prod.mk.inj hok).1.symm.trans hauth)
    obtain ⟨hsame, -⟩ := Pass.ensureSession_same hok
    obtain ⟨tr, hr⟩ := runWave_ran hw
    have hstale : w.expired = stale := hr.expired_eq
    have hrow : w.aborted = true ↔ row := hr.aborted_iff hsame.streak
    have hnore : .reauth ∉ (closePass env w.pass w.aborted).trace := by
      rw [closePass_trace, hr.trace, List.mem_append, not_or]
      exact ⟨Pass.ensureSession_no_reauth hok (by simp), hr.no_reauth⟩
    have hquiet : ¬row → w.aborted = false := by
      rw [← hrow, Bool.not_eq_true]
      exact id
    refine ⟨fun hnrow hne => ?_, fun hnrow _ => ?_, fun hrow' => ?_⟩
    · exact absurd (by simpa [hquiet hnrow, hstale] using hno) hne
    · rw [closePass_aborted, hr.summary_aborted, hsame.summary, hquiet hnrow]
      exact ⟨rfl, hquiet hnrow ▸ hnore⟩
    · rw [closePass_aborted, closePass_db]
      refine ⟨by simp [hrow.mpr hrow'], hnore, fun r hmem => ?_⟩
      have hwave := hr.submits_sublist.subset (hr.stale_submitted hmem)
      exact hr.stale_failed hn hmem (by rw [hsame.records]; exact hfind hwave)
  | @stranded sessid' p w e q hok hw hexp hab hre' =>
    cases (Pass.reauth_same hre').2.2.trans hre
  | @resent sessid' p w fresh' q again hok hw hexp hab hre' hagain =>
    obtain rfl : sessid' = sessid := Except.ok.inj ((Prod.mk.inj hok).1.symm.trans hauth)
    obtain ⟨hsame, -⟩ := Pass.ensureSession_same hok
    obtain ⟨tr, hr⟩ := runWave_ran hw
    obtain ⟨hsame', htrace, hanswer⟩ := Pass.reauth_same hre'
    obtain rfl : fresh' = fresh := Except.ok.inj (hanswer.trans hre)
    obtain ⟨tr', hr'⟩ := runWave_ran hagain
    have hstale : w.expired = stale := hr.expired_eq
    have hrow : w.aborted = true ↔ row := hr.aborted_iff hsame.streak
    have hwave {r : SendableRow} (hmem : r ∈ stale) : r ∈ wave :=
      hr.submits_sublist.subset (hr.stale_submitted hmem)
    have hsent : ∀ r ∈ w.expired, (sendOne env true fresh' r).status = .sent := by
      intro r hmem
      rw [hstale] at hmem
      rw [sendOne_of_stale (mem_staleRecords.mp hmem).2]
      exact haccept r (hwave hmem)
    obtain ⟨hab', hall⟩ := hr'.all_accepted hc hsent
    have hn' : (w.expired.map (·.id)).Nodup := by
      rw [hr.expired, List.map_map]
      exact (hr.distinct hn).sublist (List.filter_sublist.map _)
    refine ⟨fun _ _ => ⟨?_, ?_, ?_⟩, fun _ h => absurd (hstale.trans h) hexp,
      fun hrow' => ?_⟩
    · rw [closePass_aborted, hab', hr'.summary_aborted, hsame'.summary, hr.summary_aborted,
        hsame.summary]
      rfl
    · intro r hmem
      obtain ⟨x, hx, -⟩ := hr.stale_failed hn hmem
        (by rw [hsame.records]; exact hfind (hwave hmem))
      have hsub : r ∈ submits tr' := by rw [hall, hstale]; exact hmem
      obtain ⟨now, hnow⟩ := hr'.row hn' hsub
      have hstatus := hsent r (hstale ▸ hmem)
      rw [closePass_db, hnow, hsame'.records, hx]
      simp [Db.RecordResult.apply, UploadResult.row, hstatus, Outcome.toStatus]
    · refine ⟨w.pass.trace, tr', ?_, ?_, hr'.no_reauth, hall.trans hstale⟩
      · rw [closePass_trace, hr'.trace, htrace, List.append_assoc, List.singleton_append]
      · rw [hr.trace, List.mem_append, not_or]
        exact ⟨Pass.ensureSession_no_reauth hok (by simp), hr.no_reauth⟩
    · rw [hrow.mpr hrow'] at hab
      cases hab

-- ---------------------------------------------------------------------------
-- Three stale sends
-- ---------------------------------------------------------------------------

def sessionRejected : UploadResult where
  status := .failed
  httpStatus := some 401
  error := some (Text.lit "HTTP 401 (session rejected)")
  isNetworkError := true
  sessionExpired := true

def accepted : UploadResult where
  status := .sent
  state := some (Text.lit "ok")
  httpStatus := some 200

def staleMorning : Env where
  config := { ubkiConcurrency := 1 }
  kyivToday := Text.lit "2026-08-14"
  utcnow := id
  ensureAnswer := .ok (Text.lit "s1")
  reauthAnswer := .ok (Text.lit "s2")
  reply final _ _ := if final then accepted else sessionRejected

def oneFile (lines : List Text) : Db :=
  ({} : Db).insertFile (Text.lit "a.txt") (Text.lit "sha") 9 lines Text.ofNat 0

def twoLines : Db := oneFile [Text.lit "\x7b\x7d", Text.lit "\x7b\x7d"]

def threeLines : Db := oneFile [Text.lit "\x7b\x7d", Text.lit "\x7b\x7d", Text.lit "\x7b\x7d"]

/-- Two stale records are recovered. -/
theorem sendRecords_stale_two :
    ∃ out, sendRecords staleMorning [[0], [1]] [[0], [1]] twoLines {} = some out ∧
      Recovered (staleRecords staleMorning (Text.lit "s1")
        (twoLines.sendableRecords 5) [[0], [1]]) {} out := by
  obtain ⟨h, -⟩ := sendRecords_stale staleMorning twoLines {} [[0], [1]] [[0], [1]]
    (by decide) rfl rfl (by decide) rfl
  refine ⟨_, rfl, h ?_ (by decide)⟩
  rw [← reaches_iff_networkRow]
  decide

/-- Three in a row reach the threshold: the pass never asks for a fresh session. -/
theorem sendRecords_stale_three :
    (∀ r ∈ threeLines.sendableRecords 5,
      (sendOne staleMorning false (Text.lit "s1") r).sessionExpired ∧
      (sendOne staleMorning true (Text.lit "s2") r).status = .sent) ∧
    ∃ out, sendRecords staleMorning [[0], [1], [2]] [] threeLines {} = some out ∧
      out.summary.aborted = true ∧ .reauth ∉ out.trace ∧
      (∀ r ∈ threeLines.sendableRecords 5,
        (out.db.records.find? r.id).map (·.status) = some .failed) ∧
      ¬Recovered (staleRecords staleMorning (Text.lit "s1")
        (threeLines.sendableRecords 5) [[0], [1], [2]]) {} out := by
  refine ⟨by decide, _, rfl, by decide, by decide, by decide, fun h => ?_⟩
  have := h.aborted
  revert this
  decide

end UbkiUploader
