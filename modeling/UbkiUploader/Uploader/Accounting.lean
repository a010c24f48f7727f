import UbkiUploader.Uploader.SendLaws

/-!
# Accounting of a pass

Whether the summary gives every record its final outcome. Deferred records are
counted by a branch after the first wave, or by the resend wave. An abort skips
that branch, and an abort of the resend wave leaves records it would have counted.
-/

namespace UbkiUploader

open Db (SendableRow)

/-- The summary counts every record of the pass by its last commit. -/
def Accounted (before after : RunSummary) (cs : List Commit) : Prop :=
  ∀ o, after.recordsOf o = before.recordsOf o + settledAs o cs

/-- The completions of a resend wave that are followed by a dispatch: all but the
last windowful. -/
def resendArrivals (env : Env) (stale : List SendableRow) (order : List (List Nat)) : List Commit :=
  match env.reauthAnswer with
  | .ok fresh => (arrivals env true fresh stale order).take
      (stale.length - env.config.ubkiConcurrency)
  | .error _ => []

/-- Either no send finds its session stale, or the sends never fail in a row long
enough to keep a stale record from being dealt with. -/
def AllDealtWith (env : Env) (first resend : List (List Nat)) (db : Db) : Prop :=
  ∀ sessid, (Session.ensureSession env.kyivToday env.ensureAnswer { db }).1 = .ok sessid →
    let wave := db.sendableRecords env.config.retryCap
    let stale := staleRecords env sessid wave first
    stale = [] ∨ ¬NetworkRow env.config.networkAbortThreshold 0
      (arrivals env false sessid wave first ++ resendArrivals env stale resend)

-- ---------------------------------------------------------------------------
-- Counting a pass
-- ---------------------------------------------------------------------------

/-- What makes the numbers of a pass right, when `x` failures were counted besides
the commits. -/
theorem accounted_iff (hd : Deferring cs again)
    (h : ∀ o, after.recordsOf o = before.recordsOf o + (cs ++ again).countP (Commit.counts o) +
      if o = .failed then x else 0) :
    Accounted before after (cs ++ again) ↔
      x = (cs.filter Commit.deferred).length - again.length := by
  constructor
  · intro ha
    have := ha .failed
    rw [h, hd.settledAs_append] at this
    simp only [if_true] at this
    omega
  · intro he o
    rw [h, hd.settledAs_append, he]
    omega

/-- The resend wave commits every stale record exactly when its window could
still be refilled for the last of them. -/
theorem Ran.all_again {wave : List SendableRow} (hr : Ran env true fresh wave q order tr again)
    (hc : 1 ≤ env.config.ubkiConcurrency) :
    wave.length ≤ (commits tr).length ↔
      Streak.reaches env.config.networkAbortThreshold q.streak
        (signals ((commits tr).take (wave.length - env.config.ubkiConcurrency))) = false := by
  have hlen : (commits tr).length = min (env.config.ubkiConcurrency +
      Streak.quiet env.config.networkAbortThreshold q.streak (signals (commits tr)))
      wave.length := by
    rw [hr.length_commits, hr.dispatched, List.length_take]
  have hsig : (signals (commits tr)).length = (commits tr).length := by simp [signals]
  have htake : signals ((commits tr).take (wave.length - env.config.ubkiConcurrency)) =
      (signals (commits tr)).take (wave.length - env.config.ubkiConcurrency) := by
    simp [signals, List.map_take]
  rw [htake]
  by_cases hk : wave.length - env.config.ubkiConcurrency ≤ (commits tr).length
  · rw [← Streak.le_quiet_iff (hsig ▸ hk)]
    omega
  · -- too few commits: the wave was aborted within them
    rw [List.take_of_length_le (by omega), ← Streak.quiet_eq_length_iff, hsig]
    omega

variable {db : Db} {summary : RunSummary} {out : Pass}

theorem closePass_recordsOf (p : Pass) : (closePass env p b).summary.recordsOf o =
    p.summary.recordsOf o := by
  unfold closePass
  split <;> simp

@[simp] theorem closePass_trace (p : Pass) : (closePass env p b).trace = p.trace := by
  unfold closePass
  split <;> rfl

theorem Ran.recordsOf {w : Wave} (hr : Ran env final sessid wave p order tr w) :
    w.pass.summary.recordsOf o =
      p.summary.recordsOf o + (commits tr).countP (Commit.counts o) := by
  rw [hr.pass]
  exact replay_recordsOf p

theorem allDealtWith_iff {p : Pass}
    (hauth : ({ db, summary } : Pass).ensureSession env = (.ok sessid, p)) :
    AllDealtWith env first resend db ↔
      staleRecords env sessid (db.sendableRecords env.config.retryCap) first = [] ∨
      ¬NetworkRow env.config.networkAbortThreshold 0
        (arrivals env false sessid (db.sendableRecords env.config.retryCap) first ++
          resendArrivals env
            (staleRecords env sessid (db.sendableRecords env.config.retryCap) first) resend) := by
  have hok := (Prod.mk.inj hauth).1
  constructor
  · intro h
    exact h sessid hok
  · intro h sessid' hok'
    obtain rfl : sessid = sessid' := Except.ok.inj (hok.symm.trans hok')
    exact h

/-- The row that aborts lies in the first wave or goes on into what follows. -/
theorem Ran.networkRow_append {w : Wave} (hr : Ran env final sessid wave p order tr w)
    (hp : p.streak = 0) :
    NetworkRow env.config.networkAbortThreshold 0 (arrivals env final sessid wave order ++ cs) ↔
      w.aborted = true ∨
        Streak.reaches env.config.networkAbortThreshold w.pass.streak (signals cs) = true := by
  rw [← reaches_iff_networkRow, signals_append, Streak.reaches_append, Bool.or_eq_true, arrivals,
    ← hr.results, hr.aborted, hr.pass, hp]

theorem Ran.length_deferred {w : Wave} (hr : Ran env final sessid wave p order tr w) :
    ((commits tr).filter Commit.deferred).length = w.expired.length := by
  rw [hr.expired, List.length_map]

/-- The numbers of a pass are right exactly when every stale record was dealt
with. -/
theorem sendRecords_accounted_iff (hc : 1 ≤ env.config.ubkiConcurrency)
    (h : sendRecords env first resend db summary = some out) :
    Accounted summary out.summary (commits out.trace) ↔ AllDealtWith env first resend db := by
  have hn := db.sendableRecords_nodup env.config.retryCap
  cases sendRecords_course h with
  | nothing hnone =>
    refine iff_of_true (fun o => rfl) fun sessid _ => .inl ?_
    simp [staleRecords, hnone]
  | @blocked e p hauth =>
    obtain ⟨hsame, hcommits⟩ := Pass.ensureSession_same hauth
    refine iff_of_true (fun o => ?_) fun sessid hok => ?_
    · simp [blockPass, hsame.summary, hcommits, settledAs]
    · cases (Prod.mk.inj hauth).1.symm.trans hok
  | @oneWave sessid p w hauth hw hno =>
    obtain ⟨hsame, hcommits⟩ := Pass.ensureSession_same hauth
    obtain ⟨tr, hr⟩ := runWave_ran hw
    have htrace : commits (closePass env w.pass w.aborted).trace = commits tr ++ [] := by
      simp [hr.trace, hcommits]
    have hcount (o : Outcome) : (closePass env w.pass w.aborted).summary.recordsOf o =
        summary.recordsOf o + (commits tr ++ []).countP (Commit.counts o) +
          if o = .failed then 0 else 0 := by
      simp [closePass_recordsOf, hr.recordsOf, hsame.summary]
    rw [htrace, accounted_iff (hr.deferring_nil hn) hcount, hr.length_deferred,
      allDealtWith_iff hauth, ← hr.expired_eq, hr.networkRow_append hsame.streak]
    rcases hno with hno | hno
    · simp [hno]
    · rw [eq_comm]
      simp [hno]
  | @stranded sessid p w e q hauth hw hexp hab hre =>
    obtain ⟨hsame, hcommits⟩ := Pass.ensureSession_same hauth
    obtain ⟨tr, hr⟩ := runWave_ran hw
    obtain ⟨hsame', hcommits', hanswer⟩ := Pass.reauth_same hre
    have htrace : commits (strand w.expired q e).trace = commits tr ++ [] := by
      simp [strand, hcommits', hr.trace, hcommits]
    have hcount (o : Outcome) : (strand w.expired q e).summary.recordsOf o =
        summary.recordsOf o + (commits tr ++ []).countP (Commit.counts o) +
          if o = .failed then w.expired.length else 0 := by
      have := hr.recordsOf (o := o)
      rw [← hsame'.summary, hsame.summary] at this
      cases o <;> simp_all [strand, RunSummary.recordsOf]
    rw [htrace, accounted_iff (hr.deferring_nil hn) hcount, hr.length_deferred,
      allDealtWith_iff hauth, ← hr.expired_eq, hr.networkRow_append hsame.streak]
    simp [resendArrivals, ← hanswer, hab]
  | @resent sessid p w fresh q again hauth hw hexp hab hre hagain =>
    obtain ⟨hsame, hcommits⟩ := Pass.ensureSession_same hauth
    obtain ⟨tr, hr⟩ := runWave_ran hw
    obtain ⟨hsame', hcommits', hanswer⟩ := Pass.reauth_same hre
    obtain ⟨tr', hr'⟩ := runWave_ran hagain
    have htrace : commits (closePass env again.pass again.aborted).trace =
        commits tr ++ commits tr' := by
      simp [hr'.trace, hcommits', hr.trace, hcommits]
    have hcount (o : Outcome) : (closePass env again.pass again.aborted).summary.recordsOf o =
        summary.recordsOf o + (commits tr ++ commits tr').countP (Commit.counts o) +
          if o = .failed then 0 else 0 := by
      rw [closePass_recordsOf, hr'.recordsOf, hsame'.summary, hr.recordsOf, hsame.summary,
        List.countP_append]
      simp [Nat.add_assoc]
    have hleft := hr'.all_again hc
    rw [htrace, accounted_iff (hr.deferring hn hr') hcount, hr.length_deferred,
      allDealtWith_iff hauth, ← hr.expired_eq, hr.networkRow_append hsame.streak]
    rw [hsame'.streak, hr'.results] at hleft
    simp only [hexp, hab, resendArrivals, ← hanswer, arrivals, false_or, Bool.false_eq_true,
      Bool.not_eq_true]
    rw [← hleft, hr'.results]
    omega

end UbkiUploader
