import UbkiUploader.Uploader.Dispatch
import UbkiUploader.Uploader.Tally

/-!
# How a pass ends

`sendRecords` has several ways out. `Course` lists them, with what each wave in
them did, and the results below go through that list.
-/

namespace UbkiUploader

open Db (SendableRow)

-- ---------------------------------------------------------------------------
-- Authenticating
-- ---------------------------------------------------------------------------

theorem Session.ensureSession_db (s : Session) (today : Text) (answer : Except Text Text) :
    (s.ensureSession today answer).2.db.records = s.db.records ∧
      (s.ensureSession today answer).2.db.files = s.db.files := by
  unfold Session.ensureSession Session.auth
  split
  · exact ⟨rfl, rfl⟩
  · split
    · exact ⟨rfl, rfl⟩
    · exact ⟨rfl, rfl⟩

theorem Session.reauth_db (s : Session) (today : Text) (answer : Except Text Text) :
    (s.reauth today answer).2.db.records = s.db.records ∧
      (s.reauth today answer).2.db.files = s.db.files := by
  unfold Session.reauth Session.auth
  split
  · exact ⟨rfl, rfl⟩
  · exact ⟨rfl, rfl⟩

theorem Session.reauth_fst (s : Session) : (s.reauth today answer).1 = answer := by
  unfold Session.reauth Session.auth
  split <;> rfl

/-- Authenticating leaves the records, the summary and the streak as they were. -/
structure SameWork (p q : Pass) : Prop where
  records : q.db.records = p.db.records
  files : q.db.files = p.db.files
  summary : q.summary = p.summary
  touched : q.touched = p.touched
  streak : q.streak = p.streak

theorem Pass.ensureSession_same {p q : Pass} (h : p.ensureSession env = (a, q)) :
    SameWork p q ∧ commits q.trace = commits p.trace := by
  obtain ⟨-, rfl⟩ := Prod.mk.inj h
  have hdb := p.toSession.ensureSession_db env.kyivToday env.ensureAnswer
  refine ⟨⟨hdb.1, hdb.2, rfl, rfl, rfl⟩, ?_⟩
  simp only [commits_append]
  split <;> simp

theorem Pass.ensureSession_no_reauth {p q : Pass} (h : p.ensureSession env = (a, q))
    (hp : .reauth ∉ p.trace) : .reauth ∉ q.trace := by
  obtain ⟨-, rfl⟩ := Prod.mk.inj h
  simp only [List.mem_append, not_or]
  refine ⟨hp, ?_⟩
  split <;> simp

theorem Pass.reauth_same {p q : Pass} (h : p.reauth env = (a, q)) :
    SameWork p q ∧ q.trace = p.trace ++ [.reauth] ∧ a = env.reauthAnswer := by
  obtain ⟨ha, rfl⟩ := Prod.mk.inj h
  have hdb := p.toSession.reauth_db env.kyivToday env.reauthAnswer
  exact ⟨⟨hdb.1, hdb.2, rfl, rfl, rfl⟩, rfl, by rw [← ha, Session.reauth_fst]⟩

-- ---------------------------------------------------------------------------
-- The course of a pass
-- ---------------------------------------------------------------------------

/-- The ways out of `send_records`. -/
inductive Course (env : Env) (first resend : List (List Nat)) (db : Db) (summary : RunSummary) :
    Pass → Prop
  | nothing (hnone : db.sendableRecords env.config.retryCap = []) :
      Course env first resend db summary { db, summary }
  | blocked {e : Text} {p : Pass}
    (hauth : ({ db, summary } : Pass).ensureSession env = (.error e, p)) :
      Course env first resend db summary (blockPass p e)
  | oneWave {sessid : Text} {p : Pass} {w : Wave}
      (hauth : ({ db, summary } : Pass).ensureSession env = (.ok sessid, p))
      (hw : runWave env false sessid (db.sendableRecords env.config.retryCap) first p = some w)
      (hno : w.expired = [] ∨ w.aborted = true) :
      Course env first resend db summary (closePass env w.pass w.aborted)
  | stranded {sessid : Text} {p : Pass} {w : Wave} {e : Text} {q : Pass}
      (hauth : ({ db, summary } : Pass).ensureSession env = (.ok sessid, p))
      (hw : runWave env false sessid (db.sendableRecords env.config.retryCap) first p = some w)
      (hexp : w.expired ≠ []) (hab : w.aborted = false)
      (hre : w.pass.reauth env = (.error e, q)) :
      Course env first resend db summary (strand w.expired q e)
  | resent {sessid : Text} {p : Pass} {w : Wave} {fresh : Text} {q : Pass} {again : Wave}
      (hauth : ({ db, summary } : Pass).ensureSession env = (.ok sessid, p))
      (hw : runWave env false sessid (db.sendableRecords env.config.retryCap) first p = some w)
      (hexp : w.expired ≠ []) (hab : w.aborted = false)
      (hre : w.pass.reauth env = (.ok fresh, q))
      (hagain : runWave env true fresh w.expired resend q = some again) :
      Course env first resend db summary (closePass env again.pass again.aborted)

theorem sendRecords_course (h : sendRecords env first resend db summary = some out) :
    Course env first resend db summary out := by
  simp only [sendRecords] at h
  split at h
  · rename_i hnone
    cases h
    exact .nothing hnone
  · split at h
    · rename_i e p hauth
      cases h
      exact .blocked hauth
    · rename_i sessid p hauth
      obtain ⟨w, hw, h⟩ := Option.bind_eq_some_iff.mp h
      obtain ⟨⟨q, aborted⟩, hrec, h⟩ := Option.bind_eq_some_iff.mp h
      cases h
      simp only [recover] at hrec
      split at hrec
      · rename_i hexp
        have hab : w.aborted = false := by simpa using hexp.2
        split at hrec
        · rename_i e q hre
          cases hrec
          rw [hab]
          exact .stranded hauth hw hexp.1 hab hre
        · rename_i fresh q hre
          obtain ⟨again, hagain, hrec⟩ := Option.bind_eq_some_iff.mp hrec
          cases hrec
          rw [hab, Bool.false_or]
          exact .resent hauth hw hexp.1 hab hre hagain
      · rename_i hno
        cases hrec
        refine .oneWave hauth hw ?_
        by_contra hcon
        simp only [not_or] at hcon
        exact hno ⟨hcon.1, hcon.2⟩

-- ---------------------------------------------------------------------------
-- The two waves of a pass
-- ---------------------------------------------------------------------------

def arrivals (env : Env) (final : Bool) (sessid : Text) (wave : List SendableRow)
    (order : List (List Nat)) : List Commit :=
  (order.flatten.filterMap (wave[·]?)).map (settlement env final sessid)

def staleRecords (env : Env) (sessid : Text) (wave : List SendableRow) (order : List (List Nat)) :
    List SendableRow :=
  (order.flatten.filterMap (wave[·]?)).filter (sendOne env false sessid · |>.sessionExpired)

@[simp] theorem arrivals_nil : arrivals env final sessid [] order = [] := by
  simp [arrivals]

@[simp] theorem staleRecords_nil : staleRecords env sessid [] order = [] := by
  simp [staleRecords]

theorem settlement_deferred : (settlement env final sessid r).deferred =
    ((sendOne env final sessid r).sessionExpired && !final) := by
  simp [settlement, Commit.deferred]

theorem Ran.expired_eq {w : Wave} (hr : Ran env false sessid wave p order tr w) :
    w.expired = staleRecords env sessid wave order := by
  rw [hr.expired, hr.results, List.filter_map, List.map_map, staleRecords]
  simp [Function.comp_def, settlement_deferred]

theorem Ran.distinct {w : Wave} (hr : Ran env final sessid wave p order tr w)
    (hn : (wave.map (·.id)).Nodup) : ((commits tr).map Commit.key).Nodup := by
  have hperm := hr.settled.map (·.id)
  rw [List.map_map] at hperm
  exact hperm.nodup_iff.mpr (hn.sublist (hr.submits_sublist.map _))

theorem Ran.deferred_failed {w : Wave} (hr : Ran env final sessid wave p order tr w)
    (hc : c ∈ commits tr) (hd : c.deferred) : c.result.status = .failed := by
  rw [hr.result hc, settlement_deferred] at hd
  rw [hr.result hc]
  have hx := (Bool.and_eq_true _ _ |>.mp hd).1
  exact (settlement env final sessid c.record).result.networkFailed
    ((settlement env final sessid c.record).result.paired hx)

theorem Ran.counted {w : Wave} (hr : Ran env true sessid wave p order tr w)
    (hc : c ∈ commits tr) : c.countSummary := by
  rw [hr.result hc]
  simp [settlement]

/-- A resend wave over the stale records defers nothing and commits only them. -/
theorem Ran.deferring {w again : Wave} (hr : Ran env false sessid wave p order tr w)
    (hn : (wave.map (·.id)).Nodup) (hr' : Ran env true fresh w.expired q order' tr' again) :
    Deferring (commits tr) (commits tr') where
  distinct := hr.distinct hn
  failed := fun _ => hr.deferred_failed
  counted := fun _ => hr'.counted
  again := by
    have hperm := hr'.settled.map (·.id)
    have hsub := hr'.submits_sublist.map (·.id)
    rw [List.map_map] at hperm
    rw [hr.expired, List.map_map] at hsub
    exact hperm.subperm.trans hsub.subperm

theorem Ran.deferring_nil {w : Wave} (hr : Ran env false sessid wave p order tr w)
    (hn : (wave.map (·.id)).Nodup) : Deferring (commits tr) [] where
  distinct := hr.distinct hn
  failed := fun _ => hr.deferred_failed
  counted := by simp
  again := by simp

end UbkiUploader
