import UbkiUploader.Uploader.Lifecycle
import UbkiUploader.Uploader.RunLaws

/-!
# Passes among the runs

What `send_records` makes durable is a run of the system in which the operations
of both processes interleave, and it stays one when the API resets records between
any two of its effects.
-/

namespace UbkiUploader

open Db (SendableRow ResetTarget)

def Effect.act : Effect → Act
  | .commit c now => .commit c.record c.result now
  | e => .other e

def Effect.committed? : Effect → Option Commit
  | .commit c _ => some c
  | _ => none

def Work.settleAll (w : Work) (cs : List Commit) : Option Work :=
  Machine.run (fun w c => w.settle c.record c.result) w cs

theorem committed_effects : (effectsFrom env i tr).filterMap Effect.committed? = commits tr := by
  induction tr generalizing i with
  | nil => rfl
  | cons e tr ih =>
    rw [effectsFrom, List.filterMap_append, ih]
    cases e with
    | submit r => rfl
    | commit c => rfl
    | auth =>
      simp only [Event.effects]
      split <;> rfl
    | reauth =>
      simp only [Event.effects]
      split <;> rfl

theorem effectsFrom_ingests (he : e ∈ effectsFrom env i tr) : ¬e.ingests := by
  obtain ⟨today, sessid, rfl⟩ | ⟨c, now, rfl⟩ := effectsFrom_cases he
  · exact id
  · exact id

variable {cap : Nat} {w : Work} {fx : List Effect} {cs : List Commit}

theorem run_acts (hfx : ∀ e ∈ fx, ¬e.ingests)
    (hs : w.settleAll (fx.filterMap Effect.committed?) = some w') (db : Db) :
    Machine.run (step cap) { db, pass := some w } (fx.map Effect.act) =
      some { db := replayDb fx db, pass := some w' } := by
  induction fx generalizing w db with
  | nil =>
    cases hs
    rfl
  | cons e fx ih =>
    have hrest : ∀ e ∈ fx, ¬e.ingests := fun e he => hfx e (List.mem_cons_of_mem _ he)
    rw [List.map_cons, Machine.run_cons]
    cases e with
    | commit c now =>
      obtain ⟨v, hv, hs⟩ := Option.bind_eq_some_iff.mp hs
      have hstep : step cap { db, pass := some w } (Effect.act (.commit c now)) =
          some { db := db.updateRecordResult c.record.id c.result.row now, pass := some v } := by
        simp [Effect.act, step, hv]
      rw [hstep, Option.bind_some, ih hrest hs]
      rfl
    | insertFile => exact (hfx _ List.mem_cons_self trivial).elim
    | _ => exact ih hrest hs _

def Work.afterFirst (w : Work) (c : Commit) : Work where
  todo := w.todo.erase c.record
  stale := if c.result.sessionExpired then w.stale ++ [c.record] else w.stale

theorem settleAll_first (hn : w.todo.Nodup) (hd : (cs.map (·.record)).Nodup)
    (hm : cs.map (·.record) ⊆ w.todo) :
    ∃ w', w.settleAll cs = some w' ∧
      w'.stale = w.stale ++ (cs.filter (·.result.sessionExpired)).map (·.record) ∧
      ∀ x ∈ w'.todo, x ∈ w.todo ∧ x ∉ cs.map (·.record) := by
  induction cs generalizing w with
  | nil => exact ⟨w, rfl, by simp, by simp⟩
  | cons c cs ih =>
    obtain ⟨hnot, hd⟩ := List.nodup_cons.mp hd
    obtain ⟨hc, hm⟩ := List.cons_subset.mp hm
    have hsettle : w.settle c.record c.result = some (w.afterFirst c) := by
      simp [Work.settle, Work.afterFirst, hc]
    have hm' : cs.map (·.record) ⊆ (w.afterFirst c).todo := fun x hx => by
      rw [Work.afterFirst, hn.mem_erase_iff]
      refine ⟨fun h => ?_, hm hx⟩
      subst h
      exact hnot hx
    obtain ⟨w', hrun, hstale, htodo⟩ := ih (hn.erase _) hd hm'
    refine ⟨w', ?_, ?_, fun x hx => ?_⟩
    · rw [Work.settleAll, Machine.run_cons, hsettle]
      exact hrun
    · rw [hstale, Work.afterFirst]
      cases hexp : c.result.sessionExpired <;> simp [hexp]
    · obtain ⟨hx, hxcs⟩ := htodo x hx
      rw [Work.afterFirst, hn.mem_erase_iff] at hx
      exact ⟨hx.2, by simpa using ⟨hx.1, by simpa using hxcs⟩⟩

theorem settleAll_again (hd : (cs.map (·.record)).Nodup) (hm : cs.map (·.record) ⊆ w.stale)
    (hnot : ∀ x ∈ w.todo, x ∉ cs.map (·.record)) : ∃ w', w.settleAll cs = some w' := by
  induction cs generalizing w with
  | nil => exact ⟨w, rfl⟩
  | cons c cs ih =>
    obtain ⟨hnew, hd⟩ := List.nodup_cons.mp hd
    obtain ⟨hc, hm⟩ := List.cons_subset.mp hm
    have htodo : c.record ∉ w.todo := fun h => hnot _ h (by simp)
    have hsettle : w.settle c.record c.result =
        some { w with stale := w.stale.erase c.record } := by
      simp [Work.settle, htodo, hc]
    have hm' : cs.map (·.record) ⊆ w.stale.erase c.record := fun x hx => by
      refine (List.mem_erase_of_ne fun h => ?_).mpr (hm hx)
      subst h
      exact hnew hx
    obtain ⟨w', hrun⟩ := ih (w := { w with stale := w.stale.erase c.record }) hd hm'
      fun x hx h => hnot x hx (List.mem_cons_of_mem _ h)
    refine ⟨w', ?_⟩
    rw [Work.settleAll, Machine.run_cons, hsettle]
    exact hrun

theorem Ran.records_nodup {w : Wave} (hr : Ran env final sessid wave p order tr w)
    (hn : wave.Nodup) : ((commits tr).map (·.record)).Nodup :=
  hr.settled.nodup_iff.mpr (hn.sublist hr.submits_sublist)

theorem Ran.records_subset {w : Wave} (hr : Ran env final sessid wave p order tr w) :
    (commits tr).map (·.record) ⊆ wave :=
  fun _ hx => hr.submits_sublist.subset (hr.settled.mem_iff.mp hx)

theorem Ran.settles_first {w : Wave} (hr : Ran env false sessid wave p order tr w)
    (hn : wave.Nodup) :
    ∃ v, ({ todo := wave } : Work).settleAll (commits tr) = some v ∧ v.stale = w.expired ∧
      ∀ x ∈ v.todo, x ∉ (commits tr).map (·.record) := by
  obtain ⟨v, hv, hstale, htodo⟩ :=
    settleAll_first (w := { todo := wave }) hn (hr.records_nodup hn) hr.records_subset
  refine ⟨v, hv, ?_, fun x hx => (htodo x hx).2⟩
  rw [hstale, hr.expired, List.nil_append]
  refine congrArg (List.map _) (List.filter_congr fun c hc => ?_)
  rw [hr.result hc, settlement_deferred, settlement_result, Bool.not_false, Bool.and_true]

theorem Ran.settles_again {again : Wave} {v : Work}
    (hr : Ran env true fresh v.stale q order tr again) (hn : v.stale.Nodup)
    (hnot : ∀ x ∈ v.todo, x ∉ v.stale) : ∃ v', v.settleAll (commits tr) = some v' :=
  settleAll_again (hr.records_nodup hn) hr.records_subset
    fun x hx h => hnot x hx (hr.records_subset h)

theorem sendRecords_settles (h : sendRecords env first resend db summary = some out) :
    ∃ v, ({ todo := db.sendableRecords env.config.retryCap } : Work).settleAll
      (commits out.trace) = some v := by
  have hn := (db.sendableRecords_nodup env.config.retryCap).of_map
  cases sendRecords_course h with
  | nothing => exact ⟨_, rfl⟩
  | blocked hauth =>
    rw [blockPass, (Pass.ensureSession_same hauth).2]
    exact ⟨_, rfl⟩
  | oneWave hauth hw =>
    obtain ⟨tr, hr⟩ := runWave_ran hw
    obtain ⟨v, hv, -⟩ := hr.settles_first hn
    refine ⟨v, ?_⟩
    rw [closePass_trace, hr.trace, commits_append, (Pass.ensureSession_same hauth).2]
    exact hv
  | stranded hauth hw _ _ hre =>
    obtain ⟨tr, hr⟩ := runWave_ran hw
    obtain ⟨v, hv, -⟩ := hr.settles_first hn
    refine ⟨v, ?_⟩
    rw [strand, (Pass.reauth_same hre).2.1, commits_append, hr.trace, commits_append,
      (Pass.ensureSession_same hauth).2]
    simpa using hv
  | resent hauth hw _ _ hre hagain =>
    obtain ⟨tr, hr⟩ := runWave_ran hw
    obtain ⟨tr', hr'⟩ := runWave_ran hagain
    obtain ⟨v, hv, hstale, htodo⟩ := hr.settles_first hn
    rw [← hstale] at hr'
    have hsub : v.stale ⊆ (commits tr).map (·.record) := by
      rw [hstale, hr.expired]
      exact (List.filter_sublist.map _).subset
    have hnstale : v.stale.Nodup := by
      rw [hstale, hr.expired]
      exact (hr.records_nodup hn).sublist (List.filter_sublist.map _)
    obtain ⟨v', hv'⟩ := hr'.settles_again hnstale fun x hx h => htodo x hx (hsub h)
    refine ⟨v', ?_⟩
    rw [closePass_trace, hr'.trace, (Pass.reauth_same hre).2.1, hr.trace, commits_append,
      commits_append, commits_append, (Pass.ensureSession_same hauth).2]
    simpa [Work.settleAll] using Machine.run_append_of hv hv'

/-- What a pass makes durable is a run: a snapshot, then its commits. -/
theorem sendRecords_runs (h : sendRecords env first resend db summary = some out) :
    ∃ v, Machine.run (step env.config.retryCap) { db }
      (.snapshot :: (effectsFrom env 0 out.trace).map Effect.act) =
        some { db := out.db, pass := some v } := by
  obtain ⟨v, hv⟩ := sendRecords_settles h
  refine ⟨v, ?_⟩
  have heffects : (effectsFrom env 0 out.trace).filterMap Effect.committed? = commits out.trace :=
    committed_effects
  rw [← heffects] at hv
  rw [Machine.run_cons, show out.db = _ from sendRecords_durable h]
  exact run_acts (fun e => effectsFrom_ingests) hv db

-- ---------------------------------------------------------------------------
-- Resets in between
-- ---------------------------------------------------------------------------

/-- Whether an action is taken, other than a snapshot, is up to the work of the
pass, and so is the work it leaves. -/
theorem step_any_db (hsnap : a ≠ .snapshot) (h : step cap σ a = some τ) (db : Db) :
    ∃ τ', step cap { σ with db } a = some τ' ∧ τ'.pass = τ.pass := by
  cases a with
  | snapshot => exact absurd rfl hsnap
  | commit record result now =>
    obtain ⟨w, hw, h⟩ := Option.bind_eq_some_iff.mp h
    obtain ⟨w', hw', h⟩ := Option.bind_eq_some_iff.mp h
    cases h
    exact ⟨{ db := db.updateRecordResult record.id result.row now, pass := some w' },
      by simp [step, hw, hw'], rfl⟩
  | other e =>
    simp only [step] at h
    split at h
    · rename_i he
      cases h
      exact ⟨{ σ with db := e.onDb db }, by simp [step, he], rfl⟩
    · cases h
  | _ =>
    cases h
    exact ⟨_, rfl, rfl⟩

def Act.isReset : Act → Bool
  | .reset _ => true
  | _ => false

/-- The API may reset records between any two actions of a pass. -/
theorem run_with_resets {acts : List Act} (hsnap : .snapshot ∉ acts)
    (h : Machine.run (step cap) σ (acts.filter (!Act.isReset ·)) = some τ) (db : Db) :
    ∃ τ', Machine.run (step cap) { σ with db } acts = some τ' ∧ τ'.pass = τ.pass := by
  induction acts generalizing σ db with
  | nil =>
    cases h
    exact ⟨_, rfl, rfl⟩
  | cons a acts ih =>
    simp only [List.mem_cons, not_or] at hsnap
    cases hreset : a.isReset with
    | true =>
      cases a with
      | reset target =>
        rw [List.filter_cons_of_neg (by simp [Act.isReset])] at h
        exact ih hsnap.2 h (db.resetRecords target).1
      | _ => cases hreset
    | false =>
      rw [List.filter_cons_of_pos (by simp [hreset]), Machine.run_cons] at h
      obtain ⟨υ, hυ, h⟩ := Option.bind_eq_some_iff.mp h
      obtain ⟨υ', hυ', hpass⟩ := step_any_db (Ne.symm hsnap.1) hυ db
      obtain ⟨τ', hrun, hτ'⟩ := ih hsnap.2 h υ'.db
      refine ⟨τ', ?_, hτ'⟩
      rw [Machine.run_cons, hυ', Option.bind_some]
      rwa [← hpass] at hrun

end UbkiUploader
