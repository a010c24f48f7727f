import UbkiUploader.Uploader.Trace

/-!
# What a wave does

`runWave_spec` says everything a finished wave did, in terms of its input alone:
the records in completion order decide the commits, the streak, the abort and
how long a prefix of the wave was dispatched.
-/

namespace UbkiUploader

open Db (SendableRow)
open Streak (Signal)

@[simp] theorem settlement_record : (settlement env final sessid r).record = r := rfl

theorem settlement_result :
    (settlement env final sessid r).result = sendOne env final sessid r := by
  simp only [settlement]

theorem map_settlement_record (rs : List SendableRow) :
    (rs.map (settlement env final sessid)).map (·.record) = rs := by
  simp [Function.comp_def]

-- ---------------------------------------------------------------------------
-- Lawful traces
-- ---------------------------------------------------------------------------

/-- What holds of the trace of a wave at each of its points: only dispatched
records are committed, at most `c` wait for their commit, and a dispatch was not
preceded by the abort. -/
structure Lawful (c t streak : Nat) (tr : List Event) : Prop where
  sends : .auth ∉ tr ∧ .reauth ∉ tr
  committed : ((commits tr).map (·.record)).Subperm (submits tr)
  window : (submits tr).length ≤ (commits tr).length + c
  before : ∀ q r, tr = q ++ [.submit r] → Streak.reaches t streak (signals (commits q)) = false

theorem filterMap_range_getElem? (l : List α) : (List.range n).filterMap (l[·]?) = l.take n := by
  induction n with
  | zero => simp
  | succ n ih =>
    rw [List.range_succ, List.filterMap_append, ih, List.take_add_one]
    cases h : l[n]? <;> simp [h]

theorem settled_perm {wave : List SendableRow} (hi : Pool.Inv wave c done p) :
    (done.filterMap (wave[·]?) ++ p.busy.map Prod.snd).Perm (wave.take p.started) := by
  have hbusy : p.tickets.filterMap (wave[·]?) = p.busy.map Prod.snd := by
    rw [Pool.tickets, List.filterMap_map, ← List.filterMap_eq_map]
    exact List.filterMap_congr fun e he => hi.task e he
  have := hi.tickets.filterMap (wave[·]?)
  rwa [List.filterMap_append, hbusy, filterMap_range_getElem?] at this

namespace Wave

variable {env : Env} {final : Bool} {sessid : Text} {wave : List SendableRow} {p : Pass}

/-- What holds of a wave over `wave`, begun in `p`, after the tickets of `done`
were settled and `tr` happened. -/
structure Inv (env : Env) (final : Bool) (sessid : Text) (wave : List SendableRow) (p : Pass)
    (done : List Nat) (tr : List Event) (w : Wave) : Prop where
  pool : Pool.Inv wave env.config.ubkiConcurrency done w.pool
  dispatched : submits tr = wave.take w.pool.started
  results : commits tr = (done.filterMap (wave[·]?)).map (settlement env final sessid)
  pass : w.pass = { p.replay env tr with
    streak := Streak.count p.streak (signals (commits tr)) }
  expired : w.expired = ((commits tr).filter Commit.deferred).map (·.record)
  aborted : w.aborted = Streak.reaches env.config.networkAbortThreshold p.streak
    (signals (commits tr))
  lawful : ∀ q, q <+: tr →
    Lawful env.config.ubkiConcurrency env.config.networkAbortThreshold p.streak q

/-- The dispatches made so far are all that the window and the refills allow. -/
def Counted (env : Env) (wave : List SendableRow) (p : Pass) (tr : List Event) (w : Wave) : Prop :=
  Pool.Counted wave env.config.ubkiConcurrency
    (Streak.quiet env.config.networkAbortThreshold p.streak (signals (commits tr)))
    w.pool

theorem Inv.settled (hi : Inv env final sessid wave p done tr w) :
    ((commits tr).map (·.record) ++ w.pool.busy.map Prod.snd).Perm
      (submits tr) := by
  rw [hi.results, map_settlement_record, hi.dispatched]
  exact settled_perm hi.pool

theorem Inv.committed (hi : Inv env final sessid wave p done tr w) :
    ((commits tr).map (·.record)).Subperm (submits tr) :=
  (List.sublist_append_left _ _).subperm.trans hi.settled.subperm

theorem Inv.window (hi : Inv env final sessid wave p done tr w) :
    (submits tr).length = (commits tr).length + w.pool.busy.length := by
  simpa using hi.settled.length_eq.symm

-- ---------------------------------------------------------------------------
-- Dispatching
-- ---------------------------------------------------------------------------

@[simp] theorem submit_pool (w : Wave) : w.submit.pool = w.pool.start := by
  unfold Wave.submit
  split
  · rename_i hw; rw [Pool.start_nil hw]
  · rfl

theorem Inv.submit (hi : Inv env final sessid wave p done tr w)
    (hroom : w.pool.busy.length < env.config.ubkiConcurrency) (ha : w.aborted = false) :
    ∃ tr', commits tr' = commits tr ∧
      Inv env final sessid wave p done tr' w.submit := by
  cases hw : w.pool.waiting with
  | nil => exact ⟨tr, rfl, by simpa [Wave.submit, hw] using hi⟩
  | cons record rest =>
    obtain ⟨hrec, -, hlt⟩ := hi.pool.head hw
    have hpool := hi.pool.start hroom
    have hsub : w.submit = { w with
        pool := w.pool.start
        pass := { w.pass with trace := w.pass.trace ++ [.submit record] } } := by
      simp [Wave.submit, hw]
    have hstarted : w.pool.start.started = w.pool.started + 1 := by simp [Pool.start_cons hw]
    have hsubmits : submits (tr ++ [.submit record]) =
        wave.take w.pool.start.started := by
      simp [hi.dispatched, hstarted, List.take_add_one, hrec]
    refine ⟨tr ++ [.submit record], by simp, ?_⟩
    rw [hsub]
    refine ⟨hpool, hsubmits, by simpa using hi.results, ?_, by simpa using hi.expired,
      by simpa using hi.aborted, ?_⟩
    · simp [hi.pass, Pass.replay, Pass.after]
    · intro q hq
      rcases List.prefix_concat_iff.mp hq with rfl | hq
      · refine ⟨by simpa using (hi.lawful tr List.prefix_rfl).sends, ?_, ?_, ?_⟩
        · simpa using hi.committed.trans (List.sublist_append_left _ _).subperm
        · have := hi.window
          simp only [submits_append, commits_append, List.length_append]
          simp
          omega
        · intro q r hqr
          obtain ⟨rfl, -⟩ := List.append_inj' hqr rfl
          rw [← hi.aborted, ha]
      · exact hi.lawful q hq

-- ---------------------------------------------------------------------------
-- Committing
-- ---------------------------------------------------------------------------

@[simp] theorem land_pool (w : Wave) (fut : Nat) (record : SendableRow) :
    (w.land env final sessid fut record).pool = w.pool.release fut := rfl

theorem land_streak (w : Wave) (fut : Nat) (record : SendableRow) :
    (w.land env final sessid fut record).pass.streak =
      Streak.next w.pass.streak (settlement env final sessid record).result.signal := by
  simp only [Wave.land, UploadResult.signal, Pass.commit]
  split
  · rfl
  · split <;> rfl

theorem land_aborted (w : Wave) (fut : Nat) (record : SendableRow) :
    (w.land env final sessid fut record).aborted =
      (w.aborted || Streak.trips env.config.networkAbortThreshold w.pass.streak
        (settlement env final sessid record).result.signal) := by
  simp only [Wave.land, UploadResult.signal, Pass.commit]
  split
  · simp_all [Streak.trips]
  · split <;> simp_all [Streak.trips]

theorem land_pass (w : Wave) (fut : Nat) (record : SendableRow) :
    (w.land env final sessid fut record).pass =
      { w.pass.commit env (settlement env final sessid record) with
        streak := (w.land env final sessid fut record).pass.streak } := by
  simp only [Wave.land]

theorem land_expired (w : Wave) (fut : Nat) (record : SendableRow) :
    (w.land env final sessid fut record).expired = w.expired ++
      ([settlement env final sessid record].filter Commit.deferred).map (·.record) := by
  simp only [Wave.land, List.filter_cons, List.filter_nil]
  split <;> simp

theorem Inv.land (hi : Inv env final sessid wave p done tr w) (hm : fut ∈ w.pool.tickets)
    (hr : w.pool.task? fut = some record) :
    Inv env final sessid wave p (done ++ [fut])
      (tr ++ [.commit (settlement env final sessid record)])
      (w.land env final sessid fut record) ∧
    (w.land env final sessid fut record).pool.busy.length < env.config.ubkiConcurrency := by
  obtain ⟨record', hr', hmem⟩ := Pool.task?_of_mem hm
  obtain rfl : record' = record := by simpa [hr'] using hr
  have htask : wave[fut]? = some record' := hi.pool.task _ hmem
  obtain ⟨hpool, hroom⟩ := hi.pool.release hm
  have hcommits : commits (tr ++ [.commit (settlement env final sessid record')]) =
      ((done ++ [fut]).filterMap (wave[·]?)).map (settlement env final sessid) := by
    simp [hi.results, htask]
  have hstreak := congrArg Pass.streak hi.pass
  simp only at hstreak
  refine ⟨⟨hpool, by simpa using hi.dispatched, hcommits, ?_, ?_, ?_, ?_⟩, hroom⟩
  · rw [land_pass, land_streak, hstreak, hi.pass, Pass.commit_streak]
    simp [Pass.replay, Pass.after, signals, settlement]
  · rw [land_expired, hi.expired]
    simp
  · rw [land_aborted, hi.aborted, hstreak]
    simp [Streak.reaches_snoc, signals, settlement]
  · intro q hq
    rcases List.prefix_concat_iff.mp hq with rfl | hq
    · refine ⟨by simpa using (hi.lawful tr List.prefix_rfl).sends, ?_, ?_, ?_⟩
      · have hp := settled_perm hpool
        rw [hcommits, map_settlement_record]
        refine ((List.sublist_append_left _ _).subperm.trans hp.subperm).trans ?_
        simp [hi.dispatched, List.Subperm.refl]
      · have := hi.window
        have := hi.pool.room
        simp only [submits_append, commits_append, List.length_append]
        simp
        omega
      · intro q r hqr
        have := (List.append_inj' hqr rfl).2
        simp at this
    · exact hi.lawful q hq

-- ---------------------------------------------------------------------------
-- The loop
-- ---------------------------------------------------------------------------

theorem mem_tickets_submit (w : Wave) (h : i ∈ w.pool.tickets) : i ∈ w.submit.pool.tickets := by
  rw [submit_pool]
  cases hw : w.pool.waiting with
  | nil => rwa [Pool.start_nil hw]
  | cons record rest =>
    rw [Pool.start_cons hw]
    simp only [Pool.tickets] at h ⊢
    simp [h]

theorem mem_tickets_settle (w : Wave) (h : i ∈ w.pool.tickets) (hne : i ≠ fut) :
    i ∈ (w.settle env final sessid fut).pool.tickets := by
  unfold Wave.settle
  split
  · exact h
  · have hl (record : SendableRow) : i ∈ (w.land env final sessid fut record).pool.tickets := by
      simp [Pool.tickets_release, h, hne]
    simp only
    split
    · exact hl _
    · exact mem_tickets_submit _ (hl _)

/-- One pass of the loop body. Until the abort every commit is followed by a
refill, so the count of dispatches grows with the quiet part of the signals. -/
theorem Inv.settle (hi : Inv env final sessid wave p done tr w) (hc : Counted env wave p tr w)
    (hm : fut ∈ w.pool.tickets) :
    ∃ tr', Inv env final sessid wave p (done ++ [fut]) tr' (w.settle env final sessid fut) ∧
      Counted env wave p tr' (w.settle env final sessid fut) := by
  obtain ⟨record, hr, -⟩ := Pool.task?_of_mem hm
  obtain ⟨hl, hroom⟩ := hi.land hm hr
  have hcl : Pool.Counted _ _ _ (w.land env final sessid fut record).pool :=
    Pool.Counted.release hc
  have hab := hl.aborted
  have hquiet := Streak.quiet_snoc (t := env.config.networkAbortThreshold) (n := p.streak)
    (a := signals (commits tr))
    (s := (settlement env final sessid record).result.signal)
  simp only [commits_append, commits_commit, signals_append, signals_singleton] at hab
  simp only [Wave.settle, hr]
  split
  · rename_i ha
    refine ⟨_, hl, ?_⟩
    rw [if_pos (hab ▸ ha)] at hquiet
    simpa [Counted, hquiet] using hcl
  · rename_i ha
    rw [Bool.not_eq_true] at ha
    obtain ⟨tr', htr', hs⟩ := hl.submit hroom ha
    refine ⟨tr', hs, ?_⟩
    have hnot := hab ▸ ha
    have hbefore : Streak.reaches env.config.networkAbortThreshold p.streak
        (signals (commits tr)) = false := by
      rw [Streak.reaches_snoc, Bool.or_eq_false_iff] at hnot
      exact hnot.1
    rw [if_neg (by simp [hnot]), ← Streak.quiet_of_not_reaches hbefore] at hquiet
    unfold Counted
    rw [submit_pool, htr']
    simpa [hquiet] using hcl.start hl.pool

theorem Inv.settleAll (hi : Inv env final sessid wave p done tr w) (hc : Counted env wave p tr w)
    (hn : batch.Nodup) (hm : batch ⊆ w.pool.tickets) :
    ∃ tr', Inv env final sessid wave p (done ++ batch) tr'
        (batch.foldl (Wave.settle env final sessid) w) ∧
      Counted env wave p tr' (batch.foldl (Wave.settle env final sessid) w) := by
  induction batch generalizing done tr w with
  | nil => exact ⟨tr, by simpa using hi, hc⟩
  | cons fut batch ih =>
    obtain ⟨hnot, hn⟩ := List.nodup_cons.mp hn
    obtain ⟨hfut, hm⟩ := List.cons_subset.mp hm
    obtain ⟨tr', hs, hcs⟩ := hi.settle hc hfut
    have hstill : batch ⊆ (w.settle env final sessid fut).pool.tickets := fun i hib =>
      mem_tickets_settle w (hm hib) fun h => hnot (h ▸ hib)
    obtain ⟨tr'', hf, hcf⟩ := ih hs hcs hn hstill
    exact ⟨tr'', by simpa using hf, hcf⟩

theorem Inv.turn (hi : Inv env final sessid wave p done tr w) (hc : Counted env wave p tr w)
    (h : w.turn env final sessid batch = some w') :
    ∃ tr', Inv env final sessid wave p (done ++ batch) tr' w' ∧ Counted env wave p tr' w' := by
  simp only [Wave.turn] at h
  split at h
  · rename_i hb
    cases h
    exact hi.settleAll hc hb.2.1 hb.2.2
  · cases h

theorem Inv.turns {order : List (List Nat)} (hi : Inv env final sessid wave p done tr w)
    (hc : Counted env wave p tr w) (h : order.foldlM (Wave.turn env final sessid) w = some w') :
    ∃ tr', Inv env final sessid wave p (done ++ order.flatten) tr' w' ∧
      Counted env wave p tr' w' := by
  induction order generalizing done tr w with
  | nil =>
    cases h
    exact ⟨tr, by simpa using hi, hc⟩
  | cons batch order ih =>
    rw [List.foldlM_cons] at h
    obtain ⟨mid, hmid, h⟩ := Option.bind_eq_some_iff.mp h
    obtain ⟨tr', hs, hcs⟩ := hi.turn hc hmid
    obtain ⟨tr'', hf, hcf⟩ := ih hs hcs h
    exact ⟨tr'', by simpa using hf, hcf⟩

theorem Inv.opened (env : Env) (final : Bool) (sessid : Text) (wave : List SendableRow)
    (p : Pass) :
    ∃ tr, Inv env final sessid wave p [] tr (Wave.opened env wave p) ∧
      Counted env wave p tr (Wave.opened env wave p) := by
  have hfill : ∀ j ≤ env.config.ubkiConcurrency, ∃ tr,
      commits tr = [] ∧
      Inv env final sessid wave p [] tr (Wave.submit^[j] { pool := .idle wave, pass := p }) ∧
      Pool.Counted wave 0 j (Wave.submit^[j] { pool := .idle wave, pass := p }).pool := by
    intro j hj
    induction j with
    | zero =>
      refine ⟨[], rfl,
        ⟨.idle _ _, by simp [Pool.idle], by simp, by simp, by simp, by simp, ?_⟩,
        by simp [Pool.Counted, Pool.idle]⟩
      intro q hq
      obtain rfl := List.prefix_nil.mp hq
      exact ⟨by simp, by simp, by simp, by simp⟩
    | succ j ih =>
      obtain ⟨tr, hnone, hi, hc⟩ := ih (by omega)
      rw [Function.iterate_succ_apply']
      have hroom : (Wave.submit^[j] { pool := .idle wave, pass := p }).pool.busy.length <
          env.config.ubkiConcurrency := by
        have := hi.pool.length_done
        unfold Pool.Counted at hc
        simp at this
        omega
      have ha := hi.aborted
      rw [hnone, signals_nil, Streak.reaches_nil] at ha
      obtain ⟨tr', htr', hs⟩ := hi.submit hroom ha
      refine ⟨tr', by rw [htr', hnone], hs, ?_⟩
      have hstart := hc.start hi.pool
      rw [submit_pool]
      unfold Pool.Counted at hc hstart ⊢
      omega
  obtain ⟨tr, hnone, hi, hc⟩ := hfill _ (le_refl _)
  refine ⟨tr, hi, ?_⟩
  unfold Counted
  rw [hnone]
  simpa [Pool.Counted, Streak.quiet, Wave.opened] using hc

/-- From any turn on, waiting for the sends one by one comes to an end. -/
theorem Inv.drains (hi : Inv env final sessid wave p done tr w) (hc : Counted env wave p tr w) :
    ∃ order out, Wave.loop env final sessid order w = some out := by
  -- every turn moves one record from unsettled to settled
  induction hn : wave.length - done.length using Nat.strong_induction_on generalizing done tr w with
  | _ n ih =>
    cases hb : w.pool.busy with
    | nil => exact ⟨[], w, by simp [Wave.loop, hb]⟩
    | cons e busy =>
      have hm : e.1 ∈ w.pool.tickets := by simp [Pool.tickets, hb]
      have hturn : w.turn env final sessid [e.1] = some (w.settle env final sessid e.1) := by
        simp [Wave.turn, hm]
      obtain ⟨tr', hs, hcs⟩ := hi.turn hc hturn
      have hlen := hi.pool.length_done
      have hstarted := hi.pool.started
      simp only [hb, List.length_cons] at hlen
      obtain ⟨order, out, h⟩ := ih _ (by simp; omega) hs hcs rfl
      refine ⟨[e.1] :: order, out, ?_⟩
      simpa [Wave.loop, hturn] using h

end Wave

-- ---------------------------------------------------------------------------
-- A finished wave
-- ---------------------------------------------------------------------------

/-- What a wave over `wave` did that began in `p` and ended as `out`: `tr` is
what happened in it. -/
structure Ran (env : Env) (final : Bool) (sessid : Text) (wave : List SendableRow) (p : Pass)
    (order : List (List Nat)) (tr : List Event) (out : Wave) : Prop where
  dispatched : submits tr = wave.take (env.config.ubkiConcurrency +
    Streak.quiet env.config.networkAbortThreshold p.streak (signals (commits tr)))
  results : commits tr = (order.flatten.filterMap (wave[·]?)).map (settlement env final sessid)
  settled : ((commits tr).map (·.record)).Perm (submits tr)
  pass : out.pass = { p.replay env tr with
    streak := Streak.count p.streak (signals (commits tr)) }
  expired : out.expired = ((commits tr).filter Commit.deferred).map (·.record)
  aborted : out.aborted = Streak.reaches env.config.networkAbortThreshold p.streak
    (signals (commits tr))
  lawful : ∀ q, q <+: tr →
    Lawful env.config.ubkiConcurrency env.config.networkAbortThreshold p.streak q

variable {env : Env} {final : Bool} {sessid : Text} {wave : List SendableRow} {p : Pass}

theorem runWave_ran (h : runWave env final sessid wave order p = some out) :
    ∃ tr, Ran env final sessid wave p order tr out := by
  obtain ⟨tr, hi, hc⟩ := Wave.Inv.opened env final sessid wave p
  obtain ⟨hturns, hidle⟩ := Option.filter_eq_some_iff.mp h
  obtain ⟨tr', hf, hcf⟩ := hi.turns hc hturns
  rw [List.nil_append] at hf
  have hbusy : out.pool.busy = [] := by simpa using hidle
  refine ⟨tr', ?_, hf.results, by simpa [hbusy] using hf.settled, hf.pass, hf.expired,
    hf.aborted, hf.lawful⟩
  rw [hf.dispatched, show out.pool.started = _ from hcf, Nat.min_comm, ← List.take_eq_take_min]

/-- However the sends have finished so far, the wave can be brought to its end. -/
theorem runWave_drains
    (h : order.foldlM (Wave.turn env final sessid) (Wave.opened env wave p) = some w) :
    ∃ rest out, runWave env final sessid wave (order ++ rest) p = some out := by
  obtain ⟨tr, hi, hc⟩ := Wave.Inv.opened env final sessid wave p
  obtain ⟨tr', hf, hcf⟩ := hi.turns hc h
  obtain ⟨rest, out, hout⟩ := hf.drains hcf
  refine ⟨rest, out, ?_⟩
  simp only [runWave, Wave.loop, List.foldlM_append, h]
  exact hout

end UbkiUploader
