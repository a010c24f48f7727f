import UbkiUploader.DbLaws
import UbkiUploader.Uploader.Wave

/-!
# What a trace tells

The dispatches and the commits in a trace, what the commits do to the database
when they are replayed, and what the abort rule reads off them.
-/

namespace UbkiUploader

open Db (SendableRow)
open Streak (Signal)

-- ---------------------------------------------------------------------------
-- Reading a trace
-- ---------------------------------------------------------------------------

/-- How the abort accounting sees a result. -/
def UploadResult.signal (r : UploadResult) : Signal :=
  if r.isNetworkError then .hit else if r.isLocalReject then .neutral else .reset

def Event.submitted? : Event → Option SendableRow
  | .submit record => some record
  | _ => none

def Event.committed? : Event → Option Commit
  | .commit c => some c
  | _ => none

def submits (tr : List Event) : List SendableRow := tr.filterMap Event.submitted?
def commits (tr : List Event) : List Commit := tr.filterMap Event.committed?
def signals (cs : List Commit) : List Signal := cs.map (·.result.signal)

@[simp] theorem submits_append : submits (a ++ b) = submits a ++ submits b := by simp [submits]
@[simp] theorem commits_append : commits (a ++ b) = commits a ++ commits b := by simp [commits]
@[simp] theorem signals_append : signals (a ++ b) = signals a ++ signals b := by simp [signals]
@[simp] theorem submits_nil : submits [] = [] := rfl
@[simp] theorem commits_nil : commits [] = [] := rfl
@[simp] theorem signals_nil : signals [] = [] := rfl
@[simp] theorem signals_singleton : signals [c] = [c.result.signal] := rfl
@[simp] theorem submits_submit : submits [.submit r] = [r] := rfl
@[simp] theorem commits_submit : commits [.submit r] = [] := rfl
@[simp] theorem submits_commit : submits [.commit c] = [] := rfl
@[simp] theorem commits_commit : commits [.commit c] = [c] := rfl
@[simp] theorem submits_auth : submits [.auth] = [] := rfl
@[simp] theorem commits_auth : commits [.auth] = [] := rfl
@[simp] theorem submits_reauth : submits [.reauth] = [] := rfl
@[simp] theorem commits_reauth : commits [.reauth] = [] := rfl
@[simp] theorem submits_reauth_cons : submits (.reauth :: tr) = submits tr := rfl
@[simp] theorem commits_reauth_cons : commits (.reauth :: tr) = commits tr := rfl

/-- One event's effect on the pass; dispatching and authenticating leave only
their trace here. -/
def Pass.after (env : Env) (p : Pass) : Event → Pass
  | .commit c => p.commit env c
  | e => { p with trace := p.trace ++ [e] }

def Pass.replay (env : Env) (p : Pass) (tr : List Event) : Pass := tr.foldl (Pass.after env) p

@[simp] theorem Pass.replay_nil (p : Pass) : p.replay env [] = p := rfl
@[simp] theorem Pass.replay_append (p : Pass) :
    p.replay env (a ++ b) = (p.replay env a).replay env b := by simp [Pass.replay]

theorem Pass.commit_streak (p : Pass) :
    ({ p with streak := n } : Pass).commit env c = { p.commit env c with streak := n } := rfl

theorem Pass.replay_snoc (p : Pass) :
    p.replay env (tr ++ [e]) = (p.replay env tr).after env e := by simp [Pass.replay]

@[simp] theorem Pass.replay_trace (p : Pass) : (p.replay env tr).trace = p.trace ++ tr := by
  induction tr generalizing p with
  | nil => simp
  | cons e tr ih =>
    rw [Pass.replay, List.foldl_cons, ← Pass.replay, ih]
    cases e <;> simp [Pass.after, Pass.commit]

-- ---------------------------------------------------------------------------
-- Records after the commits
-- ---------------------------------------------------------------------------

def Commit.key (c : Commit) : Nat := c.record.id

theorem after_find? (p : Pass) :
    (p.after env e).db.records.find? k =
      match e.committed? with
      | some c => if k = c.record.id
          then (p.db.records.find? k).map (c.result.row.apply (env.utcnow p.trace.length))
          else p.db.records.find? k
      | none => p.db.records.find? k := by
  cases e with
  | commit c => exact Db.find?_updateRecordResult
  | _ => rfl

theorem replay_untouched (p : Pass) (h : ∀ c ∈ commits tr, c.record.id ≠ k) :
    (p.replay env tr).db.records.find? k = p.db.records.find? k := by
  induction tr using List.reverseRecOn with
  | nil => rfl
  | append_singleton tr e ih =>
    simp only [commits_append, List.mem_append] at h
    rw [Pass.replay_snoc, after_find?, ← ih fun c hc => h c (.inl hc)]
    cases e with
    | commit c => simp [Event.committed?, (h c (.inr (by simp))).symm]
    | _ => rfl

theorem replay_row (p : Pass) (hn : ((commits tr).map Commit.key).Nodup) (hc : c ∈ commits tr) :
    ∃ now, (p.replay env tr).db.records.find? c.key =
      (p.db.records.find? c.key).map (c.result.row.apply now) := by
  induction tr using List.reverseRecOn with
  | nil => simp at hc
  | append_singleton tr e ih =>
    rw [Pass.replay_snoc, after_find?]
    cases e with
    | commit d =>
      simp only [commits_append, commits_commit, List.map_append, List.map_singleton,
        List.nodup_append', List.mem_append, List.mem_singleton] at hn hc
      obtain ⟨hn, -, hdisj⟩ := hn
      have hnew : d.key ∉ (commits tr).map Commit.key := fun h => hdisj h (by simp)
      rcases hc with hc | rfl
      · have hne : c.key ≠ d.record.id := fun h => hnew (List.mem_map.mpr ⟨c, hc, h⟩)
        simpa [Event.committed?, hne] using ih hn hc
      · refine ⟨env.utcnow (p.replay env tr).trace.length, ?_⟩
        have hbefore : (p.replay env tr).db.records.find? c.key = p.db.records.find? c.key :=
          replay_untouched p fun d hd h => hnew (List.mem_map.mpr ⟨d, hd, h⟩)
        rw [← hbefore]
        simp [Event.committed?, Commit.key]
    | submit r => exact ih (by simpa using hn) (by simpa using hc)
    | auth => exact ih (by simpa using hn) (by simpa using hc)
    | reauth => exact ih (by simpa using hn) (by simpa using hc)

-- ---------------------------------------------------------------------------
-- Network-like results in a row
-- ---------------------------------------------------------------------------

/-- Somewhere in the commits `t` network-like results come in a row: nothing but
local rejects between them, and `carried` of them from the wave before if the row
begins with the first commit. -/
def NetworkRow (t carried : Nat) (cs : List Commit) : Prop :=
  ∃ before row after, cs = before ++ row ++ after ∧
    (∀ c ∈ row, c.result.isNetworkError ∨ c.result.isLocalReject) ∧
    (∃ c ∈ row, c.result.isNetworkError) ∧
    t ≤ (if before = [] then carried else 0) + row.countP (·.result.isNetworkError)

theorem signal_eq_hit (r : UploadResult) : r.signal = .hit ↔ r.isNetworkError := by
  unfold UploadResult.signal
  split
  · simp_all
  · split <;> simp_all

theorem signal_eq_reset (r : UploadResult) :
    r.signal = .reset ↔ ¬(r.isNetworkError ∨ r.isLocalReject) := by
  unfold UploadResult.signal
  split
  · simp_all
  · split <;> simp_all

theorem count_hit (cs : List Commit) :
    (signals cs).count .hit = cs.countP (·.result.isNetworkError) := by
  rw [signals, List.count, List.countP_map]
  refine List.countP_congr fun c _ => ?_
  simp [← signal_eq_hit]

theorem reset_not_mem (cs : List Commit) :
    .reset ∉ signals cs ↔ ∀ c ∈ cs, c.result.isNetworkError ∨ c.result.isLocalReject := by
  rw [signals, List.mem_map]
  push Not
  exact forall₂_congr fun c _ => by rw [Ne, signal_eq_reset, not_not]

theorem count_hit_pos (cs : List Commit) :
    0 < (signals cs).count .hit ↔ ∃ c ∈ cs, c.result.isNetworkError := by
  rw [count_hit, List.countP_pos_iff]

theorem signals_eq_append {cs : List Commit} (h : signals cs = x ++ y) :
    ∃ a b, cs = a ++ b ∧ signals a = x ∧ signals b = y :=
  List.map_eq_append_iff.mp h

theorem reaches_iff_networkRow :
    Streak.reaches t n (signals cs) = true ↔ NetworkRow t n cs := by
  rw [Streak.reaches_iff_window]
  constructor
  · rintro (⟨b, c, h, hb, h0, ht⟩ | ⟨a, b, c, h, hb, h0, ht⟩)
    · obtain ⟨row, after, rfl, rfl, rfl⟩ := signals_eq_append h
      rw [count_hit] at ht
      exact ⟨[], row, after, rfl, (reset_not_mem _).mp hb, (count_hit_pos _).mp h0, by simpa⟩
    · obtain ⟨ab, after, rfl, hab, rfl⟩ := signals_eq_append h
      obtain ⟨before, row, rfl, rfl, rfl⟩ := signals_eq_append hab
      rw [count_hit] at ht
      exact ⟨before, row, after, rfl, (reset_not_mem _).mp hb,
        (count_hit_pos _).mp h0, by omega⟩
  · rintro ⟨before, row, after, rfl, hb, h0, ht⟩
    rw [← count_hit] at ht
    rw [← reset_not_mem] at hb
    rw [← count_hit_pos] at h0
    split at ht
    · rename_i h
      subst h
      exact .inl ⟨signals row, signals after, by simp, hb, h0, ht⟩
    · exact .inr ⟨signals before, signals row, signals after, by simp, hb, h0, by omega⟩

end UbkiUploader
