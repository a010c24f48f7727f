import UbkiUploader.Uploader.WaveLaws

/-!
# The dispatch law

What a wave may and may not do, whatever the results and whatever order the
sends finish in.
-/

namespace UbkiUploader

open Db (SendableRow)

/-- The law of one finished wave: `out` is how it ended, `tr` what happened in it. -/
structure DispatchLaw (env : Env) (final : Bool) (sessid : Text) (wave : List SendableRow)
    (p : Pass) (tr : List Event) (out : Wave) : Prop where
  trace : out.pass.trace = p.trace ++ tr
  /-- Records are dispatched in the order of the wave, each at most once. -/
  inOrder : submits tr <+: wave
  /-- Every dispatched record is committed, once. -/
  once : ((commits tr).map (·.record)).Perm (submits tr)
  /-- What is committed for a record is the result of sending it. -/
  result : ∀ c ∈ commits tr, c = settlement env final sessid c.record
  /-- At no point are more than `ubki_concurrency` records out. -/
  bounded : ∀ q, q <+: tr → ((commits q).map (·.record)).Subperm (submits q) ∧
    (submits q).length ≤ (commits q).length + env.config.ubkiConcurrency
  aborts : out.aborted = true ↔
    NetworkRow env.config.networkAbortThreshold p.streak (commits tr)
  /-- Nothing is dispatched after the row that aborts. -/
  stops : ∀ q r, q ++ [.submit r] <+: tr →
    ¬NetworkRow env.config.networkAbortThreshold p.streak (commits q)
  /-- A record that was not dispatched keeps its row. -/
  untouched : ∀ k, (∀ r ∈ submits tr, r.id ≠ k) →
    out.pass.db.records.find? k = p.db.records.find? k
  complete : out.aborted = false → submits tr = wave

variable {env : Env} {final : Bool} {sessid : Text} {wave : List SendableRow} {p : Pass}
  {order : List (List Nat)} {tr : List Event} {out : Wave}

namespace Ran

theorem result (hr : Ran env final sessid wave p order tr out) (h : c ∈ commits tr) :
    c = settlement env final sessid c.record := by
  rw [hr.results] at h
  obtain ⟨record, -, rfl⟩ := List.mem_map.mp h
  rfl

theorem result_eq (hr : Ran env final sessid wave p order tr out) (h : c ∈ commits tr) :
    c.result = sendOne env final sessid c.record := by
  rw [hr.results] at h
  obtain ⟨record, -, rfl⟩ := List.mem_map.mp h
  simp only [settlement_result, settlement_record]

theorem submits_sublist (hr : Ran env final sessid wave p order tr out) :
    (submits tr).Sublist wave := by
  rw [hr.dispatched]
  exact List.take_sublist _ _

theorem committed_iff (hr : Ran env final sessid wave p order tr out) :
    (∃ c ∈ commits tr, c.record = r) ↔ r ∈ submits tr := by
  rw [← hr.settled.mem_iff, List.mem_map]

theorem db (hr : Ran env final sessid wave p order tr out) :
    out.pass.db = (p.replay env tr).db := by rw [hr.pass]

theorem trace (hr : Ran env final sessid wave p order tr out) :
    out.pass.trace = p.trace ++ tr := by
  rw [hr.pass]
  exact Pass.replay_trace p

theorem length_commits (hr : Ran env final sessid wave p order tr out) :
    (commits tr).length = (submits tr).length := by
  simpa using hr.settled.length_eq

/-- Until it aborts a wave refills its window at every commit. -/
theorem complete (hr : Ran env final sessid wave p order tr out)
    (hc : 1 ≤ env.config.ubkiConcurrency) (ha : out.aborted = false) :
    submits tr = wave := by
  have hquiet := Streak.quiet_of_not_reaches (hr.aborted ▸ ha)
  have hlen := hr.length_commits
  have hs := hr.dispatched
  rw [hquiet, signals, List.length_map, hlen] at hs
  rw [hs, List.take_eq_self_iff]
  have := congrArg List.length hs
  rw [List.length_take] at this
  omega

/-- With every send network-like, the refills stop when the streak is full. -/
theorem length_submits_le (hr : Ran env final sessid wave p order tr out)
    (h : ∀ r ∈ wave, (sendOne env final sessid r).isNetworkError) :
    (submits tr).length ≤
      env.config.ubkiConcurrency + (env.config.networkAbortThreshold - p.streak - 1) := by
  have hhits : ∀ s ∈ signals (commits tr), s = .hit := by
    intro s hs
    obtain ⟨c, hc, rfl⟩ := List.mem_map.mp hs
    rw [signal_eq_hit, hr.result_eq hc]
    refine h c.record ?_
    exact hr.submits_sublist.subset (hr.committed_iff.mp ⟨c, hc, rfl⟩)
  have := Streak.quiet_hits_le (t := env.config.networkAbortThreshold) (n := p.streak) hhits
  rw [hr.dispatched, List.length_take]
  omega

theorem law (hr : Ran env final sessid wave p order tr out)
    (hc : 1 ≤ env.config.ubkiConcurrency) : DispatchLaw env final sessid wave p tr out where
  trace := hr.trace
  inOrder := by rw [hr.dispatched]; exact List.take_prefix _ _
  once := hr.settled
  result := fun _ => hr.result
  bounded := fun q hq => ⟨(hr.lawful q hq).committed, (hr.lawful q hq).window⟩
  aborts := by rw [hr.aborted, reaches_iff_networkRow]
  stops := fun q r hq => by
    rw [← reaches_iff_networkRow, (hr.lawful _ hq).before q r rfl]
    simp
  untouched := fun k hk => by
    rw [hr.db]
    refine replay_untouched p fun c h => ?_
    exact hk c.record (hr.committed_iff.mp ⟨c, h, rfl⟩)
  complete := hr.complete hc

end Ran

/-- A wave obeys the dispatch law in whatever order its sends finish, and never
gets stuck on the way. -/
theorem runWave_dispatch (env : Env) (final : Bool) (sessid : Text) (wave : List SendableRow)
    (p : Pass) (hc : 1 ≤ env.config.ubkiConcurrency)
    (ht : 1 ≤ env.config.networkAbortThreshold) :
    (∀ order w, order.foldlM (Wave.turn env final sessid) (Wave.opened env wave p) = some w →
      ∃ rest out, runWave env final sessid wave (order ++ rest) p = some out) ∧
    ∀ order out, runWave env final sessid wave order p = some out →
      ∃ tr, DispatchLaw env final sessid wave p tr out ∧
        ((∀ r ∈ wave, (sendOne env final sessid r).isNetworkError) →
          (submits tr).length ≤
            env.config.networkAbortThreshold + env.config.ubkiConcurrency - 1) := by
  refine ⟨fun order w => runWave_drains, fun order out h => ?_⟩
  obtain ⟨tr, hr⟩ := runWave_ran h
  refine ⟨tr, hr.law hc, fun hall => ?_⟩
  have := hr.length_submits_le hall
  omega

/-- A record as `sendable_records` returns it. -/
def sampleRow (id : Nat) : SendableRow where
  id := id
  uuid := Text.ofNat id
  fileId := 1
  lineNo := id
  rawLine := Text.lit "\x7b\x7d"
  status := .pending
  createdAt := 0
  filename := Text.lit "a.txt"

def timedOut : UploadResult where
  status := .failed
  error := some (Text.lit "network: timed out")
  isNetworkError := true

/-- The bureau cannot be reached: two workers, a threshold of two. -/
def outage : Env where
  config := { networkAbortThreshold := 2, ubkiConcurrency := 2 }
  kyivToday := Text.lit "2026-08-14"
  utcnow := id
  ensureAnswer := .ok (Text.lit "s")
  reauthAnswer := .ok (Text.lit "s")
  reply _ _ _ := timedOut

theorem runWave_dispatch_outage :
    ∃ out tr, runWave outage false (Text.lit "s") [sampleRow 1, sampleRow 2, sampleRow 3,
        sampleRow 4] [[1], [0], [2]] { db := {}, summary := {} } = some out ∧
      DispatchLaw outage false (Text.lit "s") [sampleRow 1, sampleRow 2, sampleRow 3,
        sampleRow 4] { db := {}, summary := {} } tr out ∧ (submits tr).length ≤ 3 := by
  obtain ⟨-, h⟩ := runWave_dispatch outage false (Text.lit "s") [sampleRow 1, sampleRow 2,
    sampleRow 3, sampleRow 4] { db := {}, summary := {} } (by decide) (by decide)
  obtain ⟨tr, hlaw, hle⟩ := h [[1], [0], [2]] _ rfl
  exact ⟨_, tr, rfl, hlaw, hle (by decide)⟩

end UbkiUploader
