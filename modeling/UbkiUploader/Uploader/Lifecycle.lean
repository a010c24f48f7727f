import UbkiUploader.Lib.Machine
import UbkiUploader.Uploader.Run

/-!
# The life of a record

The uploader and the API write the same rows. `step` lets their operations
interleave in any way: a pass takes a snapshot of the sendable records and commits
results for it in any order, each record once, and once more when its session was
stale; between any two of its steps files are ingested, records are reset, and
the pass may end or be killed.
-/

namespace UbkiUploader

open Db (SendableRow ResetTarget)

/-- What a pass still has to do: the records of its snapshot not yet committed, and
those committed as stale. -/
structure Work where
  todo : List SendableRow
  stale : List SendableRow := []

structure System where
  db : Db := {}
  pass : Option Work := none

inductive Act
  | ingest (filename sha256 : Text) (sizeBytes : Nat) (lines : List Text) (uuid4 : Nat → Text)
      (now : Timestamp)
  | snapshot
  | commit (record : SendableRow) (result : UploadResult) (now : Timestamp)
  /-- The pass ends, or is killed. -/
  | stop
  | reset (target : ResetTarget)
  | other (e : Effect)

def Effect.keepsRecords : Effect → Bool
  | .insertFile .. => false
  | .commit .. => false
  | _ => true

/-- A result comes in for a record: of the first wave if it is still to do, else of
the resend wave. -/
def Work.settle (w : Work) (record : SendableRow) (result : UploadResult) : Option Work :=
  if record ∈ w.todo then
    some { todo := w.todo.erase record
           stale := if result.sessionExpired then w.stale ++ [record] else w.stale }
  else if record ∈ w.stale then some { w with stale := w.stale.erase record }
  else none

def step (cap : Nat) (σ : System) : Act → Option System
  | .ingest filename sha256 sizeBytes lines uuid4 now =>
    some { σ with db := σ.db.insertFile filename sha256 sizeBytes lines uuid4 now }
  | .snapshot =>
    if σ.pass.isNone then some { σ with pass := some { todo := σ.db.sendableRecords cap } }
    else none
  | .commit record result now => do
    let work ← σ.pass
    let work ← work.settle record result
    some { db := σ.db.updateRecordResult record.id result.row now, pass := some work }
  | .stop => some { σ with pass := none }
  | .reset target => some { σ with db := (σ.db.resetRecords target).1 }
  | .other e => if e.keepsRecords then some { σ with db := e.onDb σ.db } else none

def Act.onRow (r : RecordRow) : Act → RecordRow
  | .commit record result now => if r.id = record.id then result.row.apply now r else r
  | .reset target => if target.resets r then Db.resetRow r else r
  | _ => r

/-- The failures of a record that count against it: not network-like, and since
its last reset. -/
def Act.failures (r : RecordRow) (n : Nat) : Act → Nat
  | .commit record result _ =>
    if record.id = r.id ∧ result.status = .failed ∧ !result.isNetworkError then n + 1 else n
  | .reset target => if target.covers r then 0 else n
  | _ => n

def failures (hist : List Act) (r : RecordRow) : Nat := hist.foldl (Act.failures r) 0

variable {cap : Nat} {hist : List Act} {a : Act} {σ τ : System} {r r' : RecordRow}
  {record : SendableRow} {result : UploadResult} {now : Timestamp}

-- ---------------------------------------------------------------------------
-- Rows
-- ---------------------------------------------------------------------------

@[simp] theorem onRow_id (r : RecordRow) (a : Act) : (a.onRow r).id = r.id := by
  cases a <;> simp only [Act.onRow] <;> split <;> rfl

@[simp] theorem onRow_fileId (r : RecordRow) (a : Act) : (a.onRow r).fileId = r.fileId := by
  cases a <;> simp only [Act.onRow] <;> split <;> rfl

theorem keepsRecords_records {e : Effect} (h : e.keepsRecords) (db : Db) :
    (e.onDb db).records = db.records := by
  cases e with
  | insertFile => cases h
  | commit => cases h
  | _ => rfl

structure Fresh (r : RecordRow) : Prop where
  status : r.status = .pending
  attempts : r.attempts = 0
  lastError : r.lastError = none
  warnCodes : r.warnCodes = none
  sentAt : r.sentAt = none

/-- Everything one action can do to the records. -/
structure RowsAfter (a : Act) (old new : Table RecordRow.id) : Prop where
  kept : ∀ r ∈ old.rows, a.onRow r ∈ new.rows
  origin : ∀ r' ∈ new.rows, (∃ r ∈ old.rows, r' = a.onRow r) ∨
    (Fresh r' ∧ old.nextKey ≤ r'.id)
  nextKey : old.nextKey ≤ new.nextKey

theorem RowsAfter.same (ha : ∀ r, a.onRow r = r) (t : Table RecordRow.id) : RowsAfter a t t where
  kept := fun r hr => by rwa [ha]
  origin := fun r' hr => .inl ⟨r', hr, (ha r').symm⟩
  nextKey := Nat.le_refl _

theorem RowsAfter.update {matching : RecordRow → Bool} {f : RecordRow → RecordRow}
    (hf : ∀ r, (f r).id = r.id) (ha : ∀ r, a.onRow r = if matching r then f r else r)
    (t : Table RecordRow.id) : RowsAfter a t (t.update matching f hf) where
  kept := fun r hr => Table.mem_update.mpr ⟨r, hr, (ha r).symm⟩
  origin := fun r' hr => by
    obtain ⟨r, hold, rfl⟩ := Table.mem_update.mp hr
    exact .inl ⟨r, hold, (ha r).symm⟩
  nextKey := by rw [Table.nextKey_update]

theorem step_rows (h : step cap σ a = some τ) : RowsAfter a σ.db.records τ.db.records := by
  cases a with
  | ingest filename sha256 sizeBytes lines uuid4 now =>
    cases h
    refine ⟨fun r hr => Db.mem_insertRecordRows_of_mem hr, fun r' hr => ?_, ?_⟩
    · rcases Db.mem_insertRecordRows hr with hr | ⟨hid, lineNo, -, rawLine, -, heq⟩
      · exact .inl ⟨r', hr, rfl⟩
      · refine .inr ⟨?_, hid⟩
        rw [heq]
        exact ⟨rfl, rfl, rfl, rfl, rfl⟩
    · rw [Db.insertFile, Db.nextKey_insertRecordRows]
      exact Nat.le_add_right _ _
  | snapshot =>
    simp only [step] at h
    split at h
    · cases h
      exact .same (fun r => rfl) _
    · cases h
  | commit record result now =>
    obtain ⟨work, hwork, h⟩ := Option.bind_eq_some_iff.mp h
    obtain ⟨work', hsettle, h⟩ := Option.bind_eq_some_iff.mp h
    cases h
    exact .update (Db.apply_id result.row) (fun r => by simp [Act.onRow]) _
  | stop =>
    cases h
    exact .same (fun r => rfl) _
  | reset target =>
    cases h
    exact .update Db.resetRow_id (fun r => rfl) _
  | other e =>
    simp only [step] at h
    split at h
    · rename_i he
      cases h
      rw [keepsRecords_records he]
      exact .same (fun r => rfl) _
    · cases h

-- ---------------------------------------------------------------------------
-- The invariant
-- ---------------------------------------------------------------------------

/-- What holds of a record's row after the actions `hist`. -/
structure Sound (cap : Nat) (hist : List Act) (r : RecordRow) : Prop where
  sentAt : r.sentAt.isSome ↔ r.status = .sent
  pending : r.status = .pending → r.attempts = 0 ∧ r.lastError = none ∧ r.warnCodes = none
  capped : r.attempts ≤ cap
  counted : r.status = .pending ∨ r.status = .failed → r.attempts = failures hist r

/-- What holds of a record a pass may still commit. -/
def Live (cap : Nat) (r : RecordRow) : Prop :=
  (r.status = .pending ∨ r.status = .failed) ∧ r.attempts < cap

structure Underway (cap : Nat) (db : Db) (w : Work) : Prop where
  distinct : ((w.todo ++ w.stale).map (·.id)).Nodup
  live : ∀ x ∈ w.todo ++ w.stale, ∃ r ∈ db.records.rows, r.id = x.id ∧ Live cap r

structure Inv (cap : Nat) (hist : List Act) (σ : System) : Prop where
  sound : ∀ r ∈ σ.db.records.rows, Sound cap hist r
  underway : ∀ w, σ.pass = some w → Underway cap σ.db w
  known : ∀ record result now, .commit record result now ∈ hist →
    record.id < σ.db.records.nextKey

theorem failures_snoc : failures (hist ++ [a]) r = a.failures r (failures hist r) := by
  simp [failures]

theorem failures_congr (hid : r'.id = r.id) (hfile : r'.fileId = r.fileId) (hist : List Act) :
    failures hist r' = failures hist r := by
  have hcovers (target : ResetTarget) : target.covers r' = target.covers r := by
    cases target <;> simp [ResetTarget.covers, hid, hfile]
  have hone : Act.failures r' = Act.failures r := by
    funext n a
    cases a <;> simp [Act.failures, hid, hcovers]
  rw [failures, hone, failures]

theorem failures_of_unknown
    (h : ∀ record result now, .commit record result now ∈ hist → record.id ≠ r.id) :
    failures hist r = 0 := by
  induction hist using List.reverseRecOn with
  | nil => rfl
  | append_singleton hist a ih =>
    rw [failures_snoc, ih fun record result now hm => h record result now (by simp [hm])]
    cases a with
    | commit record result now => simp [Act.failures, h record result now (by simp)]
    | reset target => simp [Act.failures]
    | _ => rfl

theorem Sound.fresh (hf : Fresh r) (h0 : failures hist r = 0) : Sound cap hist r where
  sentAt := by simp [hf.sentAt, hf.status]
  pending := fun _ => ⟨hf.attempts, hf.lastError, hf.warnCodes⟩
  capped := by rw [hf.attempts]; exact Nat.zero_le _
  counted := fun _ => by rw [hf.attempts, h0]

theorem Sound.reset (hs : Sound cap hist r) :
    Sound cap (hist ++ [.reset target]) (Act.onRow r (.reset target)) := by
  have hcongr := failures_congr (onRow_id r (.reset target)) (onRow_fileId r (.reset target))
    (hist ++ [.reset target])
  simp only [Act.onRow] at hcongr ⊢
  split
  · rename_i hreset
    obtain ⟨hcovers, hst⟩ : target.covers r ∧
      (r.status = .failed ∨ r.status = .rejected) := by
      simpa [ResetTarget.resets] using hreset
    have hnotsent : r.sentAt.isSome = false := by
      rw [← Bool.not_eq_true, hs.sentAt]
      rcases hst with h | h <;> simp [h]
    rw [if_pos hreset] at hcongr
    refine ⟨by simpa [Db.resetRow] using hnotsent, fun _ => ⟨rfl, rfl, rfl⟩,
      Nat.zero_le _, ?_⟩
    intro _
    rw [hcongr, failures_snoc]
    simp [Act.failures, hcovers, Db.resetRow]
  · refine ⟨hs.sentAt, hs.pending, hs.capped, fun hst => ?_⟩
    rw [failures_snoc]
    simp only [Act.failures]
    split
    · rename_i hnot hcovers
      rcases hst with h | h
      · exact (hs.pending h).1
      · simp [ResetTarget.resets, hcovers, h] at hnot
    · exact hs.counted hst

/-- A result leaves a live row sound; a network-like failure leaves its attempts. -/
theorem Sound.commit (hs : Sound cap hist r) (hl : Live cap r) (hid : r.id = record.id) :
    Sound cap (hist ++ [.commit record result now]) (result.row.apply now r) := by
  have hfailures : failures (hist ++ [.commit record result now]) (result.row.apply now r) =
      failures hist r + if result.status = .failed ∧ !result.isNetworkError then 1 else 0 := by
    have hcongr : failures (hist ++ [.commit record result now]) (result.row.apply now r) =
        failures (hist ++ [.commit record result now]) r :=
      failures_congr (Db.apply_id result.row r) (Db.apply_fileId result.row) _
    rw [hcongr, failures_snoc]
    simp only [Act.failures, hid.symm, true_and]
    split <;> rfl
  have hattempts : (result.row.apply now r).attempts =
      r.attempts + if result.isNetworkError then 0 else 1 := by
    cases hnet : result.isNetworkError <;> simp [Db.RecordResult.apply, UploadResult.row, hnet]
  have hstatus : (result.row.apply now r).status = result.status.toStatus := rfl
  have hsent : (result.row.apply now r).sentAt.isSome ↔ result.status.toStatus = .sent := by
    simp only [Db.RecordResult.apply, UploadResult.row]
    by_cases h : result.status.toStatus = .sent <;> simp [h]
  refine ⟨by rw [hsent, hstatus], fun h => ?_, ?_, fun h => ?_⟩
  · rw [hstatus] at h
    cases hr : result.status <;> simp [hr, Outcome.toStatus] at h
  · have := hl.2
    rw [hattempts]
    split <;> omega
  · rw [hattempts, hfailures, hs.counted hl.1]
    rw [hstatus] at h
    cases hr : result.status with
    | failed => cases result.isNetworkError <;> simp
    | sent => simp [hr, Outcome.toStatus] at h
    | rejected => simp [hr, Outcome.toStatus] at h

theorem Sound.other (hs : Sound cap hist r) (ha : ∀ n, a.failures r n = n) :
    Sound cap (hist ++ [a]) r :=
  ⟨hs.sentAt, hs.pending, hs.capped, fun h => by rw [failures_snoc, ha, hs.counted h]⟩

-- ---------------------------------------------------------------------------
-- Every step keeps it
-- ---------------------------------------------------------------------------

theorem Live.onRow (hcap : 1 ≤ cap) (hl : Live cap r)
    (ha : ∀ record result now, a = .commit record result now → r.id ≠ record.id) :
    Live cap (a.onRow r) := by
  cases a with
  | commit record result now => simpa [Act.onRow, ha record result now rfl] using hl
  | reset target =>
    simp only [Act.onRow]
    split
    · exact ⟨.inl rfl, hcap⟩
    · exact hl
  | _ => exact hl

theorem Live.stale (hl : Live cap r) (h : result.sessionExpired = true) :
    Live cap (result.row.apply now r) := by
  have hnet := result.paired h
  have hfailed := result.networkFailed hnet
  simpa [Live, Db.RecordResult.apply, UploadResult.row, hnet, hfailed, Outcome.toStatus] using hl.2

theorem Underway.snapshot (db : Db) (hcap : 1 ≤ cap)
    (hs : ∀ r ∈ db.records.rows, Sound cap hist r) :
    Underway cap db { todo := db.sendableRecords cap } where
  distinct := by simpa using db.sendableRecords_nodup cap
  live := fun x hx => by
    obtain ⟨hrow, hsend, -⟩ := Db.mem_sendableRecords.mp (by simpa using hx)
    refine ⟨x.toRecordRow, hrow, rfl, ?_⟩
    simp only [Db.sendable, Bool.or_eq_true, Bool.and_eq_true, decide_eq_true_eq] at hsend
    rcases hsend with h | h
    · have := ((hs _ hrow).pending h).1
      exact ⟨.inl h, by omega⟩
    · exact ⟨.inr h.1, h.2⟩

theorem distinct_rest {rest all : List SendableRow} (hd : (all.map (·.id)).Nodup)
    (hp : (record :: rest).Perm all) :
    record ∈ all ∧ (rest.map (·.id)).Nodup ∧ ∀ x ∈ rest, x ∈ all ∧
    x.id ≠ record.id := by
  have hd' : ((record :: rest).map (·.id)).Nodup := (hp.map (·.id)).nodup_iff.mpr hd
  obtain ⟨hnot, hrest⟩ := List.nodup_cons.mp hd'
  refine ⟨hp.mem_iff.mp (by simp), hrest,
    fun x hx => ⟨hp.mem_iff.mp (by simp [hx]), fun h => ?_⟩⟩
  exact hnot (List.mem_map.mpr ⟨x, hx, h⟩)

/-- The records left after a commit are others, or the one just found stale. -/
theorem settle_left {w w' : Work} (hd : ((w.todo ++ w.stale).map (·.id)).Nodup)
    (h : w.settle record result = some w') :
    record ∈ w.todo ++ w.stale ∧ ((w'.todo ++ w'.stale).map (·.id)).Nodup ∧
    ∀ x ∈ w'.todo ++ w'.stale, x ∈ w.todo ++ w.stale ∧
      (x.id ≠ record.id ∨ x = record ∧ result.sessionExpired = true) := by
  simp only [Work.settle] at h
  split at h
  · rename_i hmem
    cases h
    have hp : (record :: (w.todo.erase record ++ w.stale)).Perm (w.todo ++ w.stale) :=
      (List.perm_cons_erase hmem).symm.append_right w.stale
    obtain ⟨hrec, hrest, hleft⟩ := distinct_rest hd hp
    refine ⟨hrec, ?_⟩
    simp only
    split
    · rename_i hexp
      -- it moves from the one list to the other
      have hp' : (w.todo.erase record ++ (w.stale ++ [record])).Perm (w.todo ++ w.stale) := by
        rw [← List.append_assoc]
        exact (List.perm_append_singleton _ _).trans hp
      refine ⟨(hp'.map (·.id)).nodup_iff.mpr hd, fun x hx => ⟨hp'.mem_iff.mp hx, ?_⟩⟩
      rw [← List.append_assoc, List.mem_append, List.mem_singleton] at hx
      rcases hx with hx | rfl
      · exact .inl (hleft x hx).2
      · exact .inr ⟨rfl, hexp⟩
    · exact ⟨hrest, fun x hx => ⟨(hleft x hx).1, .inl (hleft x hx).2⟩⟩
  · split at h
    · rename_i hmem
      cases h
      have hp : (record :: (w.todo ++ w.stale.erase record)).Perm (w.todo ++ w.stale) :=
        List.perm_middle.symm.trans ((List.perm_cons_erase hmem).symm.append_left w.todo)
      obtain ⟨hrec, hrest, hleft⟩ := distinct_rest hd hp
      exact ⟨hrec, hrest, fun x hx => ⟨(hleft x hx).1, .inl (hleft x hx).2⟩⟩
    · cases h

/-- Rows are told apart by their ids, so the row of a record to commit is live. -/
theorem Inv.live (hi : Inv cap hist σ) (hp : σ.pass = some w) (hx : x ∈ w.todo ++ w.stale)
    (hr : r ∈ σ.db.records.rows) (hid : r.id = x.id) : Live cap r := by
  obtain ⟨r', hr', hid', hlive⟩ := (hi.underway w hp).live x hx
  rwa [Table.eq_of_key hr hr' (hid.trans hid'.symm)]

theorem Inv.sound_step (hi : Inv cap hist σ) (h : step cap σ a = some τ)
    (hr : r ∈ σ.db.records.rows) : Sound cap (hist ++ [a]) (a.onRow r) := by
  have hs := hi.sound r hr
  cases a with
  | commit record result now =>
    obtain ⟨w, hw, h⟩ := Option.bind_eq_some_iff.mp h
    obtain ⟨w', hsettle, -⟩ := Option.bind_eq_some_iff.mp h
    by_cases hid : r.id = record.id
    · have hmem := (settle_left (hi.underway w hw).distinct hsettle).1
      simpa [Act.onRow, hid] using hs.commit (hi.live hw hmem hr hid) hid
    · simpa [Act.onRow, hid] using hs.other fun n => by simp [Act.failures, Ne.symm hid]
  | reset target => exact hs.reset
  | ingest => exact hs.other fun n => rfl
  | snapshot => exact hs.other fun n => rfl
  | stop => exact hs.other fun n => rfl
  | other e => exact hs.other fun n => rfl

theorem Inv.underway_step (hcap : 1 ≤ cap) (hi : Inv cap hist σ) (h : step cap σ a = some τ)
    (hw : τ.pass = some w) (hsound : ∀ r ∈ τ.db.records.rows, Sound cap (hist ++ [a]) r) :
    Underway cap τ.db w := by
  have hrows := step_rows h
  -- an action that commits nothing keeps the work and the live rows
  have hkeep (hσ : σ.pass = some w)
      (ha : ∀ record result now, a ≠ .commit record result now) : Underway cap τ.db w := by
    refine ⟨(hi.underway w hσ).distinct, fun x hx => ?_⟩
    obtain ⟨r, hr, hid, hlive⟩ := (hi.underway w hσ).live x hx
    exact ⟨_, hrows.kept r hr, by rw [onRow_id, hid],
      hlive.onRow hcap fun record result now hc => absurd hc (ha record result now)⟩
  cases a with
  | commit record result now =>
    obtain ⟨w₀, hw₀, h⟩ := Option.bind_eq_some_iff.mp h
    obtain ⟨w₁, hsettle, h⟩ := Option.bind_eq_some_iff.mp h
    cases h
    cases hw
    obtain ⟨hmem, hdist, hleft⟩ := settle_left (hi.underway w₀ hw₀).distinct hsettle
    refine ⟨hdist, fun x hx => ?_⟩
    obtain ⟨hx, hwhich⟩ := hleft x hx
    obtain ⟨r, hr, hid, hlive⟩ := (hi.underway w₀ hw₀).live x hx
    refine ⟨_, hrows.kept r hr, by rw [onRow_id, hid], ?_⟩
    rcases hwhich with hne | ⟨rfl, hexp⟩
    · refine hlive.onRow hcap fun record' result' now' hc => ?_
      cases hc
      rwa [hid]
    · simpa [Act.onRow, hid] using hlive.stale hexp
  | snapshot =>
    simp only [step] at h
    split at h
    · cases h
      cases hw
      exact .snapshot _ hcap hsound
    · cases h
  | stop =>
    cases h
    cases hw
  | ingest =>
    cases h
    exact hkeep hw fun _ _ _ h => by cases h
  | reset target =>
    cases h
    exact hkeep hw fun _ _ _ h => by cases h
  | other e =>
    simp only [step] at h
    split at h
    · cases h
      exact hkeep hw fun _ _ _ h => by cases h
    · cases h

theorem Inv.after_step (hcap : 1 ≤ cap) (hi : Inv cap hist σ) (h : step cap σ a = some τ) :
    Inv cap (hist ++ [a]) τ := by
  have hrows := step_rows h
  have hknown : ∀ record result now, .commit record result now ∈ hist ++ [a] →
      record.id < σ.db.records.nextKey := by
    intro record result now hmem
    rcases List.mem_append.mp hmem with hmem | hmem
    · exact hi.known record result now hmem
    · obtain rfl := List.mem_singleton.mp hmem
      obtain ⟨w, hw, h⟩ := Option.bind_eq_some_iff.mp h
      obtain ⟨w', hsettle, -⟩ := Option.bind_eq_some_iff.mp h
      have hmem := (settle_left (hi.underway w hw).distinct hsettle).1
      obtain ⟨r, hr, hid, -⟩ := (hi.underway w hw).live record hmem
      exact hid ▸ Table.key_lt_nextKey hr
  have hsound : ∀ r ∈ τ.db.records.rows, Sound cap (hist ++ [a]) r := by
    intro r' hr'
    rcases hrows.origin r' hr' with ⟨r, hr, rfl⟩ | ⟨hfresh, hnew⟩
    · exact hi.sound_step h hr
    · refine .fresh hfresh (failures_of_unknown fun record result now hmem => ?_)
      have := hknown record result now hmem
      omega
  exact ⟨hsound, fun w hw => hi.underway_step hcap h hw hsound,
    fun record result now hmem => Nat.lt_of_lt_of_le
      (hknown record result now hmem) hrows.nextKey⟩

theorem Inv.start : Inv cap [] {} where
  sound := by simp [Table.empty]
  underway := by simp
  known := by simp

theorem inv_of_run (hcap : 1 ≤ cap) (h : Machine.run (step cap) {} acts = some σ) :
    Inv cap acts σ :=
  Machine.run_invariant (Inv cap) .start (fun _ _ _ _ hi => hi.after_step hcap) h

-- ---------------------------------------------------------------------------
-- Any run
-- ---------------------------------------------------------------------------

theorem Inv.sent_stays (hi : Inv cap hist σ) (h : step cap σ a = some τ)
    (hr : r ∈ σ.db.records.rows) (hs : r.status = .sent) : r ∈ τ.db.records.rows := by
  have hkept := (step_rows h).kept r hr
  suffices a.onRow r = r by rwa [this] at hkept
  cases a with
  | commit record result now =>
    obtain ⟨w, hw, h⟩ := Option.bind_eq_some_iff.mp h
    obtain ⟨w', hsettle, -⟩ := Option.bind_eq_some_iff.mp h
    have hmem := (settle_left (hi.underway w hw).distinct hsettle).1
    refine if_neg fun hid => ?_
    have := (hi.live hw hmem hr hid).1
    simp [hs] at this
  | reset target => exact if_neg (by simp [ResetTarget.resets, hs])
  | _ => rfl

theorem sent_not_selected (db : Db) (hr : r ∈ db.records.rows) (hs : r.status = .sent)
    (hx : x ∈ db.sendableRecords cap) : x.id ≠ r.id := by
  intro hid
  obtain ⟨hrow, hsend, -⟩ := Db.mem_sendableRecords.mp hx
  rw [Table.eq_of_key hrow hr hid] at hsend
  simp [Db.sendable, hs] at hsend

/-- The life of a record, in every state that the interleaved operations of
passes and of the API can reach. -/
theorem record_lifecycle (cap : Nat) (hcap : 1 ≤ cap) (acts : List Act) (σ : System)
    (h : Machine.run (step cap) {} acts = some σ) (r : RecordRow) (hr : r ∈ σ.db.records.rows) :
    (r.sentAt.isSome ↔ r.status = .sent) ∧
    (r.status = .pending → r.attempts = 0 ∧ r.lastError = none ∧ r.warnCodes = none) ∧
    r.attempts ≤ cap ∧
    (r.status = .failed → r.attempts = failures acts r) ∧
    (r.status = .failed → failures acts r = 0 → Db.sendable cap r) ∧
    (r.status = .sent → ∀ later τ, Machine.run (step cap) σ later = some τ →
      r ∈ τ.db.records.rows ∧ ∀ x ∈ τ.db.sendableRecords cap, x.id ≠ r.id) := by
  have hi := inv_of_run hcap h
  have hsound := hi.sound r hr
  refine ⟨hsound.sentAt, hsound.pending, hsound.capped, fun hf => hsound.counted (.inr hf),
    fun hf h0 => ?_, fun hs later τ hrun => ?_⟩
  · have := hsound.counted (.inr hf)
    simp [Db.sendable, hf]
    omega
  · obtain ⟨-, hstays⟩ := Machine.run_invariant
      (fun later τ => Inv cap (acts ++ later) τ ∧ r ∈ τ.db.records.rows)
      (by simpa using ⟨hi, hr⟩)
      (fun _ _ _ _ ⟨hi, hr⟩ h =>
        ⟨by simpa using hi.after_step hcap h, hi.sent_stays h hr hs⟩) hrun
    exact ⟨hstays, fun x => sent_not_selected τ.db hstays hs⟩

/-- A timeout leaves a record of a fresh file sendable. -/
theorem record_lifecycle_timeout :
    ∃ σ r, Machine.run (step 5) {} [.ingest (Text.lit "a.txt") (Text.lit "sha") 3
        [Text.lit "\x7b\x7d"] Text.ofNat 0, .snapshot, .commit
          { Db.newRecord (Text.ofNat 1) 1 1 (Text.lit "\x7b\x7d") 0 1 with
            filename := Text.lit "a.txt" }
          { status := .failed, isNetworkError := true } 7] = some σ ∧
      r ∈ σ.db.records.rows ∧ r.status = .failed ∧ Db.sendable 5 r := by
  obtain ⟨-, -, -, -, h, -⟩ := record_lifecycle 5 (by decide) [.ingest (Text.lit "a.txt")
    (Text.lit "sha") 3 [Text.lit "\x7b\x7d"] Text.ofNat 0, .snapshot, .commit
      { Db.newRecord (Text.ofNat 1) 1 1 (Text.lit "\x7b\x7d") 0 1 with
        filename := Text.lit "a.txt" }
      { status := .failed, isNetworkError := true } 7] _ rfl _ List.mem_cons_self
  exact ⟨_, _, rfl, List.mem_cons_self, rfl, h rfl (by decide)⟩

end UbkiUploader
