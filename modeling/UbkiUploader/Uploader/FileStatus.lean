import UbkiUploader.Api
import UbkiUploader.Lib.Machine
import UbkiUploader.Uploader.PassRuns

/-!
# File statuses

A file's status is to be the aggregate of its records. A pass recomputes the
active files and those it touched, so an archived file depends on every change of
its records being followed by a recompute of its own. `Owing` is the invariant:
it holds of the archived files outside a list, the files that are owed one.
-/

namespace UbkiUploader

open Db (SendableRow ResetTarget)

def Right (db : Db) (f : FileRow) : Prop := f.status = db.fileStatus f.id

/-- The archived files but those of `owed` have the right status. -/
def Owing (owed : List Nat) (db : Db) : Prop :=
  ∀ f ∈ db.files.rows, f.archivedAt.isSome → f.id ∉ owed → Right db f

def Effect.owes (owed : List Nat) : Effect → List Nat
  | .commit c _ => c.record.fileId :: owed
  | .recompute fileId _ => owed.filter (· ≠ fileId)
  | _ => owed

def owing (fx : List Effect) : List Nat := fx.foldl Effect.owes []

/-- What the commits among the effects say of a record's file is what the table
says. -/
def Faithful (fx : List Effect) (db : Db) : Prop :=
  ∀ c now, .commit c now ∈ fx → ∀ r ∈ db.records.rows, r.id = c.record.id →
    r.fileId = c.record.fileId

variable {db db' : Db} {owed : List Nat} {e : Effect} {fx : List Effect} {f : FileRow}

-- ---------------------------------------------------------------------------
-- Statuses of records
-- ---------------------------------------------------------------------------

theorem statuses_update {matching : RecordRow → Bool} {f : RecordRow → RecordRow}
    (hf : ∀ r, (f r).id = r.id) (ht : db'.records = db.records.update matching f hf)
    (hfile : ∀ r, (f r).fileId = r.fileId)
    (h : ∀ r ∈ db.records.rows, matching r → r.fileId ≠ k) :
    db'.statuses k = db.statuses k := by
  have hkeep (r : RecordRow) : (if matching r then f r else r).fileId = r.fileId := by
    split
    · exact hfile r
    · rfl
  simp only [Db.statuses, ht, Table.update, List.filter_map, List.map_map]
  rw [List.filter_congr fun r _ => by rw [Function.comp_apply, hkeep]]
  refine List.map_congr_left fun r hr => ?_
  obtain ⟨hr, hk⟩ := List.mem_filter.mp hr
  have : matching r = false := by
    rw [← Bool.not_eq_true]
    exact fun hm => h r hr hm (by simpa using hk)
  simp [this]

theorem statuses_insert {t : Table RecordRow.id} (hne : k ≠ fileId) :
    ((Db.insertRecordRows fileId uuid4 now n lines t).rows.filter (·.fileId = k)) =
      t.rows.filter (·.fileId = k) := by
  induction lines generalizing n t with
  | nil => rfl
  | cons line lines ih =>
    rw [Db.insertRecordRows, ih]
    simp [Table.insert, Db.newRecord, Ne.symm hne]

-- ---------------------------------------------------------------------------
-- One effect
-- ---------------------------------------------------------------------------

/-- The files of a database, up to what a recompute changes, and with it the
statuses of their records. -/
theorem right_of_same (h : Right db f)
    (hs : db'.statuses f.id = db.statuses f.id) : Right db' f := by
  unfold Right Db.fileStatus at h ⊢
  rw [hs]
  exact h

theorem Owing.insertFile (h : Owing owed db) :
    Owing owed (db.insertFile filename sha256 size lines uuid4 now) := by
  intro f hf harch hnot
  rcases Db.mem_files_insertFile.mp hf with hf | rfl
  · refine right_of_same (h f hf harch hnot) ?_
    have hlt := Table.key_lt_nextKey hf
    simp only [Db.statuses, Db.insertFile]
    rw [statuses_insert (by omega)]
  · simp [Db.newFile] at harch

theorem Owing.commit (h : Owing owed db) (hf : Faithful [.commit c now] db) :
    Owing (c.record.fileId :: owed) (db.updateRecordResult c.record.id c.result.row now) := by
  intro f hmem harch hnot
  simp only [List.mem_cons, not_or] at hnot
  refine right_of_same (h f hmem harch hnot.2) ?_
  refine statuses_update (Db.apply_id c.result.row) rfl (fun r => rfl) fun r hr hid heq => ?_
  have := hf c now (by simp) r hr (by simpa using hid)
  exact hnot.1 (heq ▸ this)

theorem mem_recompute (h : f ∈ (db.recomputeFileStatus fileId now).files.rows) :
    ∃ g ∈ db.files.rows, g.id = f.id ∧ g.archivedAt = f.archivedAt ∧
      (f.id = fileId → Right db f) ∧ (f.id ≠ fileId → f = g) := by
  obtain ⟨g, hg, rfl⟩ := Db.mem_files_recompute.mp h
  by_cases hid : g.id = fileId
  · refine ⟨g, hg, ?_⟩
    simp [hid, Right, Db.setStatus]
  · refine ⟨g, hg, ?_⟩
    simp [hid]

theorem Owing.recompute (h : Owing owed db) :
    Owing (owed.filter (· ≠ fileId)) (db.recomputeFileStatus fileId now) := by
  intro f hf harch hnot
  obtain ⟨g, hg, hid, hga, hright, hsame⟩ := mem_recompute hf
  by_cases hf : f.id = fileId
  · exact right_of_same (hright hf) rfl
  · obtain rfl := hsame hf
    exact right_of_same (h f hg harch (by simpa [hf] using hnot)) rfl

/-- An effect that archives nothing keeps the invariant, and counts what it owes. -/
theorem Owing.effect (h : Owing owed db) (he : ¬e.archives) (hf : Faithful [e] db) :
    Owing (e.owes owed) (e.onDb db) := by
  cases e with
  | insertFile => exact h.insertFile
  | saveSession => exact h
  | commit c now => exact h.commit hf
  | recompute => exact h.recompute
  | toArchive => exact absurd trivial he
  | markArchived => exact absurd trivial he
  | insertRun => exact h

-- ---------------------------------------------------------------------------
-- Many effects
-- ---------------------------------------------------------------------------

theorem Owing.ingested (hfx : ∀ e ∈ fx, e.ingests) (h : Owing owed db) :
    Owing owed (replayDb fx db) := by
  induction fx generalizing db with
  | nil => exact h
  | cons e fx ih =>
    have he := hfx e (by simp)
    refine ih (fun e he => hfx e (List.mem_cons_of_mem _ he)) ?_
    cases e with
    | insertFile => exact h.insertFile
    | _ => cases he

theorem Faithful.effect (h : Faithful fx db) (he : ¬e.ingests) : Faithful fx (e.onDb db) := by
  intro c now hc r hr hid
  cases e with
  | insertFile => exact absurd trivial he
  | commit d t =>
    obtain ⟨r₀, hr₀, rfl⟩ := Db.mem_updateRecordResult.mp hr
    have := h c now hc r₀ hr₀
    split at hid <;> split <;> simp_all
  | _ => exact h c now hc r hr hid

theorem Owing.effects (hfx : ∀ e ∈ fx, ¬e.archives ∧ ¬e.ingests)
    (hf : Faithful fx db) (h : Owing owed db) :
    Owing (fx.foldl Effect.owes owed) (replayDb fx db) := by
  induction fx generalizing owed db with
  | nil => exact h
  | cons e fx ih =>
    obtain ⟨harch, hing⟩ := hfx e (by simp)
    have he : Faithful [e] db :=
      fun c now hc => hf c now (List.mem_cons.mpr (.inl (by simpa using hc)))
    have hrest : Faithful fx db := fun c now hc => hf c now (List.mem_cons_of_mem _ hc)
    exact ih (fun e he => hfx e (List.mem_cons_of_mem _ he)) (hrest.effect hing)
      (h.effect harch he)

theorem foldl_owes_ingested (hfx : ∀ e ∈ fx, e.ingests) :
    fx.foldl Effect.owes owed = owed := by
  induction fx with
  | nil => rfl
  | cons e fx ih =>
    have he := hfx e (by simp)
    rw [List.foldl_cons]
    cases e with
    | insertFile => exact ih fun e he => hfx e (List.mem_cons_of_mem _ he)
    | _ => cases he

theorem mem_foldl_owes (h : k ∈ fx.foldl Effect.owes owed) :
    k ∈ owed ∨ ∃ c now, .commit c now ∈ fx ∧ c.record.fileId = k := by
  induction fx generalizing owed with
  | nil => exact .inl h
  | cons e fx ih =>
    rcases ih h with h | ⟨c, now, hc, hk⟩
    · cases e with
      | commit c now =>
        rcases List.mem_cons.mp h with rfl | h
        · exact .inr ⟨c, now, by simp, rfl⟩
        · exact .inl h
      | recompute => exact .inl (List.mem_of_mem_filter h)
      | _ => exact .inl h
    · exact .inr ⟨c, now, List.mem_cons_of_mem _ hc, hk⟩

-- ---------------------------------------------------------------------------
-- Sending
-- ---------------------------------------------------------------------------

theorem mem_commits_of_effect (h : .commit c now ∈ effectsFrom env i tr) : c ∈ commits tr := by
  rw [← committed_effects]
  exact List.mem_filterMap.mpr ⟨_, h, rfl⟩

theorem replay_touched (p : Pass) (h : c ∈ commits tr) :
    c.record.fileId ∈ (p.replay env tr).touched := by
  induction tr using List.reverseRecOn with
  | nil => simp at h
  | append_singleton tr e ih =>
    rw [Pass.replay_snoc]
    rw [commits_append, List.mem_append] at h
    cases e with
    | commit d =>
      simp only [Pass.after, Pass.commit, List.mem_insert_iff]
      rcases h with h | h
      · exact .inr (ih h)
      · simp_all
    | _ =>
      refine ih (h.resolve_right ?_)
      simp [commits, Event.committed?]

theorem replay_touched_mono (p : Pass) (h : k ∈ p.touched) : k ∈ (p.replay env tr).touched := by
  induction tr using List.reverseRecOn with
  | nil => exact h
  | append_singleton tr e ih =>
    rw [Pass.replay_snoc]
    cases e with
    | commit d => exact List.mem_insert_of_mem ih
    | _ => exact ih

/-- The commits of a pass are of records of `wave`, and their files are touched. -/
def Covered (wave : List SendableRow) (p : Pass) : Prop :=
  ∀ c ∈ commits p.trace, c.record ∈ wave ∧ c.record.fileId ∈ p.touched

theorem Ran.covered {wave : List SendableRow} {w : Wave}
    (hr : Ran env final sessid part p order tr w) (hsub : part ⊆ wave) (h : Covered wave p) :
    Covered wave w.pass := by
  have htouched : w.pass.touched = (p.replay env tr).touched := by rw [hr.pass]
  intro c hc
  rw [hr.trace, commits_append, List.mem_append] at hc
  rw [htouched]
  rcases hc with hc | hc
  · exact ⟨(h c hc).1, replay_touched_mono p (h c hc).2⟩
  · exact ⟨hsub (hr.records_subset (List.mem_map_of_mem hc)), replay_touched p hc⟩

theorem Covered.same {wave : List SendableRow} {p q : Pass} (h : Covered wave p)
    (hc : commits q.trace = commits p.trace) (ht : q.touched = p.touched) : Covered wave q := by
  unfold Covered
  rw [hc, ht]
  exact h

theorem Covered.close {wave : List SendableRow} (h : Covered wave p) :
    Covered wave (closePass env p b) :=
  h.same (by rw [closePass_trace]) (by unfold closePass; split <;> rfl)

theorem sendRecords_covered (h : sendRecords env first resend db summary = some out) :
    Covered (db.sendableRecords env.config.retryCap) out := by
  have hbegin {a : Except Text Text} {p : Pass}
      (hauth : ({ db, summary } : Pass).ensureSession env = (a, p)) :
      Covered (db.sendableRecords env.config.retryCap) p := by
    have hsame := Pass.ensureSession_same hauth
    exact Covered.same (p := { db, summary }) (fun c hc => by simp at hc) hsame.2 hsame.1.touched
  cases sendRecords_course h with
  | nothing => exact fun c hc => by simp at hc
  | blocked hauth => exact (hbegin hauth).same rfl rfl
  | oneWave hauth hw =>
    obtain ⟨tr, hr⟩ := runWave_ran hw
    exact (hr.covered (List.Subset.refl _) (hbegin hauth)).close
  | stranded hauth hw _ _ hre =>
    obtain ⟨tr, hr⟩ := runWave_ran hw
    obtain ⟨hsame, htrace, -⟩ := Pass.reauth_same hre
    refine (hr.covered (List.Subset.refl _) (hbegin hauth)).same ?_ hsame.touched
    rw [strand, htrace, commits_append, commits_reauth, List.append_nil]
  | resent hauth hw _ _ hre hagain =>
    obtain ⟨tr, hr⟩ := runWave_ran hw
    obtain ⟨tr', hr'⟩ := runWave_ran hagain
    obtain ⟨hsame, htrace, -⟩ := Pass.reauth_same hre
    refine (hr'.covered ?_ ((hr.covered (List.Subset.refl _) (hbegin hauth)).same ?_
      hsame.touched)).close
    · rw [hr.expired]
      exact fun x hx => hr.records_subset ((List.filter_sublist.map _).subset hx)
    · rw [htrace, commits_append, commits_reauth, List.append_nil]

-- ---------------------------------------------------------------------------
-- A finished pass
-- ---------------------------------------------------------------------------

def AllRight (db : Db) : Prop := ∀ f ∈ db.files.rows, Right db f

/-- Recomputing changes the status of the files it is asked to, and nothing else. -/
theorem replay_recomputes (hfx : ∀ e ∈ fx, ∃ id now, e = .recompute id now) (db : Db) :
    (replayDb fx db).records = db.records ∧
    ∀ f ∈ (replayDb fx db).files.rows, ∃ g ∈ db.files.rows,
      g.id = f.id ∧ g.archivedAt = f.archivedAt ∧
      ((∃ now, Effect.recompute f.id now ∈ fx) → Right db f) ∧
      ((∀ now, Effect.recompute f.id now ∉ fx) → f = g) := by
  induction fx generalizing db with
  | nil => exact ⟨rfl, fun f hf => ⟨f, hf, rfl, rfl, by simp, fun _ => rfl⟩⟩
  | cons e fx ih =>
    obtain ⟨id, t, rfl⟩ := hfx e (by simp)
    obtain ⟨hrec, hfiles⟩ := ih (fun e he => hfx e (List.mem_cons_of_mem _ he))
      (db.recomputeFileStatus id t)
    refine ⟨hrec, fun f hf => ?_⟩
    obtain ⟨g, hg, hid, harch, hright, hsame⟩ := hfiles f hf
    obtain ⟨g₀, hg₀, hid₀, harch₀, hright₀, hsame₀⟩ := mem_recompute hg
    refine ⟨g₀, hg₀, hid₀.trans hid, harch₀.trans harch, ?_, ?_⟩
    · rintro ⟨now, hnow⟩
      by_cases hlater : ∃ now, Effect.recompute f.id now ∈ fx
      · exact right_of_same (hright hlater) rfl
      · obtain rfl := hsame (by simpa using hlater)
        have hfid : f.id = id := by
          rcases List.mem_cons.mp hnow with h | h
          · exact (Effect.recompute.inj h).1
          · exact absurd ⟨now, h⟩ hlater
        exact hright₀ hfid
    · intro hno
      have hlater : ∀ now, Effect.recompute f.id now ∉ fx := fun now h =>
        hno now (List.mem_cons_of_mem _ h)
      obtain rfl := hsame hlater
      refine hsame₀ fun hfid => hno t ?_
      rw [hfid]
      exact List.mem_cons_self

/-- What one knows when sending is over: archived files that were not touched are
right, and the files owed a recompute were touched. -/
structure Sent (r : Run) (p : Pass) (fx : List Effect) : Prop where
  calm : ∀ e ∈ fx, ¬e.archives ∧ ¬e.ingests
  faithful : Faithful fx r.host.db
  owes : ∀ k ∈ owing fx, k ∈ p.touched

theorem effectsFrom_calm (he : e ∈ effectsFrom env i tr) : ¬e.archives ∧ ¬e.ingests := by
  refine ⟨?_, effectsFrom_ingests he⟩
  obtain ⟨today, sessid, rfl⟩ | ⟨c, now, rfl⟩ := effectsFrom_cases he
  · exact id
  · exact id

theorem sendRecords_sent (h : sendRecords env first resend r.host.db r.summary = some p) :
    Sent r p (effectsFrom env 0 p.trace) where
  calm := fun e => effectsFrom_calm
  faithful := fun c now hc row hrow hid => by
    have hmem := ((sendRecords_covered h) c (mem_commits_of_effect hc)).1
    rw [Table.eq_of_key hrow (Db.mem_sendableRecords.mp hmem).1 hid]
  owes := fun k hk => by
    rcases mem_foldl_owes hk with hk | ⟨c, now, hc, rfl⟩
    · cases hk
    · exact ((sendRecords_covered h) c (mem_commits_of_effect hc)).2

theorem allRight_of_finished (hfin : Finished s sched host r p ins recs arcs out)
    (h : Owing [] host.db) :
    AllRight (replayDb (ins ++ (effectsFrom s.toEnv 0 p.trace ++ recs)) host.db) := by
  have hr : r.host.db = replayDb ins host.db := by rw [hfin.ingested.1, foldl_apply_db]
  have hsent := sendRecords_sent hfin.send
  have hp : p.db = replayDb (effectsFrom s.toEnv 0 p.trace) r.host.db :=
    sendRecords_durable hfin.send
  have howing := (hr ▸ h.ingested hfin.ingested.2 : Owing [] r.host.db).effects hsent.calm
    hsent.faithful
  rw [replayDb_append, replayDb_append, ← hr, ← hp]
  rw [← hp] at howing
  obtain ⟨hrecords, hfiles⟩ := replay_recomputes hfin.recomputed.1 p.db
  intro f hf
  obtain ⟨g, hg, hid, harch, hright, hsame⟩ := hfiles f hf
  have hstatuses : (replayDb recs p.db).statuses f.id = p.db.statuses f.id := by
    simp only [Db.statuses, hrecords]
  refine right_of_same ?_ hstatuses
  by_cases hrec : ∃ now, Effect.recompute f.id now ∈ recs
  · exact hright hrec
  · -- not recomputed, so archived before this pass and not touched by it
    have hnot : f.id ∉ recomputeIds p.db p.touched := fun h => hrec (hfin.recomputed.2 f.id h)
    obtain rfl := hsame (by simpa using hrec)
    simp only [recomputeIds, List.mem_dedup, List.mem_append, not_or] at hnot
    refine howing f hg ?_ fun h => hnot.2 (hsent.owes f.id h)
    by_contra hact
    refine hnot.1 (List.mem_map.mpr ⟨f, List.mem_filter.mpr ⟨hg, ?_⟩, rfl⟩)
    simpa using hact

theorem AllRight.effect (h : AllRight db) (he : e.archives ∨ ∀ d, (e.onDb d).files = d.files ∧
    (e.onDb d).records = d.records) : AllRight (e.onDb db) := by
  intro f hf
  cases e with
  | markArchived fileId now =>
    obtain ⟨g, hg, rfl⟩ := Db.mem_files_markArchived.mp hf
    have := h g hg
    split
    · exact this
    · exact this
  | toArchive => exact h f hf
  | _ =>
    obtain ⟨hfiles, hrecords⟩ := (he.resolve_left id) db
    rw [hfiles] at hf
    exact right_of_same (h f hf) (by simp only [Db.statuses, hrecords])

theorem AllRight.owing (h : AllRight db) : Owing owed db := fun f hf _ _ => h f hf

theorem archived_before (hfx : ∀ e ∈ fx, ¬e.archives) (hf : f ∈ (replayDb fx db).files.rows)
    (harch : f.archivedAt.isSome) :
    ∃ g ∈ db.files.rows, g.id = f.id ∧ g.archivedAt.isSome := by
  induction fx generalizing db with
  | nil => exact ⟨f, hf, rfl, harch⟩
  | cons e fx ih =>
    obtain ⟨g, hg, hid, hga⟩ := ih (fun e he => hfx e (List.mem_cons_of_mem _ he)) hf
    have he := hfx e (by simp)
    cases e with
    | insertFile =>
      rcases Db.mem_files_insertFile.mp hg with hg | rfl
      · exact ⟨g, hg, hid, hga⟩
      · simp [Db.newFile] at hga
    | recompute =>
      obtain ⟨g₀, hg₀, hid₀, harch₀, -⟩ := mem_recompute hg
      exact ⟨g₀, hg₀, hid₀.trans hid, harch₀ ▸ hga⟩
    | markArchived => exact absurd trivial he
    | _ => exact ⟨g, hg, hid, hga⟩

/-- A pass killed before it archives anything leaves right what it does not owe. -/
theorem owing_of_calm {ins calm : List Effect} (h : Owing [] db) (hins : ∀ e ∈ ins, e.ingests)
    (hcalm : ∀ e ∈ calm, ¬e.archives ∧ ¬e.ingests) (hf : Faithful calm (replayDb ins db))
    (hcond : ∀ f ∈ db.files.rows, f.archivedAt.isSome → f.id ∉ owing (ins ++ calm)) :
    Owing [] (replayDb (ins ++ calm) db) := by
  have howing := (h.ingested hins).effects hcalm hf
  intro f hmem harch _
  have hno : ∀ e ∈ ins ++ calm, ¬e.archives := by
    intro e he
    rcases List.mem_append.mp he with he | he
    · have := hins e he
      cases e with
      | insertFile => exact id
      | _ => cases this
    · exact (hcalm e he).1
  obtain ⟨g, hg, hid, hga⟩ := archived_before hno hmem harch
  have hnot := hcond g hg hga
  rw [owing, List.foldl_append, foldl_owes_ingested hins, hid] at hnot
  rw [replayDb_append] at hmem ⊢
  exact howing f hmem harch hnot

-- ---------------------------------------------------------------------------
-- Histories
-- ---------------------------------------------------------------------------

inductive Deed
  /-- Files come to the inbox, or are taken from it. -/
  | deliver (inbox : Folder Text)
  | pass (s : Site) (sched : Schedule) (dryRun : Bool)
  /-- A pass of which only the first `effects` took place. When an exception cut it,
  the handler recorded the summary of the moment and the error. -/
  | cutPass (s : Site) (sched : Schedule) (effects : Nat)
      (handled : Option (RunSummary × Text × Timestamp))
  | retry (target : ResetTarget) (now : Timestamp)
  | cutRetry (target : ResetTarget)

def handlerRow (s : Site) (handled : RunSummary × Text × Timestamp) : Effect :=
  .insertRun (s.utcnow 0) .error handled.1.filesSeen handled.1.recordsSent
    handled.1.recordsFailed handled.1.recordsRejected (some handled.2.1) handled.2.2

def deed (host : Host) : Deed → Option Host
  | .deliver inbox => some { host with inbox }
  | .pass s sched dryRun => (runLocked s sched dryRun host).map (·.2.host)
  | .cutPass s sched effects handled =>
    (runLocked s sched false host).map fun out =>
      (out.2.log.take effects ++ (handled.map (handlerRow s)).toList).foldl Effect.apply host
  | .retry target now => some { host with db := (retry host.db target now).2 }
  | .cutRetry target => some { host with db := retryCut host.db target }

/-- A pass is not cut between committing a record of an archived file and
recomputing that file, and no retry of an archived file's records is cut. -/
def Followed (host : Host) : Deed → Prop
  | .cutPass s sched effects _ => ∀ out, runLocked s sched false host = some out →
      ∀ f ∈ host.db.files.rows, f.archivedAt.isSome → f.id ∉ owing (out.2.log.take effects)
  | .cutRetry target => ∀ r ∈ host.db.records.rows, target.resets r →
      ∀ f ∈ host.db.files.rows, f.id = r.fileId → f.archivedAt = none
  | _ => True

theorem Owing.reset {target : ResetTarget} (h : Owing [] db)
    (hk : ∀ r ∈ db.records.rows, target.resets r → ∀ f ∈ db.files.rows,
      f.archivedAt.isSome →
      f.id = r.fileId → f.id ∈ owed) : Owing owed (db.resetRecords target).1 := by
  intro f hf harch hnot
  refine right_of_same (h f hf harch (by simp)) ?_
  refine statuses_update Db.resetRow_id rfl (fun r => rfl) fun r hr hreset heq => ?_
  exact hnot (hk r hr hreset f hf harch heq.symm)

theorem Owing.paid (h : Owing [k] db) : Owing [] (db.recomputeFileStatus k now) := by
  have := (h.recompute : Owing ([k].filter (· ≠ k)) (db.recomputeFileStatus k now))
  simpa using this

theorem Owing.retry (h : Owing [] db) (target : ResetTarget) (now : Timestamp) :
    Owing [] (retry db target now).2 := by
  cases target with
  | file fileId =>
    simp only [UbkiUploader.retry, retryFile]
    split
    · exact h
    · refine Owing.paid (h.reset fun r hr hreset f hf _ heq => ?_)
      simp only [ResetTarget.resets, ResetTarget.covers, Bool.and_eq_true, decide_eq_true_eq]
        at hreset
      simp [heq, hreset.1]
  | record recordId =>
    simp only [UbkiUploader.retry, retryRecord]
    split
    · exact h
    · rename_i row hrow
      obtain ⟨hmem, hid⟩ := Table.find?_eq_some_iff.mp hrow
      split
      · rename_i hzero
        refine h.reset fun r hr hreset => ?_
        exact absurd hreset (by simpa using List.countP_eq_zero.mp hzero r hr)
      · refine Owing.paid (h.reset fun r hr hreset f hf _ heq => ?_)
        simp only [ResetTarget.resets, ResetTarget.covers, Bool.and_eq_true, decide_eq_true_eq]
          at hreset
        rw [heq, Table.eq_of_key hr hmem (hreset.1.trans hid.symm)]
        simp

/-- Killed while archiving or before its row, a pass has every status right. -/
theorem allRight_of_late {late : List Effect} (h : AllRight db)
    (hlate : ∀ e ∈ late, e.archives ∨ ∀ d, (e.onDb d).files = d.files ∧
      (e.onDb d).records = d.records) : AllRight (replayDb late db) := by
  induction late generalizing db with
  | nil => exact h
  | cons e late ih =>
    exact ih (h.effect (hlate e (by simp))) fun e he => hlate e (List.mem_cons_of_mem _ he)

/-- The log of a finished pass, parted where every file is right. -/
theorem Finished.split (hfin : Finished s sched start r p ins recs arcs out) :
    ∃ late, out.log = (ins ++ (effectsFrom s.toEnv 0 p.trace ++ recs)) ++ late ∧
      ∀ e ∈ late, e.archives ∨ ∀ d, (e.onDb d).files = d.files ∧
      (e.onDb d).records = d.records := by
  obtain ⟨startedAt, status, filesSeen, error, now, hlog⟩ := hfin.log
  simp only [List.append_assoc] at hlog ⊢
  refine ⟨_, hlog, fun e he => ?_⟩
  rcases List.mem_append.mp he with he | he
  · exact .inl (hfin.archived e he)
  · rw [List.mem_singleton.mp he]
    exact .inr fun d => ⟨rfl, rfl⟩

theorem allRight_at_end (hfin : Finished s sched host r p ins recs arcs out)
    (h : Owing [] host.db) : AllRight out.host.db := by
  obtain ⟨late, hlog, hlate⟩ := hfin.split
  rw [hfin.host, foldl_apply_db, hlog, replayDb_append]
  exact allRight_of_late (allRight_of_finished hfin h) hlate

theorem owing_of_cut (hfin : Finished s sched host r p ins recs arcs out) (h : Owing [] host.db)
    (hcond : ∀ f ∈ host.db.files.rows,
      f.archivedAt.isSome → f.id ∉ owing (out.log.take n)) :
    Owing [] (replayDb (out.log.take n) host.db) := by
  obtain ⟨late, hlog, hlate⟩ := hfin.split
  have hsent := sendRecords_sent hfin.send
  have hdb : r.host.db = replayDb ins host.db := by rw [hfin.ingested.1, foldl_apply_db]
  have hcalm : ∀ e ∈ effectsFrom s.toEnv 0 p.trace ++ recs, ¬e.archives ∧ ¬e.ingests := by
    intro e he
    rcases List.mem_append.mp he with he | he
    · exact hsent.calm e he
    · obtain ⟨k, t, rfl⟩ := hfin.recomputed.1 e he
      exact ⟨id, id⟩
  have hfaith : Faithful (effectsFrom s.toEnv 0 p.trace ++ recs) (replayDb ins host.db) := by
    intro c t hc
    rcases List.mem_append.mp hc with hc | hc
    · exact hdb ▸ hsent.faithful c t hc
    · obtain ⟨k, t', heq⟩ := hfin.recomputed.1 _ hc
      cases heq
  by_cases hn : n ≤ (ins ++ (effectsFrom s.toEnv 0 p.trace ++ recs)).length
  · -- killed before archiving anything
    rw [hlog, List.take_append_of_le_length hn, List.take_append] at hcond ⊢
    refine owing_of_calm h (fun e he => hfin.ingested.2 e (List.mem_of_mem_take he))
      (fun e he => hcalm e (List.mem_of_mem_take he)) ?_ hcond
    by_cases hins : ins.length ≤ n
    · rw [List.take_of_length_le hins]
      exact fun c t hc => hfaith c t (List.mem_of_mem_take hc)
    · intro c t hc
      rw [show n - ins.length = 0 by omega] at hc
      simp at hc
  · -- killed later, when every file is right
    rw [hlog, List.take_append, List.take_of_length_le (by omega), replayDb_append]
    exact (allRight_of_late (allRight_of_finished hfin h)
      fun e he => hlate e (List.mem_of_mem_take he)).owing

theorem owing_of_quiet (hfx : ∀ e ∈ fx, ¬e.archives ∧ ∀ c t, e ≠ .commit c t)
    (h : Owing [] db) :
    Owing [] (replayDb fx db) := by
  induction fx generalizing db with
  | nil => exact h
  | cons e fx ih =>
    obtain ⟨harch, hno⟩ := hfx e (by simp)
    refine ih (fun e he => hfx e (List.mem_cons_of_mem _ he)) ?_
    have := h.effect harch fun c t hc => absurd (List.mem_singleton.mp hc).symm (hno c t)
    cases e with
    | commit c t => exact absurd rfl (hno c t)
    | _ => exact this

/-- Every deed that is followed up keeps the archived files right. -/
theorem owing_of_deed (h : Owing [] host.db) (hc : Followed host d)
    (hd : deed host d = some host') :
    Owing [] host'.db := by
  cases d with
  | deliver inbox =>
    cases hd
    exact h
  | pass s sched dryRun =>
    obtain ⟨⟨ending, out⟩, hrun, rfl⟩ := Option.map_eq_some_iff.mp hd
    by_cases hend : ending = .finished
    · subst hend
      obtain ⟨r, p, ins, recs, arcs, hfin⟩ := runLocked_finished hrun
      exact (allRight_at_end hfin h).owing
    · obtain ⟨hhost, hquiet⟩ := runLocked_unfinished hrun hend
      rw [hhost, foldl_apply_db]
      exact owing_of_quiet hquiet h
  | cutPass s sched n handled =>
    obtain ⟨⟨ending, out⟩, hrun, rfl⟩ := Option.map_eq_some_iff.mp hd
    rw [foldl_apply_db, replayDb_append]
    suffices hcut : Owing [] (replayDb (out.log.take n) host.db) by
      cases handled with
      | none => exact hcut
      | some handled => exact hcut
    by_cases hend : ending = .finished
    · subst hend
      obtain ⟨r, p, ins, recs, arcs, hfin⟩ := runLocked_finished hrun
      exact owing_of_cut hfin h (hc _ hrun)
    · obtain ⟨-, hquiet⟩ := runLocked_unfinished hrun hend
      exact owing_of_quiet (fun e he => hquiet e (List.mem_of_mem_take he)) h
  | retry target now =>
    cases hd
    exact h.retry target now
  | cutRetry target =>
    cases hd
    exact h.reset fun r hr hreset f hf harch heq => by simp [hc r hr hreset f hf heq] at harch

/-- After any history whose cuts are followed up, a pass that reaches its row
leaves every file, archived or not, with the aggregate of its records. -/
theorem fileStatus_of_history (deeds : List Deed) (host : Host) (s : Site) (sched : Schedule)
    (out : Run) (hrun : Machine.run deed {} deeds = some host)
    (hfollowed : Machine.Along deed Followed {} deeds)
    (hpass : runLocked s sched false host = some (.finished, out)) :
    ∀ f ∈ out.host.db.files.rows, f.status = out.host.db.fileStatus f.id := by
  have h0 : Owing [] ({} : Host).db := by simp [Owing, Table.empty]
  have h := Machine.run_along (fun host => Owing [] host.db) h0
    (fun _ _ _ h hc hd => owing_of_deed h hc hd) hfollowed hrun
  obtain ⟨r, p, ins, recs, arcs, hfin⟩ := runLocked_finished hpass
  exact allRight_at_end hfin h

-- ---------------------------------------------------------------------------
-- A record of an archived file, sent again
-- ---------------------------------------------------------------------------

def answering (result : UploadResult) : Site where
  config := {}
  kyivToday := Text.lit "2026-08-14"
  utcnow := id
  ensureAnswer := .ok (Text.lit "s")
  reauthAnswer := .ok (Text.lit "s")
  reply _ _ _ := result
  globbed _ := true
  aged _ := true
  sha256 _ := Text.lit "0123456789"
  uuid4 _ := Text.ofNat
  decodeError _ := Text.lit "invalid start byte"

def refused : UploadResult := { status := .rejected }

/-- One file of one line, rejected, archived, and then reset by hand. -/
def retriedArchive : List Deed :=
  [.deliver (AList.singleton (Text.lit "a.txt") (ByteArray.mk #[0x7b, 0x7d, 0x0a])),
   .pass (answering refused) { first := [[0]], resend := [], recompute := [1] } false,
   .retry (.record 1) 9]

theorem fileStatus_of_retriedArchive :
    ∃ host out, Machine.run deed {} retriedArchive = some host ∧
      runLocked (answering accepted) { first := [[0]], resend := [], recompute := [1] } false
        host = some (.finished, out) ∧
      ∀ f ∈ out.host.db.files.rows, f.status = out.host.db.fileStatus f.id := by
  have hends : ((Machine.run deed {} retriedArchive).bind fun host => runLocked
      (answering accepted) { first := [[0]], resend := [], recompute := [1] } false host).map
        (·.1) = some .finished := by decide
  obtain ⟨⟨ending, out⟩, hout, rfl⟩ := Option.map_eq_some_iff.mp hends
  obtain ⟨host, hrun, hpass⟩ := Option.bind_eq_some_iff.mp hout
  exact ⟨host, out, hrun, hpass, fileStatus_of_history _ host _ _ out hrun
    (by simp [retriedArchive, Machine.Along, Followed]) hpass⟩

/-- The next pass sends the record and is killed before the recompute: the file
stays pending, with its one record sent, through every later pass. -/
theorem fileStatus_of_killed_pass :
    ((Machine.run deed {} (retriedArchive ++ [.cutPass (answering accepted)
        { first := [[0]], resend := [], recompute := [1] } 1 none])).bind fun host =>
      runLocked (answering accepted) { first := [], resend := [], recompute := [] } false host).map
      (fun out => (out.1, out.2.host.db.files.rows.map fun f =>
        (f.archivedAt.isSome, f.status, out.2.host.db.fileStatus f.id))) =
    some (.finished, [(true, .pending, .sent)]) := by decide

end UbkiUploader
