import UbkiUploader.Lib.Grouping
import UbkiUploader.Uploader.Settled

/-!
# The health of the service (app/api.py, `health`)

What the healthcheck answers, that its cheap counts are those of the records, and what it
says over whole histories: without a successful pass it degrades after 25 hours, and a
record beyond the retry cap keeps it degraded until it is reset by hand.
-/

namespace UbkiUploader

open Db (SendableRow)

/-- What `health` reads besides the store. -/
structure HealthSite where
  retryCap : Nat := 5
  rejectedWindowDays : Int := 14
  rejectedMaxRatio : ℚ
  folderAccessible : Bool
  /-- The time in microseconds; the store keeps seconds. -/
  now : Nat
  /-- Division of two ints, a float. -/
  divide : Nat → Nat → ℚ
  /-- A float with one digit after the point. -/
  oneDigit : ℚ → Text
  /-- A float in percent, with one digit after the point. -/
  percent : ℚ → Text

structure Health where
  reasons : List Text
  folderAccessible : Bool
  lastSuccessfulRun : Option Timestamp
  lastSentAt : Option Timestamp
  recordCounts : List (RecordStatus × Nat)
  rejected : Nat
  total : Nat
  ratio : ℚ

def Health.degraded (o : Health) : Bool := o.reasons ≠ []

namespace HealthSite

/-- 25 hours in microseconds -/
def staleRunAfter : Int := 25 * 3600 * 1000000

def age (h : HealthSite) (lastRun : Timestamp) : Int := h.now - lastRun * 1000000

/-- The beginning of the window for rejections, in seconds. -/
def cutoff (h : HealthSite) : Int := (h.now / 1000000 : Nat) - h.rejectedWindowDays * 86400

def recentFiles (h : HealthSite) (db : Db) : List FileRow :=
  db.files.rows.filter fun f => h.cutoff ≤ f.createdAt

def failedOverCap (h : HealthSite) (db : Db) : Nat :=
  db.records.rows.countP fun r => r.status = .failed && h.retryCap ≤ r.attempts

def runReason (h : HealthSite) (db : Db) : List Text :=
  match db.lastSuccessfulRun with
  | none => [Text.lit "no successful run yet"]
  | some lastRun =>
    if staleRunAfter < h.age lastRun then
      [Text.lit "last successful run is " ++ h.oneDigit (h.age lastRun / 1000000 / 3600) ++
        Text.lit "h old (> 25h)"]
    else []

def capReason (h : HealthSite) (db : Db) : List Text :=
  if h.failedOverCap db = 0 then []
  else [Text.ofNat (h.failedOverCap db) ++ Text.lit " record(s) failed beyond retry cap"]

/-- Files' own line counts make the base. -/
def recentTotal (h : HealthSite) (db : Db) : Nat := ((h.recentFiles db).map (·.linesTotal)).sum

def recentRejected (h : HealthSite) (db : Db) : Nat :=
  db.records.rows.countP fun r => r.status = .rejected && (h.recentFiles db).any (·.id = r.fileId)

def rejectedRatio (h : HealthSite) (db : Db) : ℚ :=
  if h.recentTotal db = 0 then 0 else h.divide (h.recentRejected db) (h.recentTotal db)

def ratioReason (h : HealthSite) (db : Db) : List Text :=
  if h.rejectedMaxRatio < h.rejectedRatio db then
    [Text.ofNat (h.recentRejected db) ++ Text.lit " of " ++ Text.ofNat (h.recentTotal db) ++
      Text.lit " records ingested in the last " ++ Text.ofInt h.rejectedWindowDays ++
      Text.lit "d were rejected (" ++ h.percent (h.rejectedRatio db) ++ Text.lit " > " ++
      h.percent h.rejectedMaxRatio ++ Text.lit ")"]
  else []

end HealthSite

def health (h : HealthSite) (db : Db) : Health where
  reasons := (if h.folderAccessible then [] else [Text.lit "data folder not accessible"]) ++
    h.runReason db ++ h.capReason db ++ h.ratioReason db
  folderAccessible := h.folderAccessible
  lastSuccessfulRun := db.lastSuccessfulRun
  lastSentAt := (db.records.rows.filterMap (·.sentAt)).max?
  recordCounts := Grouping.counts (·.status) db.records.rows
  rejected := h.recentRejected db
  total := h.recentTotal db
  ratio := h.rejectedRatio db

variable {h : HealthSite} {db : Db} {host host' : Host} {deeds later : List Deed} {d : Deed}
  {s : Site} {sched : Schedule} {out : Run}

-- ---------------------------------------------------------------------------
-- Counts
-- ---------------------------------------------------------------------------

def HealthSite.recent (h : HealthSite) (db : Db) (r : RecordRow) : Bool :=
  (h.recentFiles db).any (·.id = r.fileId)

theorem length_lineNos (k : Nat) :
    (lineNos db k).length = db.records.rows.countP (·.fileId = k) := by
  rw [lineNos, List.length_map, List.countP_eq_length_filter]

/-- The lines of the files in the window are the records that came with them. -/
theorem recentTotal_eq (hdb : Complete db) :
    h.recentTotal db = db.records.rows.countP (h.recent db) := by
  have hkeys : ((h.recentFiles db).map (·.id)).Nodup :=
    db.files.nodup.sublist (List.filter_sublist.map _)
  have hlines : (h.recentFiles db).map (·.linesTotal) =
      ((h.recentFiles db).map (·.id)).map fun k => db.records.rows.countP (·.fileId = k) := by
    rw [List.map_map]
    refine List.map_congr_left fun f hf => ?_
    have hlen := congrArg List.length (hdb.lines f (List.mem_filter.mp hf).1)
    rw [length_lineNos, List.length_range'] at hlen
    exact hlen.symm
  rw [HealthSite.recentTotal, hlines, Grouping.sum_countP hkeys]
  refine List.countP_congr fun r _ => ?_
  simp [HealthSite.recent]

theorem length_sendableRecords (hl : Linked db) :
    (db.sendableRecords cap).length = db.records.rows.countP (Db.sendable cap) := by
  unfold Db.sendableRecords
  rw [List.length_insertionSort]
  have hfile : ∀ r ∈ db.records.rows, ∃ f, db.files.find? r.fileId = some f := by
    intro r hr
    obtain ⟨f, hf, hid⟩ := hl r hr
    exact ⟨f, Table.find?_eq_some_iff.mpr ⟨hf, hid⟩⟩
  generalize db.records.rows = rows at hfile
  induction rows with
  | nil => rfl
  | cons r rows ih =>
    obtain ⟨f, hf⟩ := hfile r List.mem_cons_self
    have ih := ih fun r hr => hfile r (List.mem_cons_of_mem _ hr)
    cases hs : Db.sendable cap r
    · simpa [hf, hs] using ih
    · simpa [hf, hs] using ih

/-- A record is sent, rejected, waiting for a pass, or beyond the cap. -/
theorem length_records : db.records.rows.length =
    db.records.rows.countP (·.status = .sent) + db.records.rows.countP (·.status = .rejected) +
      db.records.rows.countP (Db.sendable h.retryCap) + h.failedOverCap db := by
  unfold HealthSite.failedOverCap
  induction db.records.rows with
  | nil => rfl
  | cons r rows ih =>
    have hone : (if r.status = .sent then 1 else 0) + (if r.status = .rejected then 1 else 0) +
        (if Db.sendable h.retryCap r then 1 else 0) +
        (if r.status = .failed && h.retryCap ≤ r.attempts then 1 else 0) = 1 := by
      unfold Db.sendable
      cases r.status <;> simp
      split <;> split <;> omega
    simp only [List.length_cons, List.countP_cons, decide_eq_true_eq]
    omega

structure Counted (h : HealthSite) (db : Db) (o : Health) : Prop where
  total : o.total = (db.records.rows.filter (h.recent db)).length
  rejected : o.rejected =
    ((db.records.rows.filter (h.recent db)).filter (·.status = .rejected)).length
  all : (o.recordCounts.map (·.2)).sum = db.records.rows.length
  /-- Besides those sent and rejected there are the records that the next pass selects, and
  those beyond the cap. -/
  classes : db.records.rows.length =
    db.records.rows.countP (·.status = .sent) + db.records.rows.countP (·.status = .rejected) +
      (db.sendableRecords h.retryCap).length + h.failedOverCap db

/-- After any history the counts that the healthcheck takes without reading the records are
those of the records, so that never more are rejected than there are. -/
theorem health_counts (deeds : List Deed) (host : Host) (h : HealthSite)
    (hrun : Machine.run deed {} deeds = some host) :
    Counted h host.db (health h host.db) ∧
      (health h host.db).rejected ≤ (health h host.db).total := by
  have hdb := complete_run hrun
  have hcounted : Counted h host.db (health h host.db) := by
    constructor
    · rw [← List.countP_eq_length_filter]
      exact recentTotal_eq hdb
    · rw [← List.countP_eq_length_filter, List.countP_filter]
      rfl
    · exact Grouping.sum_counts _
    · rw [length_sendableRecords hdb.files]
      exact length_records
  refine ⟨hcounted, ?_⟩
  rw [hcounted.rejected, hcounted.total]
  exact List.length_filter_le _ _

def nextDay : HealthSite where
  rejectedMaxRatio := 1 / 50
  folderAccessible := true
  now := 200000 * 1000000
  divide a b := a / b
  oneDigit _ := []
  percent _ := []

theorem health_counts_retriedArchive :
    ∃ host, Machine.run deed {} retriedArchive = some host ∧
      Counted nextDay host.db (health nextDay host.db) := by
  have hruns : (Machine.run deed {} retriedArchive).isSome = true := by decide
  obtain ⟨host, hrun⟩ := Option.isSome_iff_exists.mp hruns
  exact ⟨host, hrun, (health_counts retriedArchive host nextDay hrun).1⟩

-- ---------------------------------------------------------------------------
-- The last successful run
-- ---------------------------------------------------------------------------

def Effect.succeeds : Effect → Bool
  | .insertRun _ .success .. => true
  | _ => false

theorem onDb_lastSuccessfulRun {e : Effect} (he : e.succeeds = false) (db : Db) :
    (e.onDb db).lastSuccessfulRun = db.lastSuccessfulRun := by
  cases e with
  | insertRun startedAt status filesSeen sent failed rejected error now =>
    have hrow : (Db.newRun startedAt status filesSeen sent failed rejected error now
        db.runs.nextKey).status ≠ .success := by
      rintro rfl
      cases he
    exact lastSuccessfulRun_of_status rfl hrow
  | _ => rfl

theorem foldl_lastSuccessfulRun {fx : List Effect} (hfx : ∀ e ∈ fx, e.succeeds = false)
    (host : Host) :
    (fx.foldl Effect.apply host).db.lastSuccessfulRun = host.db.lastSuccessfulRun := by
  induction fx generalizing host with
  | nil => rfl
  | cons e fx ih =>
    rw [List.foldl_cons, ih fun e he => hfx e (List.mem_cons_of_mem _ he), apply_db,
      onDb_lastSuccessfulRun (hfx e List.mem_cons_self)]

theorem succeeds_of_logsRun {e : Effect} (he : e.logsRun = false) : e.succeeds = false := by
  cases e <;> first | rfl | cases he

/-- Of a pass the last effect alone may be the row of a successful run. -/
theorem finishRun_log {r : Run} (hout : finishRun s sched r touched = some out) :
    ∃ fx startedAt filesSeen sent failed rejected error, out.log = r.log ++ fx ++
      [.insertRun startedAt (if r.summary.aborted then .aborted else .success) filesSeen sent
        failed rejected error (s.utcnow (r.log ++ fx).length)] ∧
      ∀ e ∈ fx, e.logsRun = false := by
  simp only [finishRun] at hout
  split at hout
  · cases hout
    obtain ⟨recs, hrec, hrecs, -⟩ := recomputeFiles_did s sched.recompute r
    obtain ⟨arcs, harc, harcs⟩ :=
      archiveCompletedFiles_did s (recomputeFiles s sched.recompute r)
    obtain ⟨n, hsummary⟩ := archiveCompletedFiles_summary s (recomputeFiles s sched.recompute r)
    have haborted : (archiveCompletedFiles s (recomputeFiles s sched.recompute r)).summary.aborted =
        r.summary.aborted := by rw [hsummary, recomputeFiles_summary]
    rw [← haborted]
    have hlog := (hrec.trans harc).log
    refine ⟨recs ++ arcs, _, _, _, _, _, _, by rw [← hlog]; rfl, fun e he => ?_⟩
    obtain he | he := List.mem_append.mp he
    · obtain ⟨id, now, rfl⟩ := hrecs e he
      rfl
    · exact logsRun_of_archives (harcs e he)
  · cases hout

/-- What a pass that finished was up to: it could not authenticate, or its sends failed in a
row. -/
def Fails (s : Site) (sched : Schedule) (host : Host) : Prop :=
  AuthFails s.toEnv (s.ingested host).1.host.db ∨
    WaveAborts s.toEnv sched.first sched.resend (s.ingested host).1.host.db

theorem runLocked_log (hpass : runLocked s sched dryRun host = some (.finished, out)) :
    ∃ fx startedAt status filesSeen sent failed rejected error, out.log = fx ++
      [.insertRun startedAt status filesSeen sent failed rejected error (s.utcnow fx.length)] ∧
      (∀ e ∈ fx, e.succeeds = false) ∧ (status = .aborted ↔ Fails s sched host) ∧
      (status = .aborted ∨ status = .success) := by
  obtain ⟨r, p, hing, hp, hout⟩ := runLocked_phases hpass
  obtain ⟨hfresh, -⟩ := ingested_spec hing
  obtain ⟨ins, hins, hingests⟩ :=
    ingestNewFiles_did s (scanFolder s host.inbox) (s.scanned false host)
  obtain ⟨fx, startedAt, filesSeen, sent, failed, rejected, error, hlog, hfx⟩ :=
    finishRun_log hout
  have hflag := sendRecords_aborted_iff hp hfresh
  have hins : r.log = ins := by
    have hrlog := hins.log
    rw [Site.ingested] at hing
    rw [hing] at hrlog
    simpa using hrlog
  have hsummary : (r.sent s.toEnv p).summary.aborted = p.summary.aborted := rfl
  refine ⟨r.log ++ effectsFrom s.toEnv 0 p.trace ++ fx, startedAt, _, filesSeen, sent, failed,
    rejected, error, hlog, fun e he => ?_, ?_, ?_⟩
  · simp only [List.mem_append, hins] at he
    rcases he with (he | he) | he
    · exact succeeds_of_logsRun (logsRun_of_ingests (hingests e he))
    · obtain ⟨today, sessid, rfl⟩ | ⟨c, now, rfl⟩ := effectsFrom_cases he
      · rfl
      · rfl
    · exact succeeds_of_logsRun (hfx e he)
  · rw [Fails, hing, ← hflag, hsummary]
    cases p.summary.aborted <;> simp
  · rw [hsummary]
    cases p.summary.aborted <;> simp

theorem runLocked_unfinished_log (hpass : runLocked s sched dryRun host = some (ending, out))
    (hne : ending ≠ .finished) : ∀ e ∈ out.log, e.succeeds = false := by
  obtain ⟨ins, hins, hall⟩ :=
    ingestNewFiles_did s (scanFolder s host.inbox) (s.scanned dryRun host)
  have hlog := hins.log
  rw [Site.scanned_log, List.nil_append] at hlog
  have hno : ∀ e ∈ ins, e.succeeds = false := fun e he =>
    succeeds_of_logsRun (logsRun_of_ingests (hall e he))
  simp only [runLocked] at hpass
  split at hpass
  · rename_i r error hing
    rw [hing] at hlog
    cases hpass
    intro e he
    rcases List.mem_append.mp he with he | he
    · exact hno e (hlog ▸ he)
    · rw [List.mem_singleton.mp he]
      rfl
  · rename_i r hing
    rw [hing] at hlog
    split at hpass
    · cases hpass
      exact fun e he => hno e (hlog ▸ he)
    · obtain ⟨p, -, hpass⟩ := Option.bind_eq_some_iff.mp hpass
      obtain ⟨out', -, hpass⟩ := Option.bind_eq_some_iff.mp hpass
      cases hpass
      exact absurd rfl hne

/-- The deed brings no successful run: its pass fails, or was cut before its row. -/
def Deed.Fruitless (host : Host) : Deed → Prop
  | .pass s sched dryRun =>
    ∀ out, runLocked s sched dryRun host = some (.finished, out) → Fails s sched host
  | .cutPass s sched effects _ => ∀ out, runLocked s sched false host = some (.finished, out) →
      Fails s sched host ∨ effects < out.log.length
  | _ => True

theorem retry_lastSuccessfulRun (db : Db) (target : Db.ResetTarget) (now : Timestamp) :
    (retry db target now).2.lastSuccessfulRun = db.lastSuccessfulRun := by
  have hruns : (retry db target now).2.runs = db.runs := by
    cases target with
    | file fileId =>
      simp only [retry, retryFile]
      split <;> rfl
    | record recordId =>
      simp only [retry, retryRecord]
      split
      · rfl
      · split <;> rfl
  rw [Db.lastSuccessfulRun, hruns, Db.lastSuccessfulRun]

theorem Deed.Fruitless.lastSuccessfulRun (hno : d.Fruitless host) (hd : deed host d = some host') :
    host'.db.lastSuccessfulRun = host.db.lastSuccessfulRun := by
  cases d with
  | deliver =>
    cases hd
    rfl
  | retry target now =>
    cases hd
    exact retry_lastSuccessfulRun host.db target now
  | cutRetry =>
    cases hd
    rfl
  | pass s sched dryRun =>
    obtain ⟨⟨ending, out⟩, hpass, rfl⟩ := Option.map_eq_some_iff.mp hd
    by_cases hend : ending = .finished
    · subst hend
      obtain ⟨r, p, ins, recs, arcs, hfin⟩ := runLocked_finished hpass
      obtain ⟨fx, startedAt, status, filesSeen, sent, failed, rejected, error, hlog, hfx,
        hstatus, -⟩ := runLocked_log hpass
      rw [hstatus.mpr (hno out hpass)] at hlog
      rw [hfin.host, hlog]
      refine foldl_lastSuccessfulRun (fun e he => ?_) host
      rcases List.mem_append.mp he with he | he
      · exact hfx e he
      · rw [List.mem_singleton.mp he]
        rfl
    · rw [(runLocked_unfinished hpass hend).1]
      exact foldl_lastSuccessfulRun (runLocked_unfinished_log hpass hend) host
  | cutPass s sched effects handled =>
    obtain ⟨⟨ending, out⟩, hpass, rfl⟩ := Option.map_eq_some_iff.mp hd
    refine foldl_lastSuccessfulRun (fun e he => ?_) host
    rcases List.mem_append.mp he with he | he
    · by_cases hend : ending = .finished
      · subst hend
        obtain ⟨fx, startedAt, status, filesSeen, sent, failed, rejected, error, hlog, hfx,
          hstatus, -⟩ := runLocked_log hpass
        rcases hno out hpass with hfails | hcut
        · rw [hlog, hstatus.mpr hfails] at he
          rcases List.mem_append.mp (List.mem_of_mem_take he) with he | he
          · exact hfx e he
          · rw [List.mem_singleton.mp he]
            rfl
        · rw [hlog, List.length_append, List.length_singleton] at hcut
          rw [hlog, List.take_append_of_le_length (by omega)] at he
          exact hfx e (List.mem_of_mem_take he)
      · exact runLocked_unfinished_log hpass hend e (List.mem_of_mem_take he)
    · obtain ⟨row, -, rfl⟩ := Option.map_eq_some_iff.mp (Option.mem_toList.mp he)
      rfl

theorem insertRun_lastSuccessfulRun (db : Db) :
    (db.insertRun startedAt .success filesSeen sent failed rejected error now).lastSuccessfulRun =
      some now := by
  have hlast : ∀ row ∈ db.runs.rows.filter (·.status = .success), row.id < db.runs.nextKey :=
    fun row hrow => Table.key_lt_nextKey (List.mem_filter.mp hrow).1
  rw [Db.lastSuccessfulRun]
  have hrows :
    (db.insertRun startedAt .success filesSeen sent failed rejected error now).runs.rows =
    db.runs.rows ++ [Db.newRun startedAt .success filesSeen sent failed rejected error now
      db.runs.nextKey] := rfl
  rw [hrows, List.filter_append, List.filter_cons_of_pos (by rfl), List.filter_nil,
    List.argmax_concat]
  cases hmax : (db.runs.rows.filter (·.status = .success)).argmax (·.id) with
  | none => rfl
  | some row =>
    have := hlast row (List.argmax_mem hmax)
    simp only [Db.newRun, this, if_true, Option.map_some]

/-- The age of the last successful run is counted from the end of the last pass that did not
fail, when its row was inserted: deliveries, retries, crashes, and passes that fail or are cut
leave it as it is, and after 25 hours of them the service is degraded. -/
theorem health_ticks (later : List Deed) (host host' : Host) (h : HealthSite)
    (hrun : Machine.run deed host later = some host')
    (hno : Machine.Along deed Deed.Fruitless host later) :
    (health h host'.db).lastSuccessfulRun = (health h host.db).lastSuccessfulRun ∧
    ((∀ t, host.db.lastSuccessfulRun = some t → HealthSite.staleRunAfter < h.age t) →
      (health h host'.db).degraded = true) ∧
    ∀ s sched out, runLocked s sched false host' = some (.finished, out) →
    ¬Fails s sched host' →
      ∃ fx row, out.log = fx ++ [row] ∧ row.succeeds = true ∧
        (health h out.host.db).lastSuccessfulRun = some (s.utcnow fx.length) := by
  have hsame : host'.db.lastSuccessfulRun = host.db.lastSuccessfulRun :=
    Machine.run_along (fun t => t.db.lastSuccessfulRun = host.db.lastSuccessfulRun) rfl
      (fun t d u ht hd hu => (hd.lastSuccessfulRun hu).trans ht) hno hrun
  refine ⟨hsame, fun hlate => ?_, fun s sched out hpass hgood => ?_⟩
  · have hreason : h.runReason host'.db ≠ [] := by
      rw [HealthSite.runReason, hsame]
      split
      · simp
      · rename_i t ht
        rw [if_pos (hlate t ht)]
        simp
    simp [Health.degraded, health, hreason]
  · obtain ⟨r, p, ins, recs, arcs, hfin⟩ := runLocked_finished hpass
    obtain ⟨fx, startedAt, status, filesSeen, sent, failed, rejected, error, hlog, -, hstatus,
      hor⟩ := runLocked_log hpass
    obtain rfl := hor.resolve_left fun hab => hgood (hstatus.mp hab)
    refine ⟨fx, _, hlog, rfl, ?_⟩
    show out.host.db.lastSuccessfulRun = _
    rw [hfin.host, hlog, List.foldl_append]
    exact insertRun_lastSuccessfulRun _

/-- The bureau refuses every login. -/
def lockedOut : Site :=
  { answering accepted with ensureAnswer := .error (Text.lit "auth HTTP 403: ") }

theorem health_ticks_lockedOut :
    ∃ host', Machine.run deed lineHost [.pass lockedOut soleSend false, .retry (.record 1) 3] =
        some host' ∧ (health nextDay host'.db).lastSuccessfulRun = none ∧
      (health nextDay host'.db).degraded = true := by
  have hruns : (Machine.run deed lineHost
    [.pass lockedOut soleSend false, .retry (.record 1) 3]).isSome = true := by decide
  obtain ⟨host', hrun⟩ := Option.isSome_iff_exists.mp hruns
  have hfails : Fails lockedOut soleSend lineHost :=
    .inl ⟨by decide, Text.lit "auth HTTP 403: ", rfl⟩
  obtain ⟨hlast, hdegraded, -⟩ := health_ticks
    [.pass lockedOut soleSend false, .retry (.record 1) 3] lineHost host' nextDay hrun
    ⟨fun _ _ => hfails, fun _ _ => ⟨trivial, fun _ _ => trivial⟩⟩
  refine ⟨host', hrun, hlast, hdegraded fun t ht => ?_⟩
  cases ht

-- ---------------------------------------------------------------------------
-- Records beyond the cap
-- ---------------------------------------------------------------------------

theorem mem_onDb {e : Effect} {row : RecordRow}
    (hother : ∀ c now, e = .commit c now → c.key ≠ row.id)
    (hrow : row ∈ db.records.rows) : row ∈ (e.onDb db).records.rows := by
  cases e with
  | insertFile => exact Db.mem_insertRecordRows_of_mem hrow
  | commit c now =>
    exact Db.mem_updateRecordResult.mpr ⟨row, hrow, if_neg (Ne.symm (hother c now rfl))⟩
  | _ => exact hrow

theorem mem_foldl {fx : List Effect} {row : RecordRow}
    (hother : ∀ c now, Effect.commit c now ∈ fx → c.key ≠ row.id)
    (hrow : row ∈ host.db.records.rows) :
    row ∈ (fx.foldl Effect.apply host).db.records.rows := by
  induction fx generalizing host with
  | nil => exact hrow
  | cons e fx ih =>
    refine ih (fun c now hc => hother c now (List.mem_cons_of_mem _ hc)) ?_
    rw [apply_db]
    exact mem_onDb (fun c now heq => hother c now (heq ▸ List.mem_cons_self)) hrow

/-- A pass has no result for a record that it cannot select. -/
theorem runLocked_passes_over {row : RecordRow}
    (hpass : runLocked s sched dryRun host = some (ending, out))
    (hrow : row ∈ host.db.records.rows) (hnot : Db.sendable s.config.retryCap row = false) :
    ∀ c now, Effect.commit c now ∈ out.log → c.key ≠ row.id := by
  intro c now hc hkey
  by_cases hend : ending = .finished
  · subst hend
    obtain ⟨r, p, ins, recs, arcs, hfin⟩ := runLocked_finished hpass
    obtain ⟨hsel, -⟩ := sendRecords_covered hfin.send c (hfin.commit_sent hc)
    obtain ⟨hsame, hsend, -⟩ := Db.mem_sendableRecords.mp hsel
    have hrow' := (ingested_records hfin.ingest).2.1 row hrow
    rw [Table.eq_of_key hsame hrow' hkey, hnot] at hsend
    cases hsend
  · exact ((runLocked_unfinished hpass hend).2 _ hc).2 c now rfl

/-- Its passes have the cap, and it does not reset the record. -/
def Deed.Spares (cap : Nat) (row : RecordRow) : Deed → Prop
  | .deliver _ => True
  | .pass s _ _ => s.config.retryCap = cap
  | .cutPass s _ _ _ => s.config.retryCap = cap
  | .retry target _ => target.resets row = false
  | .cutRetry target => target.resets row = false

theorem mem_resetRecords_spared {row : RecordRow} {target : Db.ResetTarget}
    (hspared : target.resets row = false) (hrow : row ∈ db.records.rows) :
    row ∈ (db.resetRecords target).1.records.rows :=
  Db.mem_resetRecords.mpr ⟨row, hrow, if_neg (by simp [hspared])⟩

theorem mem_retry_spared {row : RecordRow} {target : Db.ResetTarget}
    (hspared : target.resets row = false) (hrow : row ∈ db.records.rows) (now : Timestamp) :
    row ∈ (retry db target now).2.records.rows := by
  have hkept := mem_resetRecords_spared hspared hrow
  cases target with
  | file fileId =>
    simp only [retry, retryFile]
    split
    · exact hrow
    · exact hkept
  | record recordId =>
    simp only [retry, retryRecord]
    split
    · exact hrow
    · split
      · exact hkept
      · exact hkept

theorem Deed.Spares.keeps {row : RecordRow} (hspares : d.Spares cap row)
    (hnot : Db.sendable cap row = false) (hd : deed host d = some host')
    (hrow : row ∈ host.db.records.rows) : row ∈ host'.db.records.rows := by
  cases d with
  | deliver =>
    cases hd
    exact hrow
  | pass s sched dryRun =>
    obtain rfl := hspares
    obtain ⟨⟨ending, out⟩, hpass, rfl⟩ := Option.map_eq_some_iff.mp hd
    have hhost : out.host = out.log.foldl Effect.apply host := by
      by_cases hend : ending = .finished
      · subst hend
        obtain ⟨r, p, ins, recs, arcs, hfin⟩ := runLocked_finished hpass
        exact hfin.host
      · exact (runLocked_unfinished hpass hend).1
    rw [hhost]
    exact mem_foldl (runLocked_passes_over hpass hrow hnot) hrow
  | cutPass s sched effects handled =>
    obtain rfl := hspares
    obtain ⟨⟨ending, out⟩, hpass, rfl⟩ := Option.map_eq_some_iff.mp hd
    refine mem_foldl (fun c now hc => ?_) hrow
    rcases List.mem_append.mp hc with hc | hc
    · exact runLocked_passes_over hpass hrow hnot c now (List.mem_of_mem_take hc)
    · obtain ⟨row, -, heq⟩ := Option.map_eq_some_iff.mp (Option.mem_toList.mp hc)
      cases heq
  | retry target now =>
    cases hd
    exact mem_retry_spared hspares hrow now
  | cutRetry target =>
    cases hd
    exact mem_resetRecords_spared hspares hrow

/-- A record that no pass selects stays as it is until it is reset by hand, and one that
failed beyond the cap keeps the service degraded all that time. -/
theorem beyond_cap_stays (cap : Nat) (later : List Deed) (host host' : Host) (row : RecordRow)
    (hrow : row ∈ host.db.records.rows) (hnot : Db.sendable cap row = false)
    (hspares : ∀ d ∈ later, d.Spares cap row)
    (hrun : Machine.run deed host later = some host') :
    row ∈ host'.db.records.rows ∧ (row.status = .failed → ∀ h : HealthSite,
      h.retryCap = cap →
      (health h host'.db).degraded = true ∧ ∃ n > 0,
        Text.ofNat n ++ Text.lit " record(s) failed beyond retry cap" ∈
          (health h host'.db).reasons) := by
  have hkept : row ∈ host'.db.records.rows :=
    Machine.run_invariant
      (fun hist t => (∀ d ∈ hist, d.Spares cap row) → row ∈ t.db.records.rows)
        (fun _ => hrow)
      (fun hist t d u ih hd hall => (hall d (by simp)).keeps hnot hd
        (ih fun d hd => hall d (List.mem_append_left _ hd))) hrun hspares
  refine ⟨hkept, fun hfailed h hcap => ?_⟩
  have hover : 0 < h.failedOverCap host'.db := by
    refine List.countP_pos_iff.mpr ⟨row, hkept, ?_⟩
    simp only [Db.sendable, hfailed, reduceCtorEq, decide_false, decide_true, Bool.true_and,
      Bool.false_or, decide_eq_false_iff_not, not_lt] at hnot
    simp [hfailed, hcap, hnot]
  have hreason : Text.ofNat (h.failedOverCap host'.db) ++
      Text.lit " record(s) failed beyond retry cap" ∈ (health h host'.db).reasons := by
    simp [health, HealthSite.capReason, Nat.ne_of_gt hover]
  refine ⟨?_, _, hover, hreason⟩
  simpa [Health.degraded] using List.ne_nil_of_mem hreason

def wornOut : Host where
  db := (List.range 5).foldl
    (fun db now => db.updateRecordResult 1 ({ status := .failed } : UploadResult).row now)
    (oneFile [Text.lit "\x7b\x7d", Text.lit "\x7b\x7d"])

theorem beyond_cap_stays_wornOut :
    ∃ row ∈ wornOut.db.records.rows, row.status = .failed ∧ ∃ host',
      Machine.run deed wornOut [.pass (answering accepted) soleSend false, .retry (.record 2) 9] =
        some host' ∧ row ∈ host'.db.records.rows ∧
        (health nextDay host'.db).degraded = true := by
  have hworn : wornOut.db.records.rows.any
    (fun row => row.status = .failed && !Db.sendable 5 row && row.id = 1) = true := by
      decide
  obtain ⟨row, hrow, hwhat⟩ := List.any_eq_true.mp hworn
  simp only [Bool.and_eq_true, decide_eq_true_eq, Bool.not_eq_true'] at hwhat
  obtain ⟨⟨hfailed, hnot⟩, hid⟩ := hwhat
  have hruns : (Machine.run deed wornOut
      [.pass (answering accepted) soleSend false, .retry (.record 2) 9]).isSome = true := by
    decide
  obtain ⟨host', hrun⟩ := Option.isSome_iff_exists.mp hruns
  obtain ⟨hkept, hdegraded⟩ := beyond_cap_stays 5
    [.pass (answering accepted) soleSend false, .retry (.record 2) 9] wornOut host' row hrow hnot
    (by simp [Deed.Spares, Db.ResetTarget.resets, Db.ResetTarget.covers, hid, answering]) hrun
  exact ⟨row, hrow, hfailed, host', hrun, hkept, (hdegraded hfailed nextDay rfl).1⟩

end UbkiUploader
