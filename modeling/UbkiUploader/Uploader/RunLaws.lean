import UbkiUploader.Uploader.StaleSession
import UbkiUploader.Uploader.Run

/-!
# What a pass makes durable

The effects of each phase of a pass, and that the host at its end is the host at
its beginning with the effects of its log applied.
-/

namespace UbkiUploader

open Db (SendableRow)

-- ---------------------------------------------------------------------------
-- Applying effects
-- ---------------------------------------------------------------------------

def replayDb (fx : List Effect) (db : Db) : Db := fx.foldl (fun db e => e.onDb db) db

@[simp] theorem replayDb_nil : replayDb [] db = db := rfl
@[simp] theorem replayDb_cons : replayDb (e :: fx) db = replayDb fx (e.onDb db) := rfl
@[simp] theorem replayDb_append : replayDb (a ++ b) db = replayDb b (replayDb a db) := by
  simp [replayDb]

theorem apply_db (host : Host) (e : Effect) : (e.apply host).db = e.onDb host.db := by
  cases e <;> rfl

theorem foldl_apply_db (fx : List Effect) (host : Host) :
    (fx.foldl Effect.apply host).db = replayDb fx host.db := by
  induction fx generalizing host with
  | nil => rfl
  | cons e fx ih => rw [List.foldl_cons, ih, apply_db, replayDb_cons]

def Effect.moves : Effect → Bool
  | .toArchive .. => true
  | _ => false

theorem foldl_apply_of_stay {fx : List Effect} (h : ∀ e ∈ fx, e.moves = false) (host : Host) :
    fx.foldl Effect.apply host = { host with db := replayDb fx host.db } := by
  induction fx generalizing host with
  | nil => rfl
  | cons e fx ih =>
    have he := h e (by simp)
    rw [List.foldl_cons, ih fun e he => h e (List.mem_cons_of_mem _ he), apply_db]
    cases e with
    | toArchive => simp [Effect.moves] at he
    | _ => rfl

/-- `r'` came from `r` by the effects `fx`. -/
structure Did (r r' : Run) (fx : List Effect) : Prop where
  log : r'.log = r.log ++ fx
  host : r'.host = fx.foldl Effect.apply r.host

namespace Did

theorem refl (r : Run) : Did r r [] := ⟨by simp, rfl⟩

theorem perform (r : Run) (e : Effect) : Did r (r.perform e) [e] := ⟨rfl, rfl⟩

theorem trans (h : Did r r' a) (h' : Did r' r'' b) : Did r r'' (a ++ b) :=
  ⟨by rw [h'.log, h.log, List.append_assoc], by rw [h'.host, h.host, List.foldl_append]⟩

theorem db (h : Did r r' fx) : r'.host.db = replayDb fx r.host.db := by
  rw [h.host, foldl_apply_db]

theorem of_eq (h : Did r r' fx) (hhost : r''.host = r'.host) (hlog : r''.log = r'.log) :
    Did r r'' fx := ⟨hlog.trans h.log, hhost.trans h.host⟩

end Did

-- ---------------------------------------------------------------------------
-- The phases
-- ---------------------------------------------------------------------------

def Effect.ingests : Effect → Prop
  | .insertFile .. => True
  | _ => False

def Effect.archives : Effect → Prop
  | .toArchive .. => True
  | .markArchived .. => True
  | _ => False

theorem ingestFile_did (h : ingestFile s r name bytes = .ok r') :
    ∃ fx, Did r r' fx ∧ ∀ e ∈ fx, e.ingests := by
  simp only [ingestFile] at h
  split at h
  · cases h
    exact ⟨[], .refl r, by simp⟩
  · split at h
    · cases h
    · split at h
      · cases h
        exact ⟨[], (Did.refl r).of_eq rfl rfl, by simp⟩
      · cases h
        exact ⟨_, (Did.perform r _).of_eq rfl rfl, by simp [Effect.ingests]⟩

theorem ingestNewFiles_did (s : Site) (names : List Text) (r : Run) :
    ∃ fx, Did r (ingestNewFiles s names r).1 fx ∧ ∀ e ∈ fx, e.ingests := by
  induction names generalizing r with
  | nil => exact ⟨[], .refl r, by simp⟩
  | cons name names ih =>
    rw [ingestNewFiles]
    split
    · exact ih r
    · split
      · rename_i r' h
        obtain ⟨fx, hd, hfx⟩ := ingestFile_did h
        obtain ⟨gx, hd', hgx⟩ := ih r'
        exact ⟨fx ++ gx, hd.trans hd', by simpa [or_imp, forall_and] using ⟨hfx, hgx⟩⟩
      · exact ⟨[], .refl r, by simp⟩

theorem recomputeFiles_did (s : Site) (ids : List Nat) (r : Run) :
    ∃ fx, Did r (recomputeFiles s ids r) fx ∧
      (∀ e ∈ fx, ∃ id now, e = .recompute id now) ∧
      ∀ id ∈ ids, ∃ now, Effect.recompute id now ∈ fx := by
  unfold recomputeFiles
  induction ids generalizing r with
  | nil => exact ⟨[], .refl r, by simp, by simp⟩
  | cons id ids ih =>
    obtain ⟨fx, hd, hall, hmem⟩ := ih (r.perform (.recompute id (s.utcnow r.log.length)))
    refine ⟨_, (Did.perform r _).trans hd, ?_, ?_⟩
    · rintro e (_ | ⟨_, he⟩)
      · exact ⟨_, _, rfl⟩
      · exact hall e he
    · intro i hi
      rcases List.mem_cons.mp hi with rfl | hi
      · exact ⟨_, List.mem_append_left _ (List.mem_singleton.mpr rfl)⟩
      · obtain ⟨now, h⟩ := hmem i hi
        exact ⟨now, by simp [h]⟩

theorem archiveFile_did (s : Site) (r : Run) (row : FileRow) :
    ∃ fx, Did r (archiveFile s r row) fx ∧ ∀ e ∈ fx, e.archives := by
  unfold archiveFile
  split
  · exact ⟨_, .perform r _, by simp [Effect.archives]⟩
  · exact ⟨_,
      ((Did.perform r _).trans (.perform _ _)).of_eq rfl rfl, by simp [Effect.archives]⟩

theorem archiveCompletedFiles_did (s : Site) (r : Run) :
    ∃ fx, Did r (archiveCompletedFiles s r) fx ∧ ∀ e ∈ fx, e.archives := by
  unfold archiveCompletedFiles
  generalize completedFiles r.host.db = rows
  induction rows generalizing r with
  | nil => exact ⟨[], .refl r, by simp⟩
  | cons row rows ih =>
    obtain ⟨fx, hd, hfx⟩ := archiveFile_did s r row
    obtain ⟨gx, hd', hgx⟩ := ih (archiveFile s r row)
    exact ⟨fx ++ gx, hd.trans hd', by simpa [or_imp, forall_and] using ⟨hfx, hgx⟩⟩

-- ---------------------------------------------------------------------------
-- The effects of sending
-- ---------------------------------------------------------------------------

theorem effectsFrom_append : effectsFrom env i (a ++ b) =
    effectsFrom env i a ++ effectsFrom env (i + a.length) b := by
  induction a generalizing i with
  | nil => rfl
  | cons e a ih =>
    simp only [List.cons_append, effectsFrom, ih, List.append_assoc, List.length_cons]
    rw [Nat.add_right_comm i 1, Nat.add_assoc i]

theorem effectsFrom_cases (he : e ∈ effectsFrom env i tr) :
    (∃ today sessid, e = .saveSession today sessid) ∨ ∃ c now, e = .commit c now := by
  induction tr generalizing i with
  | nil => simp [effectsFrom] at he
  | cons ev tr ih =>
    rcases List.mem_append.mp he with he | he
    · cases ev with
      | submit r => simp [Event.effects] at he
      | commit c => exact .inr ⟨_, _, List.mem_singleton.mp he⟩
      | auth =>
        simp only [Event.effects] at he
        split at he
        · exact .inl ⟨_, _, List.mem_singleton.mp he⟩
        · cases he
      | reauth =>
        simp only [Event.effects] at he
        split at he
        · exact .inl ⟨_, _, List.mem_singleton.mp he⟩
        · cases he
    · exact ih he

theorem effectsFrom_stay (he : e ∈ effectsFrom env i tr) : e.moves = false := by
  obtain ⟨today, sessid, rfl⟩ | ⟨c, now, rfl⟩ := effectsFrom_cases he
  · rfl
  · rfl

/-- Where a pass stands is told by what its trace made durable. -/
def Durable (env : Env) (db : Db) (p : Pass) : Prop :=
  p.db = replayDb (effectsFrom env 0 p.trace) db

theorem Durable.after (h : Durable env db p)
    (hdb : q.db = replayDb (effectsFrom env p.trace.length tr) p.db)
    (htr : q.trace = p.trace ++ tr) : Durable env db q := by
  unfold Durable at h ⊢
  rw [htr, effectsFrom_append, replayDb_append, ← h, hdb, Nat.zero_add]

theorem replay_durable (hown : .auth ∉ tr ∧ .reauth ∉ tr) (p : Pass) :
    (p.replay env tr).db = replayDb (effectsFrom env p.trace.length tr) p.db := by
  induction tr generalizing p with
  | nil => rfl
  | cons e tr ih =>
    simp only [List.mem_cons, not_or] at hown
    have := ih ⟨hown.1.2, hown.2.2⟩ (p.after env e)
    rw [Pass.replay, List.foldl_cons, ← Pass.replay, this]
    cases e with
    | submit r => simp [effectsFrom, Event.effects, Pass.after]
    | commit c => simp [effectsFrom, Event.effects, Pass.after, Pass.commit, Effect.onDb]
    | auth => simp at hown
    | reauth => simp at hown

theorem Ran.durable {db : Db} {w : Wave} (hr : Ran env final sessid wave p order tr w)
    (h : Durable env db p) : Durable env db w.pass :=
  h.after (by rw [hr.db, replay_durable (hr.lawful tr List.prefix_rfl).sends]) hr.trace

theorem ensureSession_durable {db : Db} {p : Pass}
    (h : ({ db, summary } : Pass).ensureSession env = (a, p)) : Durable env db p := by
  obtain ⟨-, rfl⟩ := Prod.mk.inj h
  simp only [Durable, Session.ensureSession]
  cases hcached : ({ db } : Session).cached env.kyivToday with
  | some sessid => simp [effectsFrom]
  | none =>
    cases hanswer : env.ensureAnswer with
    | error e => simp [effectsFrom, Event.effects, Session.auth, hanswer]
    | ok sessid =>
      simp [effectsFrom, Event.effects, Session.auth, hanswer, Effect.onDb, Session.save]

theorem reauth_durable {p q : Pass} (hre : p.reauth env = (a, q)) (h : Durable env db p) :
    Durable env db q := by
  obtain ⟨-, rfl⟩ := Prod.mk.inj hre
  have hdb : (p.reauth env).2.db =
      replayDb (effectsFrom env p.trace.length [.reauth]) p.db := by
    cases hanswer : env.reauthAnswer with
    | error e =>
      simp [Pass.reauth, effectsFrom, Event.effects, Session.reauth, Session.auth, hanswer]
    | ok sessid =>
      simp [Pass.reauth, effectsFrom, Event.effects, Session.reauth, Session.auth, hanswer,
        Effect.onDb, Session.save]
  exact h.after hdb rfl

theorem closePass_durable {db : Db} (h : Durable env db p) :
    Durable env db (closePass env p b) := by
  unfold closePass
  split
  · exact h
  · exact h

/-- `send_records` leaves the database as its trace tells. -/
theorem sendRecords_durable (h : sendRecords env first resend db summary = some out) :
    Durable env db out := by
  cases sendRecords_course h with
  | nothing => rfl
  | blocked hauth =>
    have := ensureSession_durable hauth
    exact this
  | oneWave hauth hw =>
    obtain ⟨tr, hr⟩ := runWave_ran hw
    exact closePass_durable (hr.durable (ensureSession_durable hauth))
  | stranded hauth hw _ _ hre =>
    obtain ⟨tr, hr⟩ := runWave_ran hw
    have := reauth_durable hre (hr.durable (ensureSession_durable hauth))
    exact this
  | resent hauth hw _ _ hre hagain =>
    obtain ⟨tr, hr⟩ := runWave_ran hw
    obtain ⟨tr', hr'⟩ := runWave_ran hagain
    exact closePass_durable (hr'.durable (reauth_durable hre
      (hr.durable (ensureSession_durable hauth))))

-- ---------------------------------------------------------------------------
-- A whole pass
-- ---------------------------------------------------------------------------

/-- What a finished pass did: `r` is the pass when sending begins and `p` its end,
and the effects of ingesting, recomputing and archiving are `ins`, `recs` and
`arcs`. -/
structure Finished (s : Site) (sched : Schedule) (host : Host) (r : Run) (p : Pass)
    (ins recs arcs : List Effect) (out : Run) : Prop where
  ingest : ingestNewFiles s (scanFolder s host.inbox) (s.scanned false host) = (r, none)
  ingested : r.host = ins.foldl Effect.apply host ∧ ∀ e ∈ ins, e.ingests
  send : sendRecords s.toEnv sched.first sched.resend r.host.db r.summary = some p
  recomputed : (∀ e ∈ recs, ∃ id now, e = .recompute id now) ∧
    ∀ id ∈ recomputeIds p.db p.touched, ∃ now, Effect.recompute id now ∈ recs
  archived : ∀ e ∈ arcs, e.archives
  summary : ∀ o, out.summary.recordsOf o = p.summary.recordsOf o
  log : ∃ startedAt status filesSeen error now,
    out.log = ins ++ effectsFrom s.toEnv 0 p.trace ++ recs ++ arcs ++
      [.insertRun startedAt status filesSeen (out.summary.recordsOf .sent)
        (out.summary.recordsOf .failed) (out.summary.recordsOf .rejected) error now]
  host : out.host = out.log.foldl Effect.apply host

theorem recomputeFiles_summary (s : Site) (ids : List Nat) (r : Run) :
    (recomputeFiles s ids r).summary = r.summary := by
  unfold recomputeFiles
  induction ids generalizing r with
  | nil => rfl
  | cons id ids ih => exact ih _

theorem archiveCompletedFiles_summary (s : Site) (r : Run) :
    ∃ n, (archiveCompletedFiles s r).summary = { r.summary with filesArchived := n } := by
  unfold archiveCompletedFiles
  generalize completedFiles r.host.db = rows
  induction rows generalizing r with
  | nil => exact ⟨_, rfl⟩
  | cons row rows ih =>
    obtain ⟨n, hn⟩ := ih (archiveFile s r row)
    rw [List.foldl_cons, hn]
    unfold archiveFile
    split
    · exact ⟨n, rfl⟩
    · exact ⟨n, rfl⟩

theorem archiveCompletedFiles_recordsOf (s : Site) (r : Run) (o : Outcome) :
    (archiveCompletedFiles s r).summary.recordsOf o = r.summary.recordsOf o := by
  obtain ⟨n, hn⟩ := archiveCompletedFiles_summary s r
  rw [hn]
  cases o <;> rfl

theorem sent_did (h : sendRecords env first resend r.host.db r.summary = some p) :
    Did r (r.sent env p) (effectsFrom env 0 p.trace) := by
  refine ⟨rfl, ?_⟩
  have hdb : p.db = replayDb (effectsFrom env 0 p.trace) r.host.db := sendRecords_durable h
  rw [foldl_apply_of_stay fun e => effectsFrom_stay, ← hdb]
  rfl

theorem finishRun_did (h : finishRun s sched r touched = some out) :
    ∃ recs arcs startedAt status filesSeen error now,
      Did r out (recs ++ arcs ++ [.insertRun startedAt status filesSeen
        (out.summary.recordsOf .sent) (out.summary.recordsOf .failed)
        (out.summary.recordsOf .rejected) error now]) ∧
      ((∀ e ∈ recs, ∃ id now, e = .recompute id now) ∧
        ∀ id ∈ recomputeIds r.host.db touched, ∃ now, Effect.recompute id now ∈ recs) ∧
      (∀ e ∈ arcs, e.archives) ∧ ∀ o, out.summary.recordsOf o = r.summary.recordsOf o := by
  simp only [finishRun] at h
  split at h
  · rename_i hperm
    cases h
    obtain ⟨recs, hrec, hrecs, hmem⟩ := recomputeFiles_did s sched.recompute r
    obtain ⟨arcs, harc, harcs⟩ :=
      archiveCompletedFiles_did s (recomputeFiles s sched.recompute r)
    refine ⟨recs, arcs, _, _, _, _, _, (hrec.trans harc).trans (.perform _ _),
      ⟨hrecs, ?_⟩, harcs, ?_⟩
    · intro id hid
      exact hmem id (hperm.mem_iff.mpr hid)
    · intro o
      have := archiveCompletedFiles_recordsOf s (recomputeFiles s sched.recompute r) o
      rwa [recomputeFiles_summary] at this
  · cases h

def Site.ingested (s : Site) (host : Host) : Run × Option Text :=
  ingestNewFiles s (scanFolder s host.inbox) (s.scanned false host)

theorem runLocked_phases (h : runLocked s sched dryRun host = some (.finished, out)) :
    ∃ r p, s.ingested host = (r, none) ∧
      sendRecords s.toEnv sched.first sched.resend r.host.db r.summary = some p ∧
      finishRun s sched (r.sent s.toEnv p) p.touched = some out := by
  simp only [runLocked] at h
  split at h
  · cases h
  · rename_i r hing
    split at h
    · cases h
    · rename_i hdry
      obtain rfl : dryRun = false := by simpa using hdry
      obtain ⟨p, hp, h⟩ := Option.bind_eq_some_iff.mp h
      obtain ⟨out', hout, h⟩ := Option.bind_eq_some_iff.mp h
      cases h
      exact ⟨r, p, hing, hp, hout⟩

theorem runLocked_of_phases (hing : s.ingested host = (r, none))
    (hp : sendRecords s.toEnv sched.first sched.resend r.host.db r.summary = some p)
    (hfinish : finishRun s sched (r.sent s.toEnv p) p.touched = some out) :
    runLocked s sched false host = some (.finished, out) := by
  rw [Site.ingested] at hing
  simp only [runLocked, hing, Bool.false_eq_true, if_false, hp, hfinish, Option.bind_eq_bind,
    Option.bind_some]

theorem exists_finishRun (s : Site) (first resend : List (List Nat)) (r : Run)
    (touched : List Nat) : ∃ recompute out,
      finishRun s { first, resend, recompute } r touched = some out := by
  refine ⟨recomputeIds r.host.db touched, ?_⟩
  simp only [finishRun, List.Perm.refl, if_true]
  exact ⟨_, rfl⟩

theorem runLocked_finished (h : runLocked s sched dryRun host = some (.finished, out)) :
    ∃ r p ins recs arcs, Finished s sched host r p ins recs arcs out := by
  obtain ⟨r, p, hing, hp, hout⟩ := runLocked_phases h
  obtain ⟨ins, hins, hall⟩ :=
    ingestNewFiles_did s (scanFolder s host.inbox) (s.scanned false host)
  rw [Site.ingested] at hing
  rw [hing] at hins
  obtain ⟨recs, arcs, startedAt, status, filesSeen, error, now, hdid, hrecs, harcs, hsum⟩ :=
    finishRun_did hout
  have hwhole := (hins.trans (sent_did hp)).trans hdid
  have hlog := hwhole.log
  rw [Site.scanned_log, List.nil_append] at hlog
  refine ⟨r, p, ins, recs, arcs, hing, ⟨hins.host, hall⟩, hp, hrecs, harcs, hsum, ?_, ?_⟩
  · exact ⟨startedAt, status, filesSeen, error, now, by simpa using hlog⟩
  · rw [hlog]
    exact hwhole.host

/-- A pass that is not finished has ingested, and perhaps recorded its error. -/
theorem runLocked_unfinished (h : runLocked s sched dryRun host = some (ending, out))
    (hne : ending ≠ .finished) :
    out.host = out.log.foldl Effect.apply host ∧ ∀ e ∈ out.log, ¬e.archives ∧ ∀ c t,
    e ≠ .commit c t := by
  have hno {e : Effect} (he : e.ingests) : ¬e.archives ∧ ∀ c t, e ≠ .commit c t := by
    cases e <;> simp_all [Effect.ingests, Effect.archives]
  obtain ⟨ins, hins, hall⟩ :=
    ingestNewFiles_did s (scanFolder s host.inbox) (s.scanned dryRun host)
  have hlog := hins.log
  simp only [Site.scanned_log, List.nil_append] at hlog
  simp only [runLocked] at h
  split at h
  · rename_i r e hing
    rw [hing] at hins hlog
    cases h
    have hcrash : Did r (crash s r e) _ := (Did.perform _ _).of_eq rfl rfl
    have hlog' : (crash s r e).log = _ := (hins.trans hcrash).log
    refine ⟨by rw [hlog']; exact (hins.trans hcrash).host, ?_⟩
    rw [hlog']
    simp only [Site.scanned_log, List.nil_append, List.mem_append, List.mem_singleton]
    rintro e (he | rfl)
    · exact hno (hall e he)
    · simp [Effect.archives]
  · rename_i r hing
    rw [hing] at hins hlog
    split at h
    · cases h
      exact ⟨by rw [hlog]; exact hins.host, fun e he => hno (hall e (hlog ▸ he))⟩
    · obtain ⟨p, -, h⟩ := Option.bind_eq_some_iff.mp h
      obtain ⟨out', -, h⟩ := Option.bind_eq_some_iff.mp h
      cases h
      exact absurd rfl hne

-- ---------------------------------------------------------------------------
-- The run's row
-- ---------------------------------------------------------------------------

def RunRow.recordsOf (row : RunRow) : Outcome → Nat
  | .sent => row.recordsSent
  | .failed => row.recordsFailed
  | .rejected => row.recordsRejected

theorem finishRun_row (h : finishRun s sched r touched = some out) :
    ∃ row, out.host.db.runs.rows.getLast? = some row ∧
      ∀ o, row.recordsOf o = r.summary.recordsOf o := by
  obtain ⟨recs, arcs, startedAt, status, filesSeen, error, now, hdid, -, -, hsum⟩ :=
    finishRun_did h
  have hdb := hdid.db
  rw [replayDb_append, replayDb_cons, replayDb_nil] at hdb
  refine ⟨_, by rw [hdb]; exact List.getLast?_concat, fun o => ?_⟩
  rw [← hsum o]
  cases o <;> rfl

/-- The numbers of a pass give every record its last outcome exactly when every
stale record was dealt with; they are the numbers in the run's row. -/
theorem pass_accounted_iff (s : Site) (first resend : List (List Nat)) (db : Db)
    (summary : RunSummary) (out : Pass) (hc : 1 ≤ s.config.ubkiConcurrency)
    (hzero : ∀ o, summary.recordsOf o = 0)
    (h : sendRecords s.toEnv first resend db summary = some out) :
    ((∀ o, out.summary.recordsOf o = settledAs o (commits out.trace)) ↔
      AllDealtWith s.toEnv first resend db) ∧
    ∀ sched (r run : Run), finishRun s sched (r.sent s.toEnv out) out.touched = some run →
      ∃ row, run.host.db.runs.rows.getLast? = some row ∧
        ∀ o, row.recordsOf o = out.summary.recordsOf o := by
  refine ⟨?_, fun sched r run => finishRun_row⟩
  rw [← sendRecords_accounted_iff hc h]
  exact forall_congr' fun o => by rw [hzero, Nat.zero_add]

/-- A site for the sends of `staleMorning`. -/
def staleSite : Site where
  toEnv := staleMorning
  globbed _ := true
  aged _ := true
  sha256 _ := Text.lit "sha"
  uuid4 _ := Text.ofNat
  decodeError _ := Text.lit "invalid start byte"

theorem pass_accounted_two :
    ∃ out, sendRecords staleSite.toEnv [[0], [1]] [[0], [1]] twoLines {} = some out ∧
      ∀ o, out.summary.recordsOf o = settledAs o (commits out.trace) := by
  obtain ⟨h, -⟩ := pass_accounted_iff staleSite [[0], [1]] [[0], [1]] twoLines {} _ (by decide)
    (fun o => by cases o <;> rfl) rfl
  refine ⟨_, rfl, h.mpr fun sessid hok => .inr ?_⟩
  obtain rfl : Text.lit "s1" = sessid := Except.ok.inj hok
  rw [← reaches_iff_networkRow]
  decide

/-- Three stale sends in a row abort the first wave: three records end FAILED and
the summary says none did. -/
theorem pass_unaccounted_three :
    ∃ out, sendRecords staleSite.toEnv [[0], [1], [2]] [] threeLines {} = some out ∧
      out.summary.recordsFailed = 0 ∧ settledAs .failed (commits out.trace) = 3 :=
  ⟨_, rfl, by decide, by decide⟩

end UbkiUploader
