import UbkiUploader.Client.Auth
import UbkiUploader.Lib.JsonLaws
import UbkiUploader.Uploader.Archive
import UbkiUploader.Uploader.RunStatus

/-!
# One authentication a day

A session is cached with its day. Whatever happens on that day, passes that end, that are
cut off, retries, the session stays at hand: no pass asks the bureau for one, and a pass
refreshes it at most once, after the bureau called it stale.
-/

namespace UbkiUploader

variable {env : Env} {db : Db} {today : Text} {host host' : Host} {s : Site} {d : Deed}
  {e : Effect} {fx : List Effect}

-- ---------------------------------------------------------------------------
-- The meta table
-- ---------------------------------------------------------------------------

theorem lookup_cons_text (k a v : Text) (l : List (Text × Text)) :
    ((a, v) :: l).lookup k = if k = a then some v else l.lookup k := by
  rw [List.lookup_cons]
  by_cases hk : k = a
  · rw [if_pos hk, beq_iff_eq.mpr hk]
  · rw [if_neg hk, beq_eq_false_iff_ne.mpr hk]

theorem lookup_replace (l : List (Text × Text)) (key value k : Text) :
    (l.map fun e => if e.1 = key then (key, value) else e).lookup k =
      if k = key ∧ (l.lookup key).isSome then some value else l.lookup k := by
  induction l with
  | nil => simp
  | cons e l ih =>
    obtain ⟨a, v⟩ := e
    simp only [List.map_cons]
    by_cases ha : a = key
    · subst ha
      rw [if_pos rfl, lookup_cons_text, lookup_cons_text, lookup_cons_text, ih]
      by_cases hk : k = a
      · simp [hk]
      · simp [hk]
    · have hkey : ¬key = a := fun h => ha h.symm
      rw [if_neg ha, lookup_cons_text, lookup_cons_text k, lookup_cons_text key, if_neg hkey, ih]
      by_cases hk : k = a
      · simp [hk, ha]
      · rw [if_neg hk, if_neg hk]

theorem lookup_add (l : List (Text × Text)) (key value k : Text) (h : l.lookup key = none) :
    (l ++ [(key, value)]).lookup k = if k = key then some value else l.lookup k := by
  induction l with
  | nil => exact lookup_cons_text k key value []
  | cons e l ih =>
    obtain ⟨a, v⟩ := e
    rw [lookup_cons_text] at h
    split at h
    · cases h
    · rename_i ha
      rw [List.cons_append, lookup_cons_text, lookup_cons_text, ih h]
      by_cases hk : k = a
      · rw [if_pos hk, if_pos hk, if_neg (hk ▸ Ne.symm ha)]
      · rw [if_neg hk, if_neg hk]

theorem metaGet_metaSet (db : Db) (key value k : Text) :
    (db.metaSet key value).metaGet k = if k = key then some value else db.metaGet k := by
  simp only [Db.metaGet, Db.metaSet]
  cases hkey : db.metaRows.lookup key with
  | none => simp [lookup_add _ _ _ _ hkey]
  | some v => simp [lookup_replace, hkey]

-- ---------------------------------------------------------------------------
-- The session at hand
-- ---------------------------------------------------------------------------

/-- A session is cached for the day. -/
def Held (today : Text) (db : Db) : Prop :=
  ∃ sessid, ({ db } : Session).cached today = some sessid

theorem held_iff : Held today db ↔ db.metaGet sessidDateKey = some today ∧
    ∃ sessid, sessid ≠ [] ∧ db.metaGet sessidKey = some sessid := by
  simp only [Held, Session.cached, Session.load, Option.filter_none, Option.filter_eq_some_iff,
    decide_eq_true_eq]
  split
  · rename_i hday
    simp [hday]
  · rename_i hday
    simp only [ne_eq, not_not] at hday
    simp [hday, and_comm]

theorem Held.of_meta (h : Held today db) (hmeta : db'.metaRows = db.metaRows) : Held today db' := by
  rw [held_iff, Db.metaGet, Db.metaGet, hmeta]
  exact held_iff.mp h

theorem held_save {s : Session} (hne : sessid ≠ []) : Held today (s.save today sessid).db := by
  have hkeys : sessidKey ≠ sessidDateKey := by decide
  rw [held_iff, Session.save]
  refine ⟨by rw [metaGet_metaSet, if_pos rfl], sessid, hne, ?_⟩
  rw [metaGet_metaSet, if_neg hkeys, metaGet_metaSet, if_pos rfl]

/-- `auth` raises rather than return an empty session. A float is never rendered as one. -/
theorem authAnswer_ne_nil {reply : AuthReply} (h : authAnswer u reply = .ok sessid)
    (hfloat : ∀ resp v r, reply = .ok resp → resp.json = some v →
      findKey sessidField v = .float r → r ≠ []) : sessid ≠ [] := by
  cases reply with
  | error exc => cases h
  | ok resp =>
    rw [authAnswer] at h
    split at h
    · cases h
    · split at h
      · cases h
      · rename_i v hjson
        simp only at h
        split at h
        · rename_i htruthy
          obtain rfl := Except.ok.inj h
          cases hfound : findKey sessidField v with
          | null => simp [hfound, Json.truthy] at htruthy
          | bool b =>
            cases b with
            | false => simp [hfound, Json.truthy] at htruthy
            | true => simp [Json.toText, Json.repr, Json.boolRepr, Text.lit]
          | int n =>
            obtain ⟨c, t, hdigits, -⟩ := Json.ofNat_head n.natAbs
            show Text.ofInt n ≠ []
            rw [Text.ofInt, hdigits]
            split <;> simp
          | float r => exact hfloat resp v r rfl hjson hfound
          | str t => simpa [hfound, Json.truthy, Json.toText] using htruthy
          | arr items => simp [Json.toText, Json.repr]
          | obj fields => simp [Json.toText, Json.repr]
        · cases h

-- ---------------------------------------------------------------------------
-- What the sends of a pass ask for
-- ---------------------------------------------------------------------------

def Plain (tr : List Event) : Prop := .auth ∉ tr ∧ .reauth ∉ tr

theorem Ran.plain {w : Wave} (hr : Ran env final sessid wave p order tr w) : Plain tr :=
  (hr.lawful tr List.prefix_rfl).sends

/-- A pass asks for a session at first, if none is cached, and once more after a send found
the session stale. -/
structure Asks (env : Env) (db : Db) (trace asked tr after : List Event) : Prop where
  trace : trace = asked ++ tr ++ after
  asked : asked = [] ∨ asked = [.auth] ∧ ({ db } : Session).cached env.kyivToday = none
  plain : Plain tr
  after : after = [] ∨ ∃ tr', after = .reauth :: tr' ∧ Plain tr' ∧
    ∃ c ∈ commits tr, c.result.sessionExpired = true

theorem ensureSession_asked {db : Db} {p : Pass}
    (h : ({ db, summary } : Pass).ensureSession env = (a, p)) :
    p.trace = [] ∨ p.trace = [.auth] ∧ ({ db } : Session).cached env.kyivToday = none := by
  obtain ⟨-, rfl⟩ := Prod.mk.inj h
  cases ({ db } : Session).cached env.kyivToday with
  | none => exact .inr ⟨by simp, rfl⟩
  | some sessid => exact .inl (by simp)

theorem Ran.stale_committed {w : Wave} (hr : Ran env false sessid wave p order tr w)
    (h : w.expired ≠ []) : ∃ c ∈ commits tr, c.result.sessionExpired = true := by
  rw [hr.expired] at h
  obtain ⟨c, hc⟩ := List.exists_mem_of_ne_nil _ (mt List.map_eq_nil_iff.mpr h)
  obtain ⟨hc, hdeferred⟩ := List.mem_filter.mp hc
  refine ⟨c, hc, ?_⟩
  rw [hr.result hc, settlement_deferred] at hdeferred
  rw [hr.result hc, settlement_result]
  exact (Bool.and_eq_true _ _ |>.mp hdeferred).1

theorem sendRecords_asks (h : sendRecords env first resend db summary = some out) :
    ∃ asked tr after, Asks env db out.trace asked tr after := by
  cases sendRecords_course h with
  | nothing => exact ⟨[], [], [], by simp, .inl rfl, by simp [Plain], .inl rfl⟩
  | @blocked e p hauth =>
    exact ⟨p.trace, [], [], by simp [blockPass],
      ensureSession_asked hauth, by simp [Plain], .inl rfl⟩
  | @oneWave sessid p w hauth hw hno =>
    obtain ⟨tr, hr⟩ := runWave_ran hw
    exact ⟨p.trace, tr, [], by simp [hr.trace], ensureSession_asked hauth, hr.plain, .inl rfl⟩
  | @stranded sessid p w e q hauth hw hexp hab hre =>
    obtain ⟨tr, hr⟩ := runWave_ran hw
    obtain ⟨-, htrace, -⟩ := Pass.reauth_same hre
    exact ⟨p.trace, tr, [.reauth], by simp [strand, htrace, hr.trace], ensureSession_asked hauth,
      hr.plain, .inr ⟨[], rfl, by simp [Plain], hr.stale_committed hexp⟩⟩
  | @resent sessid p w fresh q again hauth hw hexp hab hre hagain =>
    obtain ⟨tr, hr⟩ := runWave_ran hw
    obtain ⟨tr', hr'⟩ := runWave_ran hagain
    obtain ⟨-, htrace, -⟩ := Pass.reauth_same hre
    exact ⟨p.trace, tr, .reauth :: tr', by simp [hr'.trace, htrace, hr.trace],
      ensureSession_asked hauth, hr.plain,
        .inr ⟨tr', rfl, hr'.plain, hr.stale_committed hexp⟩⟩

-- ---------------------------------------------------------------------------
-- What a pass saves
-- ---------------------------------------------------------------------------

/-- The bureau's answers are sessions that are not empty, as `auth` makes sure. -/
structure Env.Answers (env : Env) : Prop where
  ensure : ∀ sessid, env.ensureAnswer = .ok sessid → sessid ≠ []
  reauth : ∀ sessid, env.reauthAnswer = .ok sessid → sessid ≠ []

theorem saved_by (h : .saveSession day sessid ∈ effectsFrom env i tr) :
    day = env.kyivToday ∧ (env.ensureAnswer = .ok sessid ∨ env.reauthAnswer = .ok sessid) := by
  induction tr generalizing i with
  | nil => simp [effectsFrom] at h
  | cons ev tr ih =>
    rcases List.mem_append.mp h with h | h
    · cases ev with
      | submit => simp [Event.effects] at h
      | commit => simp [Event.effects] at h
      | auth =>
        simp only [Event.effects] at h
        split at h
        · rename_i x hx
          cases List.mem_singleton.mp h
          exact ⟨rfl, .inl hx⟩
        · cases h
      | reauth =>
        simp only [Event.effects] at h
        split at h
        · rename_i x hx
          cases List.mem_singleton.mp h
          exact ⟨rfl, .inr hx⟩
        · cases h
    · exact ih h

theorem Finished.saved (hfin : Finished s sched host r p ins recs arcs out)
    (h : .saveSession day sessid ∈ out.log) :
    .saveSession day sessid ∈ effectsFrom s.toEnv 0 p.trace := by
  obtain ⟨startedAt, status, filesSeen, error, t, hlog⟩ := hfin.log
  rw [hlog] at h
  simp only [List.mem_append, List.mem_singleton, reduceCtorEq, or_false] at h
  rcases h with ((h | h) | h) | h
  · exact (hfin.ingested.2 _ h).elim
  · exact h
  · obtain ⟨id, t, heq⟩ := hfin.recomputed.1 _ h
    cases heq
  · exact (hfin.archived _ h).elim

def Effect.OnDay (today : Text) (e : Effect) : Prop :=
  ∀ day sessid, e = .saveSession day sessid → day = today ∧ sessid ≠ []

theorem Held.effect (h : Held today db) (he : e.OnDay today) : Held today (e.onDb db) := by
  cases e with
  | saveSession day sessid =>
    obtain ⟨rfl, hne⟩ := he day sessid rfl
    exact held_save hne
  | _ => exact h.of_meta rfl

theorem Held.effects (h : Held today db) (hfx : ∀ e ∈ fx, e.OnDay today) :
    Held today (replayDb fx db) := by
  induction fx generalizing db with
  | nil => exact h
  | cons e fx ih =>
    exact ih (h.effect (hfx e List.mem_cons_self)) fun e he => hfx e (List.mem_cons_of_mem _ he)

theorem ingestNewFiles_saves (s : Site) (names : List Text) (r : Run) (hr : r.log = []) :
    .saveSession day sessid ∉ (ingestNewFiles s names r).1.log := by
  obtain ⟨fx, hdid, hfx⟩ := ingestNewFiles_did s names r
  rw [hdid.log, hr, List.nil_append]
  exact fun h => (hfx _ h).elim

theorem unfinished_saves (h : runLocked s sched dryRun host = some (ending, out))
    (hne : ending ≠ .finished) : .saveSession day sessid ∉ out.log := by
  have hing : .saveSession day sessid ∉ (ingestNewFiles s (scanFolder s host.inbox)
      (s.scanned dryRun host)).1.log :=
    ingestNewFiles_saves s (scanFolder s host.inbox) (s.scanned dryRun host) rfl
  simp only [runLocked] at h
  split at h
  · rename_i r e heq
    rw [heq] at hing
    cases h
    simp only [crash, Run.insertRun, Run.perform, List.mem_append, List.mem_singleton, reduceCtorEq,
      or_false]
    exact hing
  · rename_i r heq
    rw [heq] at hing
    split at h
    · cases h
      exact hing
    · obtain ⟨p, -, h⟩ := Option.bind_eq_some_iff.mp h
      obtain ⟨out', -, h⟩ := Option.bind_eq_some_iff.mp h
      cases h
      exact absurd rfl hne

theorem runLocked_onDay (hs : s.toEnv.Answers)
    (h : runLocked s sched dryRun host = some (ending, out)) :
    ∀ e ∈ out.log, e.OnDay s.kyivToday := by
  rintro e he day sessid rfl
  by_cases hend : ending = .finished
  · subst hend
    obtain ⟨r, p, ins, recs, arcs, hfin⟩ := runLocked_finished h
    obtain ⟨hday, hensure | hreauth⟩ := saved_by (hfin.saved he)
    · exact ⟨hday, hs.ensure sessid hensure⟩
    · exact ⟨hday, hs.reauth sessid hreauth⟩
  · exact absurd he (unfinished_saves h hend)

-- ---------------------------------------------------------------------------
-- The day
-- ---------------------------------------------------------------------------

/-- Its passes are on that day, and are given sessions that are not empty. -/
def Deed.OnDay (today : Text) : Deed → Prop
  | .pass s _ _ => s.kyivToday = today ∧ s.toEnv.Answers
  | .cutPass s _ _ _ => s.kyivToday = today ∧ s.toEnv.Answers
  | _ => True

theorem Held.deed (h : Held today host.db) (hday : d.OnDay today)
    (hdeed : deed host d = some host') : Held today host'.db := by
  cases d with
  | deliver inbox =>
    cases hdeed
    exact h
  | pass s sched dryRun =>
    obtain ⟨rfl, hs⟩ := hday
    obtain ⟨⟨ending, out⟩, hrun, rfl⟩ := Option.map_eq_some_iff.mp hdeed
    rw [runLocked_host hrun, foldl_apply_db]
    exact h.effects (runLocked_onDay hs hrun)
  | cutPass s sched effects handled =>
    obtain ⟨rfl, hs⟩ := hday
    obtain ⟨⟨ending, out⟩, hrun, rfl⟩ := Option.map_eq_some_iff.mp hdeed
    rw [foldl_apply_db]
    refine h.effects fun e he => ?_
    rcases List.mem_append.mp he with he | he
    · exact runLocked_onDay hs hrun e (List.mem_of_mem_take he)
    · obtain ⟨row, -, rfl⟩ := Option.map_eq_some_iff.mp (Option.mem_toList.mp he)
      intro day sessid heq
      cases heq
  | retry target now =>
    cases hdeed
    refine h.of_meta ?_
    cases target with
    | file fileId =>
      simp only [retry, retryFile]
      split <;> rfl
    | record recordId =>
      simp only [retry, retryRecord]
      split
      · rfl
      · split <;> rfl
  | cutRetry target =>
    cases hdeed
    exact h.of_meta rfl

theorem Held.run (h : Held today host.db) (hday : ∀ d ∈ later, d.OnDay today)
    (hrun : Machine.run UbkiUploader.deed host later = some host') : Held today host'.db := by
  induction later generalizing host with
  | nil =>
    cases hrun
    exact h
  | cons d later ih =>
    rw [Machine.run_cons] at hrun
    obtain ⟨mid, hmid, hrun⟩ := Option.bind_eq_some_iff.mp hrun
    exact ih (h.deed (hday d List.mem_cons_self) hmid)
      (fun d hd => hday d (List.mem_cons_of_mem _ hd)) hrun

/-- With a session at hand a pass asks for none, and refreshes it at most once, after a
send was told that it is stale. -/
structure Frugal (trace : List Event) : Prop where
  auth : .auth ∉ trace
  once : trace.count .reauth ≤ 1
  stale : ∀ before after, trace = before ++ .reauth :: after →
    ∃ c ∈ commits before, c.result.sessionExpired = true

theorem Asks.frugal {db : Db} {events first sends rest : List Event}
    (h : Asks env db events first sends rest) (hheld : Held env.kyivToday db) : Frugal events := by
  obtain ⟨sessid, hcached⟩ := hheld
  have hfirst : first = [] := h.asked.resolve_right fun hasked => by
    rw [hcached] at hasked
    cases hasked.2
  have hevents := h.trace
  rw [hfirst, List.nil_append] at hevents
  subst hevents
  obtain ⟨hnoauth, hnore⟩ := h.plain
  rcases h.after with rfl | ⟨tr', rfl, ⟨hnoauth', hnore'⟩, hstale⟩
  · rw [List.append_nil]
    refine ⟨hnoauth, ?_, fun before after heq => ?_⟩
    · rw [List.count_eq_zero.mpr hnore]
      exact Nat.zero_le 1
    · exact absurd (heq ▸ by simp) hnore
  · refine ⟨by simp [hnoauth, hnoauth'], ?_, fun before after heq => ?_⟩
    · rw [List.count_append, List.count_cons_self, List.count_eq_zero.mpr hnore,
        List.count_eq_zero.mpr hnore']
    · obtain ⟨rfl, -, -⟩ := (List.append_cons_inj_of_notMem hnore hnore').mp heq
      exact hstale

theorem Asks.held {db : Db} {p : Pass} {first sends rest : List Event}
    (h : Asks env db p.trace first sends rest) (hdb : Durable env db p) (hanswers : env.Answers)
    (hasked : .auth ∈ p.trace) (hok : env.ensureAnswer = .ok sessid) :
    Held env.kyivToday p.db := by
  have hfirst : first = [.auth] := by
    rcases h.asked with rfl | ⟨rfl, -⟩
    · rw [h.trace] at hasked
      obtain ⟨hnoauth, -⟩ := h.plain
      rcases h.after with rfl | ⟨tr', rfl, ⟨hnoauth', -⟩, -⟩
      · simp [hnoauth] at hasked
      · simp [hnoauth, hnoauth'] at hasked
    · rfl
  rw [show p.db = _ from hdb, h.trace, hfirst, List.append_assoc, effectsFrom_append,
    replayDb_append]
  refine Held.effects ?_ fun e he => ?_
  · have hsaved : effectsFrom env 0 [.auth] = [.saveSession env.kyivToday sessid] := by
      simp [effectsFrom, Event.effects, hok]
    rw [hsaved]
    exact held_save (hanswers.ensure sessid hok)
  · rintro day x rfl
    obtain ⟨hday, hensure | hreauth⟩ := saved_by he
    · exact ⟨hday, hanswers.ensure x hensure⟩
    · exact ⟨hday, hanswers.reauth x hreauth⟩

/-- `p` is what a pass that reached its end sent. -/
def Sends (s : Site) (sched : Schedule) (host : Host) (p : Pass) (out : Run) : Prop :=
  runLocked s sched false host = some (.finished, out) ∧ ∃ r, s.ingested host = (r, none) ∧
    sendRecords s.toEnv sched.first sched.resend r.host.db r.summary = some p

theorem Sends.ended (h : Sends s sched host p out) (hheld : Held today p.db) :
    Held today out.host.db := by
  obtain ⟨hrun, r, hing, hp⟩ := h
  obtain ⟨r', p', hing', hp', hout⟩ := runLocked_phases hrun
  obtain rfl : r = r' := (Prod.mk.inj (hing.symm.trans hing')).1
  obtain rfl : p = p' := Option.some.inj (hp.symm.trans hp')
  obtain ⟨recs, arcs, startedAt, status, filesSeen, error, now, hdid,
    ⟨hrecs, -⟩, harcs, -⟩ :=
    finishRun_did hout
  rw [hdid.db]
  refine Held.effects hheld fun e he => ?_
  rintro day sessid rfl
  simp only [List.mem_append, List.mem_singleton, reduceCtorEq, or_false] at he
  rcases he with he | he
  · obtain ⟨id, t, heq⟩ := hrecs _ he
    cases heq
  · exact (harcs _ he).elim

/-- Once a session is at hand on a day, seeded by hand or answered to a pass, it stays at
hand for that day, and a pass of the day asks for one only after the bureau rejected it. -/
theorem auth_once (today : Text) (host host' : Host) (later : List Deed)
    (hday : ∀ d ∈ later, d.OnDay today) (hrun : Machine.run deed host later = some host') :
    (∀ sessid, sessid ≠ [] →
      Held today (({ db := host.db } : Session).save today sessid).db) ∧
    (∀ s sched p out sessid, s.kyivToday = today → s.toEnv.Answers →
      Sends s sched host p out →
      .auth ∈ p.trace → s.ensureAnswer = .ok sessid → Held today out.host.db) ∧
    (Held today host.db → Held today host'.db ∧
      ∀ s sched p out, s.kyivToday = today → Sends s sched host' p out → Frugal p.trace) := by
  refine ⟨fun sessid hne => held_save hne, ?_, fun hheld => ⟨hheld.run hday hrun, ?_⟩⟩
  · rintro s sched p out sessid rfl hanswers hsends hasked hok
    obtain ⟨r, hing, hp⟩ := hsends.2
    obtain ⟨first, sends, rest, hasks⟩ := sendRecords_asks hp
    exact hsends.ended (hasks.held (sendRecords_durable hp) hanswers hasked hok)
  · rintro s sched p out rfl ⟨-, r, hing, hp⟩
    obtain ⟨first, sends, rest, hasks⟩ := sendRecords_asks hp
    obtain ⟨ins, hins, hingests⟩ := ingestNewFiles_did s (scanFolder s host'.inbox)
      (s.scanned false host')
    rw [Site.ingested] at hing
    rw [hing] at hins
    have hheld' : Held s.kyivToday r.host.db := by
      rw [hins.db]
      refine (hheld.run hday hrun).effects fun e he => ?_
      rintro day sessid rfl
      exact (hingests _ he).elim
    exact hasks.frugal hheld'

def seededHost : Host where
  db := (({ db := {} } : Session).save (Text.lit "2026-08-14") (Text.lit "s")).db
  inbox := oneLineInbox

def failing : UploadResult := { status := .failed }

theorem answers_answering (result : UploadResult) : (answering result).toEnv.Answers := by
  have hs : Text.lit "s" ≠ [] := by decide
  constructor
  · intro sessid h
    obtain rfl : Text.lit "s" = sessid := Except.ok.inj h
    exact hs
  · intro sessid h
    obtain rfl : Text.lit "s" = sessid := Except.ok.inj h
    exact hs

/-- Two passes in which the line fails. -/
theorem auth_once_seeded :
    ∃ host' p out, Machine.run deed seededHost [.pass (answering failing) oneSend false] =
        some host' ∧ Sends (answering failing) oneSend host' p out ∧
      Held (Text.lit "2026-08-14") host'.db ∧ Frugal p.trace := by
  have hends : ((Machine.run deed seededHost [.pass (answering failing) oneSend false]).bind
      (runLocked (answering failing) oneSend false ·)).map (·.1) = some .finished := by
    decide
  obtain ⟨⟨ending, out⟩, hout, rfl⟩ := Option.map_eq_some_iff.mp hends
  obtain ⟨host', hrun, hpass⟩ := Option.bind_eq_some_iff.mp hout
  obtain ⟨r, p, hing, hp, -⟩ := runLocked_phases hpass
  have hsends : Sends (answering failing) oneSend host' p out := ⟨hpass, r, hing, hp⟩
  obtain ⟨-, -, honce⟩ := auth_once (Text.lit "2026-08-14") seededHost host'
    [.pass (answering failing) oneSend false]
    (by simpa [Deed.OnDay] using ⟨rfl, answers_answering failing⟩) hrun
  have hseeded : Held (Text.lit "2026-08-14") seededHost.db := held_save (by decide)
  obtain ⟨hheld, hfrugal⟩ := honce hseeded
  exact ⟨host', p, out, hrun, hsends, hheld, hfrugal _ _ _ _ rfl hsends⟩

end UbkiUploader
