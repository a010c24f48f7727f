import UbkiUploader.Uploader.Ingest
import UbkiUploader.Uploader.Ledger

/-!
# Where records come from

Over a whole history of deliveries, passes and retries: the records of a file are the
lines of a delivered file of its name and digest, no file is entered twice, what was
entered stays, and nothing else is ever sent to the bureau.
-/

namespace UbkiUploader

open Db (ResetTarget)

variable {digest : ByteArray → Text} {deeds later : List Deed} {d : Deed} {host host' : Host}
  {db : Db}

def Deed.Digests (digest : ByteArray → Text) : Deed → Prop
  | .pass s _ _ => s.sha256 = digest
  | .cutPass s _ _ _ => s.sha256 = digest
  | _ => True

def Delivered (deeds : List Deed) (name : Text) (bytes : ByteArray) : Prop :=
  ∃ inbox, .deliver inbox ∈ deeds ∧ inbox.read name = some bytes

theorem Delivered.append (h : Delivered deeds name bytes) (later : List Deed) :
    Delivered (deeds ++ later) name bytes := by
  obtain ⟨inbox, hmem, hread⟩ := h
  exact ⟨inbox, List.mem_append_left _ hmem, hread⟩

-- ---------------------------------------------------------------------------
-- One deed
-- ---------------------------------------------------------------------------

theorem same_reset (db : Db) (target : ResetTarget) : Same db (db.resetRecords target).1 :=
  ⟨rfl, Table.map_update Db.resetRow_id _ fun _ => rfl⟩

theorem Same.trans (h : Same db db') (h' : Same db' db'') : Same db db'' :=
  ⟨h'.files.trans h.files, h'.records.trans h.records⟩

theorem same_recompute (db : Db) (fileId : Nat) (now : Timestamp) :
    Same db (db.recomputeFileStatus fileId now) :=
  Effect.Still.same (e := .recompute fileId now) ⟨id, rfl⟩ db

theorem same_retry (db : Db) (target : ResetTarget) (now : Timestamp) :
    Same db (retry db target now).2 := by
  cases target with
  | file fileId =>
    simp only [retry, retryFile]
    split
    · exact ⟨rfl, rfl⟩
    · exact (same_reset db _).trans (same_recompute _ _ _)
  | record recordId =>
    simp only [retry, retryRecord]
    split
    · exact ⟨rfl, rfl⟩
    · split
      · exact same_reset db _
      · exact (same_reset db _).trans (same_recompute _ _ _)

structure TookIn (digest : ByteArray → Text) (host host' : Host) : Prop where
  steps : Intake.Steps digest fileLines host.intake host'.intake
  linked : Linked host'.db

theorem TookIn.refl (hl : Linked host.db) : TookIn digest host host := ⟨.refl, hl⟩

theorem TookIn.same (hl : Linked host.db) (h : Same host.db db) :
    TookIn digest host { host with db } := by
  refine ⟨?_, hl.same h⟩
  have hintake : ({ host with db } : Host).intake = host.intake :=
    congrArg (Intake.State.mk host.inbox.read) h.ledger
  rw [hintake]

theorem deed_tookIn (hl : Linked host.db) (hd : d.Digests digest) (h : deed host d = some host') :
    (∃ inbox, d = .deliver inbox ∧ host' = { host with inbox }) ∨
    TookIn digest host host' := by
  cases d with
  | deliver inbox =>
    cases h
    exact .inl ⟨inbox, rfl, rfl⟩
  | pass s sched dryRun =>
    obtain rfl := hd
    have hup := pass_uploaded hl h
    exact .inr ⟨hup.steps, hup.linked⟩
  | cutPass s sched effects handled =>
    obtain rfl := hd
    have hup := cutPass_uploaded hl h
    exact .inr ⟨hup.steps, hup.linked⟩
  | retry target now =>
    cases h
    exact .inr (.same hl (same_retry host.db target now))
  | cutRetry target =>
    cases h
    exact .inr (.same hl (same_reset host.db target))

-- ---------------------------------------------------------------------------
-- Histories
-- ---------------------------------------------------------------------------

structure Sourced (digest : ByteArray → Text) (files : Text → ByteArray → Prop)
    (host : Host) :
    Prop where
  linked : Linked host.db
  unique : host.intake.Unique
  inbox : ∀ name bytes, host.inbox.read name = some bytes → files name bytes
  entries : ∀ i e, host.intake.ledger i = some e →
    ∃ bytes, files e.name bytes ∧ digest bytes = e.digest ∧ fileLines bytes = some e.content

namespace Sourced

variable {files files' : Text → ByteArray → Prop}

theorem start : Sourced digest files {} where
  linked := by simp [Linked, Table.empty]
  unique := by
    intro i j e e' he
    simp [Host.intake, Db.ledger, Table.find?, Table.empty] at he
  inbox := by simp
  entries := by
    intro i e he
    simp [Host.intake, Db.ledger, Table.find?, Table.empty] at he

theorem mono (h : Sourced digest files host) (hsub : ∀ n b, files n b → files' n b) :
    Sourced digest files' host where
  linked := h.linked
  unique := h.unique
  inbox := fun name bytes hread => hsub _ _ (h.inbox name bytes hread)
  entries := by
    intro i e he
    obtain ⟨bytes, hfrom, hrest⟩ := h.entries i e he
    exact ⟨bytes, hsub _ _ hfrom, hrest⟩

theorem tookIn (h : Sourced digest files host) (htook : TookIn digest host host') :
    Sourced digest files host' where
  linked := htook.linked
  unique := htook.steps.unique h.unique
  inbox := fun name bytes hread => h.inbox name bytes (htook.steps.folder_of hread)
  entries := by
    intro i e he
    rcases htook.steps.came_from he with hold | ⟨bytes, hread, hrest⟩
    · exact h.entries i e hold
    · exact ⟨bytes, h.inbox e.name bytes hread, hrest⟩

theorem deliver (h : Sourced digest files host) {inbox : Folder Text}
    (hinbox : ∀ name bytes, inbox.read name = some bytes → files name bytes) :
    Sourced digest files { host with inbox } :=
  ⟨h.linked, h.unique.congr rfl, hinbox, h.entries⟩

theorem deed (h : Sourced digest (Delivered hist) host) (hd : d.Digests digest)
    (hdeed : deed host d = some host') : Sourced digest (Delivered (hist ++ [d])) host' := by
  have hbefore : Sourced digest (Delivered (hist ++ [d])) host :=
    h.mono fun n b hfrom => hfrom.append [d]
  rcases deed_tookIn h.linked hd hdeed with ⟨inbox, rfl, rfl⟩ | htook
  · exact hbefore.deliver fun name bytes hread => ⟨inbox, by simp, hread⟩
  · exact hbefore.tookIn htook

theorem run (hdigest : ∀ d ∈ deeds, d.Digests digest)
    (hrun : Machine.run UbkiUploader.deed {} deeds = some host) :
    Sourced digest (Delivered deeds) host := by
  have hinv := Machine.run_invariant
    (fun hist host => (∀ d ∈ hist, d.Digests digest) → Sourced digest (Delivered hist) host)
    (fun _ => start) (fun hist t d u ih hd hall => ?_) hrun
  · exact hinv hdigest
  · exact (ih fun d hd => hall d (List.mem_append_left _ hd)).deed (hall d (by simp)) hd

end Sourced

theorem complete_run (hrun : Machine.run deed {} deeds = some host) : Complete host.db := by
  have h0 : Complete ({} : Host).db := ⟨by simp [Table.empty], by simp [Table.empty]⟩
  exact Machine.run_invariant (fun _ host => Complete host.db) h0
    (fun _ _ _ _ h hd => h.deed hd) hrun

theorem ledger_later (hl : Linked host.db) (hdigest : ∀ d ∈ later, d.Digests digest)
    (hrun : Machine.run deed host later = some host') (he : host.db.ledger i = some e) :
    host'.db.ledger i = some e := by
  induction later generalizing host with
  | nil =>
    cases hrun
    exact he
  | cons d later ih =>
    rw [Machine.run_cons] at hrun
    obtain ⟨mid, hmid, hrun⟩ := Option.bind_eq_some_iff.mp hrun
    have hrest : ∀ d ∈ later, d.Digests digest :=
      fun d hd => hdigest d (List.mem_cons_of_mem _ hd)
    rcases deed_tookIn hl (hdigest d List.mem_cons_self) hmid with ⟨inbox, -, rfl⟩ | htook
    · have hl' : Linked ({ host with inbox } : Host).db := hl
      exact ih hl' hrest hrun he
    · exact ih htook.linked hrest hrun (htook.steps.keeps he)

theorem Complete.linesTotal {lines : List Text} (h : Complete db) (hf : f ∈ db.files.rows)
    (hlines : linesOf db f.id = lines.zipIdx 1) : f.linesTotal = lines.length := by
  have hnos : lineNos db f.id = (linesOf db f.id).map (·.2) := by
    rw [linesOf, List.map_map]
    rfl
  have hlen := congrArg List.length (h.lines f hf)
  rw [hnos, hlines, List.length_map, List.length_zipIdx, List.length_range'] at hlen
  exact hlen.symm

/-- After any history each name and digest has one file, its records are the lines of a
delivered file, and they stay whatever is done next. -/
theorem history_provenance (digest : ByteArray → Text) (deeds : List Deed) (host : Host)
    (hdigest : ∀ d ∈ deeds, d.Digests digest) (hrun : Machine.run deed {} deeds = some host) :
    (∀ f ∈ host.db.files.rows, ∀ g ∈ host.db.files.rows,
      f.filename = g.filename → f.sha256 = g.sha256 → f = g) ∧
    ∀ f ∈ host.db.files.rows,
      (∃ bytes lines, Delivered deeds f.filename bytes ∧ digest bytes = f.sha256 ∧
        readLines bytes = some lines ∧ linesOf host.db f.id = lines.zipIdx 1 ∧
        f.linesTotal = lines.length) ∧
      ∀ later host', (∀ d ∈ later, d.Digests digest) →
      Machine.run deed host later = some host' →
        linesOf host'.db f.id = linesOf host.db f.id ∧
        ∃ g ∈ host'.db.files.rows, g.id = f.id ∧ g.filename = f.filename ∧
        g.sha256 = f.sha256 := by
  have hs := Sourced.run hdigest hrun
  refine ⟨fun f hf g hg hname hsha => ?_, fun f hf => ?_⟩
  · exact Table.eq_of_key hf hg (hs.unique f.id g.id _ _ (ledger_eq_some.mpr ⟨f, hf, rfl, rfl⟩)
      (ledger_eq_some.mpr ⟨g, hg, rfl, rfl⟩) hname hsha)
  · have hentry := ledger_eq_some.mpr ⟨f, hf, rfl, rfl⟩
    refine ⟨?_, fun later host' hlater hrun' => ?_⟩
    · obtain ⟨bytes, hfrom, hsha, hcontent⟩ := hs.entries f.id _ hentry
      obtain ⟨lines, hlines, hzip⟩ := Option.map_eq_some_iff.mp hcontent
      exact ⟨bytes, lines, hfrom, hsha, hlines, hzip.symm,
        (complete_run hrun).linesTotal hf hzip.symm⟩
    · obtain ⟨g, hg, hid, hentry'⟩ :=
        ledger_eq_some.mp (ledger_later hs.linked hlater hrun' hentry)
      injection hentry' with hname hsha hlines
      exact ⟨hlines, g, hg, hid, hname, hsha⟩

/-- A file of two lines and a file of one; the second record is reset by hand. -/
def twoFiles : List Deed :=
  [.deliver ((AList.singleton (Text.lit "b.txt") (ByteArray.mk #[0x7b, 0x7d, 0x0a])).insert
      (Text.lit "a.txt") (ByteArray.mk #[0x7b, 0x7d, 0x0a, 0x5b, 0x5d, 0x0a])),
   .pass (answering refused) { first := [[0], [1], [2]], resend := [], recompute := [2, 1] } false,
   .retry (.record 2) 9]

theorem history_provenance_twoFiles :
    ∃ host, Machine.run deed {} twoFiles = some host ∧
      host.db.files.rows.map (fun f => (f.id, f.linesTotal)) = [(1, 2), (2, 1)] ∧
      ∀ f ∈ host.db.files.rows, ∃ bytes lines, Delivered twoFiles f.filename bytes ∧
        readLines bytes = some lines ∧ linesOf host.db f.id = lines.zipIdx 1 := by
  have hruns : (Machine.run deed {} twoFiles).map (fun host =>
      host.db.files.rows.map fun f => (f.id, f.linesTotal)) = some [(1, 2), (2, 1)] := by
    decide
  obtain ⟨host, hrun, hrows⟩ := Option.map_eq_some_iff.mp hruns
  obtain ⟨-, hfiles⟩ := history_provenance (answering refused).sha256 twoFiles host
    (by simp [twoFiles, Deed.Digests]) hrun
  refine ⟨host, hrun, hrows, fun f hf => ?_⟩
  obtain ⟨⟨bytes, lines, hfrom, -, hread, hlines, -⟩, -⟩ := hfiles f hf
  exact ⟨bytes, lines, hfrom, hread, hlines⟩

-- ---------------------------------------------------------------------------
-- Names
-- ---------------------------------------------------------------------------

def Visible (db : Db) : Prop := ∀ f ∈ db.files.rows, isHidden f.filename = false

def Effect.Shows : Effect → Prop
  | .insertFile name .. => isHidden name = false
  | _ => True

theorem Visible.effect (h : Visible db) {e : Effect} (he : e.Shows) : Visible (e.onDb db) := by
  intro f hf
  cases e with
  | insertFile =>
    rcases Db.mem_files_insertFile.mp hf with hf | rfl
    · exact h f hf
    · exact he
  | recompute id now =>
    obtain ⟨g, hg, rfl⟩ := Db.mem_files_recompute.mp hf
    have hname : (if g.id = id then Db.setStatus (db.fileStatus id) now g else g).filename =
        g.filename := by split <;> rfl
    exact hname ▸ h g hg
  | markArchived id now =>
    obtain ⟨g, hg, rfl⟩ := Db.mem_files_markArchived.mp hf
    have hname : (if g.id = id then Db.setArchived now g else g).filename = g.filename := by
      split <;> rfl
    exact hname ▸ h g hg
  | _ => exact h f hf

theorem Visible.effects (h : Visible host.db) {fx : List Effect} (hfx : ∀ e ∈ fx, e.Shows) :
    Visible (fx.foldl Effect.apply host).db := by
  induction fx generalizing host with
  | nil => exact h
  | cons e fx ih =>
    refine ih ?_ fun e he => hfx e (List.mem_cons_of_mem _ he)
    rw [apply_db]
    exact h.effect (hfx e List.mem_cons_self)

theorem Visible.same (h : Visible db) (hs : Same db db') : Visible db' := by
  intro f hf
  have hmem := List.mem_map_of_mem (f := fun f : FileRow => (f.id, f.filename, f.sha256)) hf
  rw [hs.files] at hmem
  obtain ⟨g, hg, heq⟩ := List.mem_map.mp hmem
  have hname : g.filename = f.filename := congrArg (·.2.1) heq
  exact hname ▸ h g hg

theorem ingestNewFiles_shows (s : Site) {names : List Text} (r : Run)
    (hnames : ∀ n ∈ names, isHidden n = false) :
    ∃ fx, (ingestNewFiles s names r).1.log = r.log ++ fx ∧ ∀ e ∈ fx, e.Shows := by
  induction names generalizing r with
  | nil => exact ⟨[], by simp [ingestNewFiles], by simp⟩
  | cons name names ih =>
    have hrest : ∀ n ∈ names, isHidden n = false :=
      fun n hn => hnames n (List.mem_cons_of_mem _ hn)
    rw [ingestNewFiles]
    split
    · exact ih r hrest
    · split
      · rename_i r' h
        have hfirst : ∃ fx, r'.log = r.log ++ fx ∧ ∀ e ∈ fx, e.Shows := by
          simp only [ingestFile] at h
          split at h
          · cases h
            exact ⟨[], by simp, by simp⟩
          · split at h
            · cases h
            · split at h
              · cases h
                exact ⟨[], by simp, by simp⟩
              · cases h
                exact ⟨_, rfl, by simpa [Effect.Shows] using hnames name List.mem_cons_self⟩
        obtain ⟨fx, hlog, hfx⟩ := hfirst
        obtain ⟨gx, hlog', hgx⟩ := ih r' hrest
        refine ⟨fx ++ gx, by rw [hlog', hlog, List.append_assoc], fun e he => ?_⟩
        rcases List.mem_append.mp he with he | he
        · exact hfx e he
        · exact hgx e he
      · exact ⟨[], by simp, by simp⟩

theorem runLocked_host (h : runLocked s sched dryRun host = some (ending, out)) :
    out.host = out.log.foldl Effect.apply host := by
  by_cases hend : ending = .finished
  · subst hend
    obtain ⟨r, p, ins, recs, arcs, hfin⟩ := runLocked_finished h
    exact hfin.host
  · exact (runLocked_unfinished h hend).1

theorem runLocked_shows (h : runLocked s sched dryRun host = some (ending, out)) :
    ∀ e ∈ out.log, e.Shows := by
  have hnames : ∀ n ∈ scanFolder s host.inbox, isHidden n = false := by
    intro n hn
    rw [scanFolder, List.mem_insertionSort, List.mem_filter, Bool.and_eq_true] at hn
    simpa using hn.2.1
  obtain ⟨ins, hlog, hins⟩ := ingestNewFiles_shows s (s.scanned dryRun host) hnames
  rw [Site.scanned_log, List.nil_append] at hlog
  simp only [runLocked] at h
  split at h
  · rename_i r error hing
    rw [hing] at hlog
    cases h
    intro e he
    rcases List.mem_append.mp he with he | he
    · exact hins e (hlog ▸ he)
    · rw [List.mem_singleton.mp he]
      trivial
  · rename_i r hing
    rw [hing] at hlog
    split at h
    · cases h
      exact fun e he => hins e (hlog ▸ he)
    · obtain ⟨p, hp, h⟩ := Option.bind_eq_some_iff.mp h
      obtain ⟨out', hout, h⟩ := Option.bind_eq_some_iff.mp h
      cases h
      obtain ⟨recs, arcs, startedAt, status, filesSeen, error, now, hdid,
        ⟨hrecs, -⟩, harcs, -⟩ :=
        finishRun_did hout
      intro e he
      rw [((sent_did hp).trans hdid).log, hlog] at he
      simp only [List.mem_append, List.mem_singleton] at he
      rcases he with he | he | (he | he) | he
      · exact hins e he
      · obtain ⟨today, sessid, rfl⟩ | ⟨c, t, rfl⟩ := effectsFrom_cases he
        · trivial
        · trivial
      · obtain ⟨id, t, rfl⟩ := hrecs e he
        trivial
      · have := harcs e he
        cases e with
        | insertFile => cases this
        | _ => trivial
      · rw [he]
        trivial

theorem Visible.deed (h : Visible host.db) (hdeed : deed host d = some host') :
    Visible host'.db := by
  cases d with
  | deliver inbox =>
    cases hdeed
    exact h
  | pass s sched dryRun =>
    obtain ⟨⟨ending, out⟩, hpass, rfl⟩ := Option.map_eq_some_iff.mp hdeed
    rw [runLocked_host hpass]
    exact h.effects (runLocked_shows hpass)
  | cutPass s sched effects handled =>
    obtain ⟨⟨ending, out⟩, hpass, rfl⟩ := Option.map_eq_some_iff.mp hdeed
    refine h.effects fun e he => ?_
    rcases List.mem_append.mp he with he | he
    · exact runLocked_shows hpass e (List.mem_of_mem_take he)
    · obtain ⟨row, -, rfl⟩ := Option.map_eq_some_iff.mp (Option.mem_toList.mp he)
      trivial
  | retry target now =>
    cases hdeed
    exact h.same (same_retry host.db target now)
  | cutRetry target =>
    cases hdeed
    exact h.same (same_reset host.db target)

-- ---------------------------------------------------------------------------
-- What is sent
-- ---------------------------------------------------------------------------

theorem ingested_tookIn {s : Site} {r : Run} (hl : Linked host.db)
    (h : s.ingested host = (r, e)) : TookIn s.sha256 host r.host := by
  obtain ⟨done, ins, hins, -⟩ :=
    ingestNewFiles_took s (scanFolder s host.inbox) (s.scanned false host) hl
  rw [Site.ingested] at h
  rw [h] at hins
  have hhost : r.host = ins.foldl Effect.apply host := hins.did.host
  have hsteps := hins.takesIn.steps
  have hlinked := hl.foldl ins
  rw [Site.scanned_host, ← hhost] at hsteps
  rw [← hhost] at hlinked
  exact ⟨hsteps, hlinked⟩

theorem Finished.commit_sent (hfin : Finished s sched host r p ins recs arcs out)
    (hc : Effect.commit c now ∈ out.log) : c ∈ commits p.trace := by
  obtain ⟨startedAt, status, filesSeen, error, t, hlog⟩ := hfin.log
  rw [hlog] at hc
  simp only [List.mem_append, List.mem_singleton, reduceCtorEq, or_false] at hc
  rcases hc with ((hc | hc) | hc) | hc
  · exact (hfin.ingested.2 _ hc).elim
  · exact mem_commits_of_effect hc
  · obtain ⟨id, t, heq⟩ := hfin.recomputed.1 _ hc
    cases heq
  · exact (hfin.archived _ hc).elim

/-- A record that is selected is a numbered line of one of the files. -/
theorem Sourced.sendable (h : Sourced digest files host) (hx : x ∈ host.db.sendableRecords cap) :
    ∃ bytes lines, files x.filename bytes ∧ readLines bytes = some lines ∧
      (x.rawLine, x.lineNo) ∈ lines.zipIdx 1 := by
  obtain ⟨hrow, -, f, hf, hname⟩ := Db.mem_sendableRecords.mp hx
  obtain ⟨hfile, hid⟩ := Table.find?_eq_some_iff.mp hf
  obtain ⟨bytes, hfrom, -, hcontent⟩ :=
    h.entries f.id _ (ledger_eq_some.mpr ⟨f, hfile, rfl, rfl⟩)
  obtain ⟨lines, hlines, hzip⟩ := Option.map_eq_some_iff.mp hcontent
  refine ⟨bytes, lines, hname ▸ hfrom, hlines, ?_⟩
  rw [hzip]
  exact List.mem_map.mpr ⟨x.toRecordRow, List.mem_filter.mpr ⟨hrow, by simp [hid]⟩, rfl⟩

theorem Sourced.commits (h : Sourced s.sha256 files host)
    (hpass : runLocked s sched dryRun host = some (ending, out))
    (hc : Effect.commit c now ∈ out.log) :
    ∃ bytes lines, files c.record.filename bytes ∧ readLines bytes = some lines ∧
      (c.record.rawLine, c.record.lineNo) ∈ lines.zipIdx 1 := by
  by_cases hend : ending = .finished
  · subst hend
    obtain ⟨r, p, ins, recs, arcs, hfin⟩ := runLocked_finished hpass
    have hing := h.tookIn (ingested_tookIn h.linked hfin.ingest)
    exact hing.sendable ((sendRecords_covered hfin.send) c (hfin.commit_sent hc)).1
  · exact absurd rfl (((runLocked_unfinished hpass hend).2 _ hc).2 c now)

theorem Visible.commits (h : Visible host.db)
    (hpass : runLocked s sched dryRun host = some (ending, out))
    (hc : Effect.commit c now ∈ out.log) : isHidden c.record.filename = false := by
  by_cases hend : ending = .finished
  · subst hend
    obtain ⟨r, p, ins, recs, arcs, hfin⟩ := runLocked_finished hpass
    obtain ⟨startedAt, status, filesSeen, error, t, hlog⟩ := hfin.log
    have hr : Visible r.host.db := by
      rw [hfin.ingested.1]
      refine h.effects fun e he => runLocked_shows hpass e ?_
      rw [hlog]
      simp [he]
    obtain ⟨-, -, f, hf, hname⟩ :=
      Db.mem_sendableRecords.mp ((sendRecords_covered hfin.send) c (hfin.commit_sent hc)).1
    exact hname ▸ hr f (Table.find?_eq_some_iff.mp hf).1
  · exact absurd rfl (((runLocked_unfinished hpass hend).2 _ hc).2 c now)

/-- What a pass commits a result for is a numbered line of a delivered file. -/
theorem commits_delivered (digest : ByteArray → Text) (deeds : List Deed) (host : Host) (s : Site)
    (sched : Schedule) (dryRun : Bool) (ending : Ending) (out : Run)
    (hdigest : ∀ d ∈ deeds, d.Digests digest) (hrun : Machine.run deed {} deeds = some host)
    (hs : s.sha256 = digest) (hpass : runLocked s sched dryRun host = some (ending, out)) :
    ∀ c now, Effect.commit c now ∈ out.log → ∃ bytes lines,
      Delivered deeds c.record.filename bytes ∧ readLines bytes = some lines ∧
        (c.record.rawLine, c.record.lineNo) ∈ lines.zipIdx 1 := by
  subst hs
  exact fun c now hc => (Sourced.run hdigest hrun).commits hpass hc

theorem exists_commit_of_log {log : List Effect}
    (h : (log.filterMap Effect.committed?).isEmpty = false) :
    ∃ c now, Effect.commit c now ∈ log := by
  obtain ⟨c, hc⟩ := List.exists_mem_of_ne_nil _ (List.isEmpty_eq_false_iff.mp h)
  obtain ⟨e, he, hec⟩ := List.mem_filterMap.mp hc
  cases e with
  | commit d now => exact ⟨d, now, he⟩
  | _ => cases hec

theorem exists_commit {ran : Option (Ending × Run)}
    (h : ran.map (fun out => (out.1, (out.2.log.filterMap Effect.committed?).isEmpty)) =
      some (.finished, false)) :
    ∃ out c now, ran = some (.finished, out) ∧ Effect.commit c now ∈ out.log := by
  obtain ⟨⟨ending, out⟩, rfl, hends⟩ := Option.map_eq_some_iff.mp h
  obtain ⟨rfl, hsome⟩ := Prod.mk.inj hends
  obtain ⟨c, now, hc⟩ := exists_commit_of_log hsome
  exact ⟨out, c, now, rfl, hc⟩

theorem commits_delivered_retriedArchive :
    ∃ host out c now, Machine.run deed {} retriedArchive = some host ∧
      runLocked (answering accepted) { first := [[0]], resend := [], recompute := [1] } false
        host = some (.finished, out) ∧
      Effect.commit c now ∈ out.log ∧ ∃ bytes lines,
        Delivered retriedArchive c.record.filename bytes ∧ readLines bytes = some lines ∧
          (c.record.rawLine, c.record.lineNo) ∈ lines.zipIdx 1 := by
  have hends : ((Machine.run deed {} retriedArchive).bind fun host => runLocked
      (answering accepted) { first := [[0]], resend := [], recompute := [1] } false host).map
        (fun out => (out.1, (out.2.log.filterMap Effect.committed?).isEmpty)) =
      some (.finished, false) := by decide
  obtain ⟨out, c, now, hout, hc⟩ := exists_commit hends
  obtain ⟨host, hrun, hpass⟩ := Option.bind_eq_some_iff.mp hout
  exact ⟨host, out, c, now, hrun, hpass, hc,
    commits_delivered (answering refused).sha256 retriedArchive host (answering accepted)
      { first := [[0]], resend := [], recompute := [1] } false .finished out
      (by simp [retriedArchive, Deed.Digests]) hrun rfl hpass c now hc⟩

end UbkiUploader
