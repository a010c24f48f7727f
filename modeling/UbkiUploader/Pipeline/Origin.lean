import UbkiUploader.Pipeline.Inbox
import UbkiUploader.Pipeline.Processed
import UbkiUploader.Uploader.Settled

/-!
# Where packages come from

Over a whole history of raw files, runs of the enricher and whatever is done with the
uploader: what is sent to the bureau is a package that the enricher made of a line of a raw
file, or else a line of a file that was put into the inbox by hand.
-/

namespace UbkiUploader

open Db (SendableRow)

variable {digest : ByteArray → Text} {chores later hist : List Chore} {c : Chore} {m m' : Mount}
  {n : Text} {bytes : ByteArray}

inductive Origin (chores : List Chore) (n : Text) (bytes : ByteArray) : Prop
  | byHand (inbox : Folder Text) (hmem : .upload (.deliver inbox) ∈ chores)
      (hread : inbox.read n = some bytes)
  | packed (s : EnrichSite) (name : Text) (cut : Option Nat) (raw : ByteArray)
      (numbered : List (Nat × Text)) (hmem : .process s name cut ∈ chores)
      (hraw : Dropped chores name raw) (hpacks : Packs (s.env name) raw bytes numbered)
      (hname : Bound name (s.sha256 raw) n)

theorem Dropped.append (h : Dropped chores n bytes) (later : List Chore) :
    Dropped (chores ++ later) n bytes := by
  obtain ⟨folder, hmem, hread⟩ := h
  exact ⟨folder, List.mem_append_left _ hmem, hread⟩

theorem Origin.append (h : Origin chores n bytes) (later : List Chore) :
    Origin (chores ++ later) n bytes := by
  cases h with
  | byHand inbox hmem hread => exact .byHand inbox (List.mem_append_left _ hmem) hread
  | packed s name cut raw numbered hmem hraw hpacks hname =>
    exact .packed s name cut raw numbered (List.mem_append_left _ hmem) (hraw.append later) hpacks
      hname

-- ---------------------------------------------------------------------------
-- Histories
-- ---------------------------------------------------------------------------

/-- What holds of the folders and the tables after the chores `hist`. -/
structure Supplied (digest : ByteArray → Text) (hist : List Chore) (m : Mount) : Prop where
  sourced : Sourced digest (Origin hist) m.host
  complete : Complete m.host.db
  visible : Visible m.host.db
  dropped : ∀ n b, m.raw.read n = some b → Dropped hist n b

theorem Worked.same {env : EnrichEnv} (h : Worked env name raw m m') :
    Same m.host.db m'.host.db := by
  rw [h.db]
  exact ⟨rfl, rfl⟩

theorem Worked.complete {env : EnrichEnv} (h : Worked env name raw m m')
    (hdb : Complete m.host.db) : Complete m'.host.db := by
  rw [h.db]
  exact ⟨hdb.lines, hdb.files⟩

namespace Supplied

theorem start : Supplied digest [] { host := {} } where
  sourced := .start
  complete := ⟨by simp [Table.empty], by simp [Table.empty]⟩
  visible := by simp [Visible, Table.empty]
  dropped := by simp

theorem append (h : Supplied digest hist m) (later : List Chore) :
    Supplied digest (hist ++ later) m where
  sourced := h.sourced.mono fun _ _ hfrom => hfrom.append later
  complete := h.complete
  visible := h.visible
  dropped := fun n b hread => (h.dropped n b hread).append later

theorem worked {s : EnrichSite} {name : Text} {raw : ByteArray} (h : Supplied s.sha256 hist m)
    (hmem : .process s name cut ∈ hist)
    (hread : m.raw.read name = some raw) (hworked : Worked (s.env name) name raw m m') :
    Supplied s.sha256 hist m' := by
  have hledger : m'.host.intake.ledger = m.host.intake.ledger := hworked.same.ledger
  refine ⟨⟨h.sourced.linked.same hworked.same, h.sourced.unique.congr hledger, fun n b hb => ?_,
    fun i e he => h.sourced.entries i e (hledger ▸ he)⟩, hworked.complete h.complete,
    h.visible.same hworked.same, ?_⟩
  · rcases hworked.inbox.comes n b hb with hold | ⟨hname, numbered, hpacks⟩
    · exact h.sourced.inbox n b hold
    · exact .packed s name cut raw numbered hmem (h.dropped name raw hread) hpacks hname
  · intro n b hb
    rcases Relation.reflGen_iff _ _ _ |>.mp hworked.filing with hsame | hstep
    · have hraw : m'.raw.read = m.raw.read := congrArg Filing.State.source hsame
      exact h.dropped n b (hraw ▸ hb)
    · exact h.dropped n b (hstep.source_of hb)

theorem chore (h : Supplied digest hist m) (hc : c.Digests digest) (hchore : chore m c = some m') :
    Supplied digest (hist ++ [c]) m' := by
  have hbefore := h.append [c]
  cases c with
  | drop raw =>
    cases hchore
    exact ⟨hbefore.sourced, h.complete, h.visible, fun n b hread => ⟨raw, by simp, hread⟩⟩
  | process s name cut =>
    obtain rfl := hc
    obtain ⟨raw, hread, rfl⟩ := Option.map_eq_some_iff.mp hchore
    exact hbefore.worked (List.mem_append_right _ (List.mem_singleton_self _)) hread
      (attempt_worked hread {} cut)
  | upload d =>
    obtain ⟨host, hdeed, rfl⟩ := Option.map_eq_some_iff.mp hchore
    refine ⟨?_, h.complete.deed hdeed, h.visible.deed hdeed, hbefore.dropped⟩
    rcases deed_tookIn h.sourced.linked hc hdeed with ⟨inbox, rfl, rfl⟩ | htook
    · exact hbefore.sourced.deliver fun n b hread => .byHand inbox (by simp) hread
    · exact hbefore.sourced.tookIn htook

theorem run (hdigest : ∀ c ∈ chores, c.Digests digest)
    (hrun : Machine.run UbkiUploader.chore { host := {} } chores = some m) :
    Supplied digest chores m := by
  have hinv := Machine.run_invariant
    (fun hist m => (∀ c ∈ hist, c.Digests digest) → Supplied digest hist m)
    (fun _ => start) (fun hist m c m' ih hchore hall => ?_) hrun
  · exact hinv hdigest
  · exact (ih fun c hc => hall c (List.mem_append_left _ hc)).chore (hall c (by simp)) hchore

end Supplied

-- ---------------------------------------------------------------------------
-- What is sent
-- ---------------------------------------------------------------------------

inductive RecordOrigin (chores : List Chore) (x : SendableRow) : Prop
  /-- It is a line of a file that was put into the inbox by hand. -/
  | line (inbox : Folder Text) (bytes : ByteArray) (lines : List Text)
      (hmem : .upload (.deliver inbox) ∈ chores) (hfile : inbox.read x.filename = some bytes)
      (hread : readLines bytes = some lines) (hline : (x.rawLine, x.lineNo) ∈ lines.zipIdx 1)
  /-- It is the package of a line of a raw file, and its file is called after that one. -/
  | package (s : EnrichSite) (name : Text) (cut : Option Nat) (raw : ByteArray)
      (numbered : List (Nat × Text)) (line : Nat × Text) (subject : Subject) (stats : DocStats)
      (hmem : .process s name cut ∈ chores) (hraw : Dropped chores name raw)
      (hname : OwnName name (s.sha256 raw) x.filename)
      (hread : readNumberedLines raw = some numbered) (hline : line ∈ numbered)
      (houtcome : fileOutcome (s.env name) numbered line.2 = .ok (subject, stats))
      (hpackage : x.rawLine = subject.dumps)

/-- Whatever is done, a pass sends nothing but packages that the enricher made of the lines of
raw files, and the lines of files that were put into the inbox by hand. -/
theorem pipeline_provenance (digest : ByteArray → Text) (chores : List Chore)
    (m : Mount) (s : Site)
    (sched : Schedule) (dryRun : Bool) (ending : Ending) (out : Run)
    (hdigest : ∀ c ∈ chores, c.Digests digest)
    (hrun : Machine.run chore { host := {} } chores = some m) (hs : s.sha256 = digest)
    (hpass : runLocked s sched dryRun m.host = some (ending, out)) :
    ∀ c now, Effect.commit c now ∈ out.log → RecordOrigin chores c.record := by
  subst hs
  intro c now hc
  have h := Supplied.run hdigest hrun
  obtain ⟨bytes, lines, horigin, hread, hline⟩ := h.sourced.commits hpass hc
  have hvisible := h.visible.commits hpass hc
  cases horigin with
  | byHand inbox hmem hfile => exact .line inbox bytes lines hmem hfile hread hline
  | packed es name cut raw numbered hmem hraw hpacks hname =>
    have hlines : (lines.zipIdx 1) = (enrichedOf (es.env name) numbered).zipIdx 1 := by
      have hfile := fileLines_enriched hpacks.data
      rw [fileLines, hread] at hfile
      exact Option.some.inj hfile
    have hmem' : c.record.rawLine ∈ enrichedOf (es.env name) numbered := by
      rw [hlines] at hline
      exact List.fst_mem_of_mem_zipIdx hline
    obtain ⟨line, hline, subject, stats, houtcome, hpackage⟩ := mem_enrichedOf.mp hmem'
    refine .package es name cut raw numbered line subject stats hmem hraw ?_ hpacks.read hline
      houtcome hpackage
    obtain ⟨target, hown, heq | heq⟩ := hname
    · exact heq ▸ hown
    · rw [heq, isHidden_tmpName] at hvisible
      cases hvisible

-- ---------------------------------------------------------------------------
-- The client's raw file goes through both
-- ---------------------------------------------------------------------------

def clientMade : Mount := (runEnrich clientSite false clientRaw).mount

def clientUploads : Site := { answering accepted with sha256 := clientSite.sha256 }

theorem encodeLines_forgetful :
    encodeLines (enrichedOf forgetfulEnv [(1, Text.lit clientLine)]) = some clientData := by
  rw [enrichedOf_forgetful, encodeLines_clientPackage]

theorem writes_forgetful : Writes forgetfulEnv [(1, Text.lit clientLine)] where
  lines := by
    rw [enrichedOf_forgetful]
    exact List.cons_ne_nil _ _
  ended summary := by
    have h : (enrichAll forgetfulEnv [(1, Text.lit clientLine)] {}).2 = none := by decide +kernel
    exact enrichAll_eq_none.mpr (enrichAll_eq_none.mp h)

theorem attempt_client : attempt forgetfulEnv clientRaw (Text.lit "a.jsonl")
    clientLine.toByteArray {} none = clientMade := by
  have hread : clientRaw.raw.read (Text.lit "a.jsonl") = some clientLine.toByteArray := rfl
  have henv : clientSite.env (Text.lit "a.jsonl") = forgetfulEnv := rfl
  have hmade := runEnrich_chores clientSite clientRaw
  rw [scanRaw_client, List.map_singleton, Machine.run_cons] at hmade
  simp only [chore, hread, henv, Option.map_some, Option.bind_some, Machine.run_nil,
    Option.some.injEq] at hmade
  exact hmade

theorem clientMade_read : clientMade.host.inbox.read (Text.lit "a.jsonl") = some clientData := by
  have hatt : Attempted forgetfulEnv (Text.lit "a.jsonl") clientLine.toByteArray clientData
      [(1, Text.lit clientLine)] clientRaw clientMade none :=
    attempt_client ▸ attempt_attempted clientRaw {} none client_numbered encodeLines_forgetful
  exact hatt.placed writes_forgetful rfl fun _ h => by cases h

def clientHost : Host where
  db := { enrichedFiles := clientMade.host.db.enrichedFiles }
  inbox := clientMade.host.inbox

theorem host_client : clientMade.host = clientHost := by
  have hworked : Worked forgetfulEnv (Text.lit "a.jsonl") clientLine.toByteArray clientRaw
      clientMade := attempt_client ▸ attempt_worked rfl {} none
  have hdb := hworked.db
  have harchive := hworked.archive
  unfold clientHost
  generalize clientMade = m at *
  obtain ⟨⟨db, inbox, archive⟩, raw, quarantine, processed⟩ := m
  simp only at hdb harchive ⊢
  rw [harchive]
  congr 1

def clientStart : Run :=
  { host := clientHost, summary := { filesSeen := [Text.lit "a.jsonl"].length } }

def clientTaken : Run :=
  ({ clientStart with summary := { clientStart.summary with
    filesNew := clientStart.summary.filesNew + 1 } } : Run).perform
    (.insertFile (Text.lit "a.jsonl") (clientUploads.sha256 clientData) clientData.size
      [clientPackage] (clientUploads.uuid4 clientStart.log.length)
      (clientUploads.utcnow clientStart.log.length))

theorem ingestNewFiles_new {s : Site} {r : Run} {name : Text} {bytes : ByteArray}
    {lines : List Text} (hread : r.host.inbox.read name = some bytes)
    (hnew : r.host.db.getFileByIdentity name (s.sha256 bytes) = none)
    (hlines : readLines bytes = some lines) (hne : lines ≠ []) (hdry : r.summary.dryRun = false) :
    ingestNewFiles s [name] r =
      (({ r with summary := { r.summary with filesNew := r.summary.filesNew + 1 } } : Run).perform
        (.insertFile name (s.sha256 bytes) bytes.size lines (s.uuid4 r.log.length)
          (s.utcnow r.log.length)), none) := by
  simp only [ingestNewFiles, hread, ingestFile, hnew, hlines, hne, hdry, Option.isSome_none,
    Bool.false_eq_true, if_false, Nat.add_zero]

theorem clientStart_ingested :
    ingestNewFiles clientUploads [Text.lit "a.jsonl"] clientStart = (clientTaken, none) := by
  have hread : clientStart.host.inbox.read (Text.lit "a.jsonl") = some clientData := by
    rw [show clientStart.host = clientHost from rfl, ← host_client]
    exact clientMade_read
  have hnew : clientStart.host.db.getFileByIdentity (Text.lit "a.jsonl")
      (clientUploads.sha256 clientData) = none := by
    have hempty : clientStart.host.db.files.rows = [] := rfl
    rw [Db.getFileByIdentity, hempty, List.find?_nil]
  obtain ⟨lines, hlines, hzip⟩ :=
    Option.map_eq_some_iff.mp (fileLines_enriched encodeLines_forgetful)
  have heq := congrArg (List.map Prod.fst) hzip
  rw [List.zipIdx_map_fst, List.zipIdx_map_fst, enrichedOf_forgetful] at heq
  exact @ingestNewFiles_new clientUploads clientStart _ _ _ hread hnew (heq ▸ hlines)
    (List.cons_ne_nil _ _) rfl

theorem clientTaken_sent : (sendRecords clientUploads.toEnv [[0]] [] clientTaken.host.db
    clientTaken.summary).map (fun p => (buildAlert p.summary, (commits p.trace).isEmpty)) =
      some (none, false) := by decide +kernel

theorem clientMade_uploaded : ∃ sched out,
    runLocked clientUploads sched false clientMade.host = some (.finished, out) ∧
      buildAlert out.summary = none ∧ ∃ c now, Effect.commit c now ∈ out.log := by
  obtain ⟨p, hp, hends⟩ := Option.map_eq_some_iff.mp clientTaken_sent
  obtain ⟨hquiet, hcommits⟩ := Prod.mk.inj hends
  obtain ⟨recompute, out, hfinish⟩ := exists_finishRun clientUploads [[0]] []
    (clientTaken.sent clientUploads.toEnv p) p.touched
  have hsettles := finishRun_settles hp hfinish
  have hsilent : buildAlert out.summary = none := by
    obtain ⟨n, hsummary⟩ := hsettles.summary
    rw [hsummary]
    exact hquiet
  obtain ⟨c, hc⟩ := List.exists_mem_of_ne_nil _ (List.isEmpty_eq_false_iff.mp hcommits)
  have hscan : scanFolder clientUploads clientHost.inbox = [Text.lit "a.jsonl"] := by
    rw [← host_client]
    decide +kernel
  have hskip : skippedFolder clientUploads clientHost.inbox = 0 :=
    List.countP_eq_zero.mpr fun n _ h => by simp [clientUploads, answering] at h
  have hstart : clientUploads.scanned false clientHost = clientStart := by
    rw [Site.scanned, hscan, hskip]
    rfl
  have hing : clientUploads.ingested clientHost = (clientTaken, none) := by
    rw [Site.ingested, hscan, hstart]
    exact clientStart_ingested
  -- Kept closed the folders would be computed where terms are compared.
  generalize clientTaken = taken at *
  refine ⟨{ first := [[0]], resend := [], recompute }, out, ?_, hsilent, c,
    hsettles.commits c hc⟩
  rw [host_client]
  generalize clientHost = host at *
  exact runLocked_of_phases hing hp hfinish

theorem pipeline_provenance_client :
    ∃ m sched out c now,
      Machine.run chore { host := {} }
        [.drop clientRaw.raw, .process clientSite (Text.lit "a.jsonl") none] = some m ∧
      runLocked clientUploads sched false m.host = some (.finished, out) ∧
      Effect.commit c now ∈ out.log ∧
        RecordOrigin [.drop clientRaw.raw, .process clientSite (Text.lit "a.jsonl") none]
          c.record := by
  have hrun : Machine.run chore { host := {} }
      [.drop clientRaw.raw, .process clientSite (Text.lit "a.jsonl") none] = some clientMade := by
    have hmade := runEnrich_chores clientSite clientRaw
    rw [scanRaw_client, List.map_singleton] at hmade
    have hboth : Machine.run chore { host := {} } ([.drop clientRaw.raw] ++
        [.process clientSite (Text.lit "a.jsonl") none]) =
        some (runEnrich clientSite false clientRaw).mount := Machine.run_append_of rfl hmade
    rwa [List.singleton_append] at hboth
  obtain ⟨sched, out, hpass, -, c, now, hc⟩ := clientMade_uploaded
  exact ⟨clientMade, sched, out, c, now, hrun, hpass, hc,
    pipeline_provenance clientSite.sha256 _ clientMade clientUploads sched false
      .finished out (by simp [Chore.Digests]) hrun rfl hpass c now hc⟩

end UbkiUploader
