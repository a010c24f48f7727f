import UbkiUploader.Pipeline.Origin

/-!
# From a raw line to the bureau

A run of the enricher without an alert, and after it a pass of the uploader without one: the
package of every line of every new raw file is in a record that was sent, or that was there
before and is not sent again.
-/

namespace UbkiUploader

variable {m : Mount}

-- ---------------------------------------------------------------------------
-- Records
-- ---------------------------------------------------------------------------

/-- The package is in a record of the file, which was sent, or was there before and is such that
no pass selects it. -/
def Reached (cap : Nat) (before after : Db) (filename package : Text) : Prop :=
  ∃ file ∈ after.files.rows, file.filename = filename ∧ ∃ row ∈ after.records.rows,
    row.fileId = file.id ∧ row.rawLine = package ∧
      (row.status = .sent ∨ row ∈ before.records.rows ∧ Db.sendable cap row = false)

/-- What a run of the enricher puts into the inbox is old enough for the pass (`os.utime`). -/
def Backdated (es : EnrichSite) (up : Site) (m : Mount) : Prop :=
  ∀ f ∈ rawFiles (scanRaw es m.raw) m.raw, ∀ t, OwnName f.1 (es.sha256 f.2) t →
    up.aged t = true

theorem eligible_of_quiet {up : Site} {host : Host}
    (hpass : runLocked up sched false host = some (.finished, out))
    (hquiet : buildAlert out.summary = none) (hvisible : isHidden target = false)
    (hread : host.inbox.read target = some data) (haged : up.aged target = true) :
    up.eligible target = true := by
  have hskipped := (buildAlert_eq_none.mp hquiet).2.2.2.2.1
  rw [runLocked_filesSkipped hpass, skippedFolder, List.countP_eq_zero] at hskipped
  have hglobbed := hskipped target (Folder.read_isSome_iff.mp (by rw [hread]; rfl))
  rw [hvisible] at hglobbed
  simpa [Site.eligible, haged] using hglobbed

/-- A pass that sees packages has their records, where digests tell the files apart. -/
theorem placed_lines {up : Site} {env : EnrichEnv} {all : List Chore}
    (h : Supplied up.sha256 all m) (heligible : up.eligible target = true)
    (hcollide : ∀ n b b', Origin all n b → Origin all n b' →
      up.sha256 b = up.sha256 b' → b = b')
    (hpass : runLocked up sched false m.host = some (.finished, out))
    (hpacks : Packs env raw data numbered) (hvisible : isHidden target = false)
    (hread : m.host.inbox.read target = some data) :
    ∃ file ∈ out.host.db.files.rows, file.filename = target ∧
      linesOf out.host.db file.id = (enrichedOf env numbered).zipIdx 1 := by
  have hscan : target ∈ scanFolder up m.host.inbox := by
    rw [scanFolder, List.mem_insertionSort, List.mem_filter, hvisible, heligible]
    exact ⟨Folder.read_isSome_iff.mp (by rw [hread]; rfl), rfl⟩
  obtain ⟨file, hfile, hname, hsha⟩ :=
    knows_iff.mp (runLocked_knows h.sourced.linked hpass hscan hread)
  have hdeed : deed m.host (.pass up sched false) = some out.host := by
    simp only [deed, hpass, Option.map_some]
  have hup := pass_uploaded h.sourced.linked hdeed
  have hafter := h.sourced.tookIn ⟨hup.steps, hup.linked⟩
  obtain ⟨bytes, hbytes, hdigest, hlines⟩ :=
    hafter.entries file.id _ (ledger_eq_some.mpr ⟨file, hfile, rfl, rfl⟩)
  obtain rfl : bytes = data := hcollide target bytes data (hname ▸ hbytes)
    (h.sourced.inbox target data hread) (hdigest.trans hsha)
  exact ⟨file, hfile, hname,
    Option.some.inj (hlines.symm.trans (fileLines_enriched hpacks.data))⟩

/-- After a run of the enricher and a pass of the uploader, both without an alert, the package of
every line of every new raw file has reached the bureau, or had been given up before. -/
theorem pipeline_delivers (chores : List Chore) (m : Mount) (es : EnrichSite) (up : Site)
    (sched : Schedule) (out : Run) (hdigest : ∀ c ∈ chores, c.Digests es.sha256)
    (hsame : up.sha256 = es.sha256) (hrun : Machine.run chore { host := {} } chores = some m)
    (hapart : TargetsApart es m)
    (hcollide : ∀ n b b',
      Origin (chores ++ (scanRaw es m.raw).map fun n => .process es n none) n b →
      Origin (chores ++ (scanRaw es m.raw).map fun n => .process es n none) n b' →
        es.sha256 b = es.sha256 b' → b = b')
    (hsilent : buildEnrichAlert (runEnrich es false m).report = none)
    (haged : Backdated es up m) (hc : 1 ≤ up.config.ubkiConcurrency)
    (hpass : runLocked up sched false (runEnrich es false m).mount.host = some (.finished, out))
    (hquiet : buildAlert out.summary = none) :
    ∀ f ∈ rawFiles (scanRaw es m.raw) m.raw,
      m.host.db.getEnrichedByIdentity f.1 (es.sha256 f.2) = none →
        ∃ numbered target, readNumberedLines f.2 = some numbered ∧ numbered ≠ [] ∧
          OwnName f.1 (es.sha256 f.2) target ∧ ∀ line ∈ numbered, ∃ subject stats,
            fileOutcome (es.env f.1) numbered line.2 = .ok (subject, stats) ∧
              Reached up.config.retryCap (runEnrich es false m).mount.host.db out.host.db target
                subject.dumps := by
  intro f hf hnew
  have hall : Supplied up.sha256 (chores ++ (scanRaw es m.raw).map fun n => .process es n none)
      (runEnrich es false m).mount := by
    refine Supplied.run (fun c hc => ?_) (Machine.run_append_of hrun (runEnrich_chores es m))
    rw [hsame]
    rcases List.mem_append.mp hc with hc | hc
    · exact hdigest c hc
    · obtain ⟨n, -, rfl⟩ := List.mem_map.mp hc
      rfl
  obtain ⟨hwhole, numbered, data, target, hpacks, hown, hread⟩ :=
    runEnrich_placed hapart hsilent hf hnew
  obtain ⟨numbered', hnumbered, hne, hlines⟩ := hwhole.lines
  obtain rfl : numbered' = numbered := Option.some.inj (hnumbered.symm.trans hpacks.read)
  rw [← hsame] at hcollide
  have hvisible := hapart.not_hidden hf hown
  obtain ⟨file, hfile, hname, hrecords⟩ := placed_lines hall
    (eligible_of_quiet hpass hquiet hvisible hread (haged f hf target hown)) hcollide hpass hpacks
    hvisible hread
  refine ⟨numbered', target, hnumbered, hne, hown, fun line hline => ?_⟩
  obtain ⟨subject, stats, houtcome, -⟩ := hlines line hline
  refine ⟨subject, stats, houtcome, file, hfile, hname, ?_⟩
  have hpackage : subject.dumps ∈ (linesOf out.host.db file.id).map (·.1) := by
    rw [hrecords, List.zipIdx_map_fst]
    exact mem_enrichedOf.mpr ⟨line, hline, subject, stats, houtcome, rfl⟩
  obtain ⟨x, hx, hdumps⟩ := List.mem_map.mp hpackage
  obtain ⟨row, hrow, rfl⟩ := List.mem_map.mp hx
  obtain ⟨hrow, hid⟩ := List.mem_filter.mp hrow
  refine ⟨row, hrow, by simpa using hid, hdumps, ?_⟩
  rcases (runLocked_silent hall.complete hc hpass hquiet).2 row hrow with hold | ⟨hsent, -⟩
  · exact .inr hold
  · exact .inl hsent

-- ---------------------------------------------------------------------------
-- The client's raw file goes through both
-- ---------------------------------------------------------------------------

theorem origin_client {n : Text} {b : ByteArray}
    (h : Origin ([.drop clientRaw.raw] ++ (scanRaw clientSite clientRaw.raw).map fun n =>
      .process clientSite n none) n b) : b = clientData := by
  cases h with
  | byHand inbox hmem hread => simp [scanRaw_client] at hmem
  | packed s name cut raw numbered hmem hraw hpacks hname =>
    obtain rfl : s = clientSite := by
      simp only [scanRaw_client, List.map_singleton, List.singleton_append, List.mem_cons,
        reduceCtorEq, List.not_mem_nil, Chore.process.injEq, or_false, false_or] at hmem
      exact hmem.1
    obtain ⟨-, rfl⟩ := dropped_client (by simp) hraw
    obtain rfl := Option.some.inj (hpacks.read.symm.trans client_numbered)
    exact (Option.some.inj (encodeLines_forgetful.symm.trans hpacks.data)).symm

theorem pipeline_delivers_client : ∃ sched out,
    runLocked clientUploads sched false (runEnrich clientSite false clientRaw).mount.host =
      some (.finished, out) ∧
    ∃ numbered target, readNumberedLines clientLine.toByteArray = some numbered ∧
    numbered ≠ [] ∧
      OwnName (Text.lit "a.jsonl") (clientSite.sha256 clientLine.toByteArray) target ∧
      ∀ line ∈ numbered, ∃ subject stats,
        fileOutcome (clientSite.env (Text.lit "a.jsonl")) numbered line.2 = .ok (subject, stats) ∧
          Reached clientUploads.config.retryCap (runEnrich clientSite false clientRaw).mount.host.db
            out.host.db target subject.dumps := by
  obtain ⟨sched, out, hpass, hquiet, -⟩ := clientMade_uploaded
  unfold clientMade at hpass
  have hscanned : (Text.lit "a.jsonl", clientLine.toByteArray) ∈
      rawFiles (scanRaw clientSite clientRaw.raw) clientRaw.raw := by
    rw [mem_rawFiles, scanRaw_client]
    exact ⟨List.mem_singleton_self _, rfl⟩
  exact ⟨sched, out, hpass, pipeline_delivers [.drop clientRaw.raw] clientRaw clientSite
    clientUploads sched out (by simp [Chore.Digests]) rfl rfl apart_client
    (fun n b b' hb hb' _ => (origin_client hb).trans (origin_client hb').symm) alert_client
    (fun _ _ _ _ => rfl) (by decide) hpass hquiet _ hscanned rfl⟩

end UbkiUploader
