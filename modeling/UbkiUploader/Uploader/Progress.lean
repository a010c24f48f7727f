import UbkiUploader.Uploader.Provenance

/-!
# How a pass gets to its end

Whatever results the sends come back with, they can finish in some order, so a pass is
never stuck. What keeps it from its end is a file in the inbox that is new and not UTF-8:
the exception leaves before anything is sent, and neither a pass nor a retry takes the file
away.
-/

namespace UbkiUploader

variable {s : Site} {host host' : Host} {name : Text} {bytes : ByteArray} {deeds : List Deed}
  {digest : ByteArray → Text}

-- ---------------------------------------------------------------------------
-- Sending
-- ---------------------------------------------------------------------------

theorem exists_runWave (env : Env) (final : Bool) (sessid : Text) (wave : List Db.SendableRow)
    (p : Pass) : ∃ order out, runWave env final sessid wave order p = some out := by
  have hopened : ([] : List (List Nat)).foldlM (Wave.turn env final sessid)
      (Wave.opened env wave p) = some (Wave.opened env wave p) := rfl
  exact runWave_drains hopened

theorem exists_recover (env : Env) (w : Wave) : ∃ order out, recover env order w = some out := by
  unfold recover
  split
  · split
    · exact ⟨[], _, rfl⟩
    · rename_i sessid p hre
      obtain ⟨order, again, hagain⟩ := exists_runWave env true sessid w.expired p
      exact ⟨order, _, by rw [hagain]; rfl⟩
  · exact ⟨[], _, rfl⟩

theorem exists_sendRecords (env : Env) (db : Db) (summary : RunSummary) :
    ∃ first resend out, sendRecords env first resend db summary = some out := by
  simp only [sendRecords]
  split
  · exact ⟨[], [], _, rfl⟩
  · split
    · exact ⟨[], [], _, rfl⟩
    · rename_i sessid p hauth
      obtain ⟨first, w, hw⟩ :=
        exists_runWave env false sessid (db.sendableRecords env.config.retryCap) p
      obtain ⟨resend, ⟨q, aborted⟩, hq⟩ := exists_recover env w
      exact ⟨first, resend, _, by rw [hw, Option.bind_eq_bind, Option.bind_some, hq]; rfl⟩

-- ---------------------------------------------------------------------------
-- Ingesting
-- ---------------------------------------------------------------------------

def Unreadable (digest : ByteArray → Text) (host : Host) (name : Text) : Prop :=
  ∃ bytes, host.inbox.read name = some bytes ∧
    host.db.getFileByIdentity name (digest bytes) = none ∧ readLines bytes = none

theorem ingestFile_raises (hread : r.host.inbox.read name = some bytes) :
    (∃ e, ingestFile s r name bytes = .error e) ↔ Unreadable s.sha256 r.host name := by
  unfold Unreadable ingestFile
  simp only [hread, Option.some.injEq, exists_eq_left']
  split
  · rename_i hknown
    simp only [reduceCtorEq, exists_false, false_iff, not_and]
    intro hnone
    rw [hnone] at hknown
    cases hknown
  · rename_i hnew
    have hnew : r.host.db.getFileByIdentity name (s.sha256 bytes) = none := by simpa using hnew
    cases readLines bytes with
    | none => simp [hnew]
    | some lines =>
      simp only [reduceCtorEq, and_false, iff_false, not_exists]
      intro e
      split <;> simp

theorem ingestFile_others (h : ingestFile s r name bytes = .ok r') (hne : n ≠ name) :
    Unreadable s.sha256 r'.host n ↔ Unreadable s.sha256 r.host n := by
  simp only [ingestFile] at h
  split at h
  · cases h
    rfl
  · split at h
    · cases h
    · split at h
      · cases h
        rfl
      · cases h
        refine exists_congr fun b => and_congr_right fun _ => and_congr_left fun _ => ?_
        simp only [Db.getFileByIdentity, List.find?_eq_none]
        constructor
        · intro h f hf
          exact h f (Db.mem_files_insertFile.mpr (.inl hf))
        · intro h f hf
          rcases Db.mem_files_insertFile.mp hf with hf | rfl
          · exact h f hf
          · simp [Db.newFile, Ne.symm hne]

theorem ingestNewFiles_raises (s : Site) {names : List Text} (hnodup : names.Nodup) (r : Run) :
    (ingestNewFiles s names r).2 = none ↔ ∀ n ∈ names, ¬Unreadable s.sha256 r.host n := by
  induction names generalizing r with
  | nil => simp [ingestNewFiles]
  | cons name names ih =>
    obtain ⟨hnot, hnodup⟩ := List.nodup_cons.mp hnodup
    rw [ingestNewFiles, List.forall_mem_cons]
    split
    · rename_i hread
      have hmissing : ¬Unreadable s.sha256 r.host name := by
        rintro ⟨b, hb, -⟩
        rw [hread] at hb
        cases hb
      rw [ih hnodup, and_iff_right hmissing]
    · rename_i bytes hread
      have hraises := ingestFile_raises (s := s) hread
      split
      · rename_i r' hok
        have hfine : ¬Unreadable s.sha256 r.host name := by
          rw [← hraises, hok]
          simp
        rw [ih hnodup, and_iff_right hfine]
        refine forall₂_congr fun n hn => not_congr (ingestFile_others hok ?_)
        rintro rfl
        exact hnot hn
      · rename_i e herror
        exact iff_of_false (by simp) fun h => h.1 (hraises.mp ⟨e, herror⟩)

theorem scanFolder_nodup (s : Site) (inbox : Folder Text) : (scanFolder s inbox).Nodup := by
  unfold scanFolder
  rw [(List.perm_insertionSort _ _).nodup_iff]
  exact inbox.keys_nodup.filter _

-- ---------------------------------------------------------------------------
-- The pass
-- ---------------------------------------------------------------------------

/-- A pass that sees a file which is new and not UTF-8 ends in an exception, and no other
does. -/
theorem runLocked_crashed_iff (h : runLocked s sched dryRun host = some (ending, out)) :
    (∃ e, ending = .crashed e) ↔ ∃ n ∈ scanFolder s host.inbox,
    Unreadable s.sha256 host n := by
  have hraises := ingestNewFiles_raises s (scanFolder_nodup s host.inbox) (s.scanned dryRun host)
  rw [Site.scanned_host] at hraises
  rw [← not_iff_not]
  push Not
  rw [← hraises]
  simp only [runLocked] at h
  split at h
  · rename_i r e hing
    cases h
    rw [hing]
    simp
  · rename_i r hing
    rw [hing]
    split at h
    · cases h
      simp
    · obtain ⟨p, -, h⟩ := Option.bind_eq_some_iff.mp h
      obtain ⟨out', -, h⟩ := Option.bind_eq_some_iff.mp h
      cases h
      simp

theorem runLocked_finished_iff (h : runLocked s sched false host = some (ending, out)) :
    ending = .finished ↔ ∀ n ∈ scanFolder s host.inbox, ¬Unreadable s.sha256 host n := by
  have hcrashed := runLocked_crashed_iff h
  have hdry : ending ≠ .dryRun := by
    rintro rfl
    simp only [runLocked] at h
    split at h
    · cases h
    · obtain ⟨p, -, h⟩ := Option.bind_eq_some_iff.mp h
      obtain ⟨out', -, h⟩ := Option.bind_eq_some_iff.mp h
      cases h
  rw [← not_iff_not] at hcrashed
  push Not at hcrashed
  rw [← hcrashed]
  cases ending with
  | dryRun => exact absurd rfl hdry
  | crashed e => simp
  | finished => simp

theorem exists_runLocked (s : Site) (host : Host) :
    ∃ sched ending out, runLocked s sched false host = some (ending, out) := by
  simp only [runLocked]
  split
  · exact ⟨⟨[], [], []⟩, _, _, rfl⟩
  · rename_i r hing
    obtain ⟨first, resend, p, hp⟩ := exists_sendRecords s.toEnv r.host.db r.summary
    obtain ⟨recompute, out, hout⟩ :=
      exists_finishRun s first resend (r.sent s.toEnv p) p.touched
    refine ⟨{ first, resend, recompute }, .finished, out, ?_⟩
    simp only [hp, hout, Bool.false_eq_true, if_false, Option.bind_eq_bind, Option.bind_some]

theorem exists_finished (s : Site) (host : Host)
    (h : ∀ n ∈ scanFolder s host.inbox, ¬Unreadable s.sha256 host n) :
    ∃ sched out, runLocked s sched false host = some (.finished, out) := by
  obtain ⟨sched, ending, out, hrun⟩ := exists_runLocked s host
  obtain rfl := (runLocked_finished_iff hrun).mpr h
  exact ⟨sched, out, hrun⟩

-- ---------------------------------------------------------------------------
-- Whole histories
-- ---------------------------------------------------------------------------

theorem run_intake (hl : Linked host.db) (hdigest : ∀ d ∈ deeds, d.Digests digest)
    (hnone : ∀ inbox, .deliver inbox ∉ deeds)
    (hrun : Machine.run deed host deeds = some host') :
    Intake.Steps digest fileLines host.intake host'.intake := by
  have hturn (h : Host) (d : Deed) (h' : Host) (hl : Linked h.db)
      (hd : d.Digests digest ∧ ∀ inbox, d ≠ .deliver inbox) (hdeed : deed h d = some h') :
      Linked h'.db ∧ Intake.Steps digest fileLines h.intake h'.intake := by
    rcases deed_tookIn hl hd.1 hdeed with ⟨inbox, rfl, -⟩ | htook
    · exact absurd rfl (hd.2 inbox)
    · exact ⟨htook.linked, htook.steps⟩
  have hsteps := (Machine.run_simulates Host.intake (fun h => Linked h.db) hturn hl
    (fun d hd => ⟨hdigest d hd, fun inbox heq => hnone inbox (heq ▸ hd)⟩) hrun).2
  rwa [Relation.reflTransGen_eq_self] at hsteps

theorem unreadable_iff : Unreadable digest host name ↔ ∃ bytes,
    host.intake.folder name = some bytes ∧ ¬host.intake.Knows name (digest bytes) ∧
      fileLines bytes = none := by
  refine exists_congr fun bytes => and_congr_right fun _ => and_congr ?_ ?_
  · rw [← getFileByIdentity_isSome, Bool.not_eq_true, Option.isSome_eq_false_iff,
      Option.isNone_iff_eq_none]
  · rw [fileLines, Option.map_eq_none_iff]

/-- A new file that is not UTF-8 stays in the inbox through every pass and retry, and each
pass that sees it ends in an exception before anything is sent. -/
theorem unreadable_blocks (hl : Linked host.db) (hhidden : isHidden name = false)
    (hun : Unreadable digest host name) (deeds : List Deed)
    (hdigest : ∀ d ∈ deeds, d.Digests digest) (hnone : ∀ inbox, .deliver inbox ∉ deeds)
    (hrun : Machine.run deed host deeds = some host') :
    Unreadable digest host' name ∧ ∀ s sched dryRun ending out, s.sha256 = digest →
      s.eligible name → runLocked s sched dryRun host' = some (ending, out) →
        (∃ e, ending = .crashed e) ∧ ∀ c now, .commit c now ∉ out.log := by
  have hstays : Unreadable digest host' name := by
    obtain ⟨bytes, hread, hnew, hlines⟩ := unreadable_iff.mp hun
    obtain ⟨hread', hnew'⟩ := (run_intake hl hdigest hnone hrun).stays hlines hread hnew
    exact unreadable_iff.mpr ⟨bytes, hread', hnew', hlines⟩
  refine ⟨hstays, ?_⟩
  rintro s sched dryRun ending out rfl heligible hout
  have hscan : name ∈ scanFolder s host'.inbox := by
    obtain ⟨bytes, hread, -⟩ := hstays
    rw [scanFolder, List.mem_insertionSort, List.mem_filter, hhidden, heligible]
    exact ⟨Folder.read_isSome_iff.mp (by rw [hread]; rfl), rfl⟩
  have hcrash := (runLocked_crashed_iff hout).mpr ⟨name, hscan, hstays⟩
  obtain ⟨e, rfl⟩ := hcrash
  refine ⟨⟨e, rfl⟩, fun c now hc => ?_⟩
  exact ((runLocked_unfinished hout (by simp)).2 _ hc).2 c now rfl

def crypticHost : Host :=
  { inbox := AList.singleton (Text.lit "a.txt") (ByteArray.mk #[0xff]) }

def twoPasses : List Deed :=
  [.pass (answering accepted) { first := [], resend := [], recompute := [] } true,
   .retry (.file 1) 3,
   .pass (answering accepted) { first := [], resend := [], recompute := [] } false]

theorem unreadable_blocks_cryptic :
    ∃ host', Machine.run deed crypticHost twoPasses = some host' ∧
      Unreadable (answering accepted).sha256 host' (Text.lit "a.txt") := by
  have hruns : (Machine.run deed crypticHost twoPasses).isSome = true := by decide
  obtain ⟨host', hrun⟩ := Option.isSome_iff_exists.mp hruns
  have hun : Unreadable (answering accepted).sha256 crypticHost (Text.lit "a.txt") :=
    ⟨_, rfl, rfl, by decide⟩
  have hstays := unreadable_blocks (by simp [Linked, crypticHost, Table.empty]) rfl hun
    twoPasses (by simp [twoPasses, Deed.Digests]) (by simp [twoPasses]) hrun
  exact ⟨host', hrun, hstays.1⟩

end UbkiUploader
