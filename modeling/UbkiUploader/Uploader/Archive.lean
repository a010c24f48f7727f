import UbkiUploader.Lib.Filing
import UbkiUploader.Uploader.Provenance

/-!
# What becomes of the files in the inbox

A pass takes a file out of the inbox only when its row is not archived yet, and puts it
into the archive. So a file that comes again after it was archived is never taken away,
and nothing is lost where the names of the delivered files keep apart.
-/

namespace UbkiUploader

variable {digest : ByteArray → Text} {deeds later : List Deed} {d : Deed} {host host' : Host}
  {e : Effect} {fx : List Effect} {s : Site} {r : Run} {row : FileRow}

def spareName (sha256 name : Text) : Text := sha256.take 8 ++ Text.lit "_" ++ name

def Host.filing (host : Host) : Filing.State Text ByteArray :=
  ⟨host.inbox.read, host.archive.read⟩

-- ---------------------------------------------------------------------------
-- Files that are due
-- ---------------------------------------------------------------------------

/-- The file is that of a row that is not archived, and this is where it goes. -/
def Due (digest : ByteArray → Text) (host : Host) (name target : Text) : Prop :=
  ∃ row ∈ host.db.files.rows, row.archivedAt = none ∧ row.filename = name ∧
    target = uniqueTarget host.archive name row.sha256 ∧
    ∃ bytes, host.inbox.read name = some bytes ∧ digest bytes = row.sha256

def InOrder (digest : ByteArray → Text) : Host → List Effect → Prop
  | _, [] => True
  | host, e :: fx =>
  (∀ name target, e = .toArchive name target → Due digest host name target) ∧
      InOrder digest (e.apply host) fx

namespace InOrder

theorem append : InOrder digest host (a ++ b) ↔
    InOrder digest host a ∧ InOrder digest (a.foldl Effect.apply host) b := by
  induction a generalizing host with
  | nil => simp [InOrder]
  | cons e a ih => simp only [List.cons_append, InOrder, ih, List.foldl_cons, and_assoc]

theorem take (h : InOrder digest host fx) (n : Nat) : InOrder digest host (fx.take n) := by
  rw [← List.take_append_drop n fx, append] at h
  exact h.1

theorem stay (h : ∀ e ∈ fx, e.moves = false) : InOrder digest host fx := by
  induction fx generalizing host with
  | nil => trivial
  | cons e fx ih =>
    refine ⟨?_, ih fun e he => h e (List.mem_cons_of_mem _ he)⟩
    rintro name target rfl
    cases h _ List.mem_cons_self

end InOrder

theorem moves_of_ingests (h : e.ingests) : e.moves = false := by
  cases e with
  | insertFile => rfl
  | _ => cases h

-- ---------------------------------------------------------------------------
-- The moves of a pass
-- ---------------------------------------------------------------------------

theorem archiveFile_inOrder (hrow : row ∈ r.host.db.files.rows) (hnot : row.archivedAt = none) :
    ∃ fx, Did r (archiveFile s r row) fx ∧ InOrder s.sha256 r.host fx ∧
      ∀ f ∈ r.host.db.files.rows, f.id ≠ row.id →
      f ∈ (archiveFile s r row).host.db.files.rows := by
  have hother (h : Host) (now : Timestamp) (f : FileRow) (hf : f ∈ h.db.files.rows)
      (hne : f.id ≠ row.id) :
      f ∈ ((Effect.markArchived row.id now).apply h).db.files.rows :=
    Db.mem_files_markArchived.mpr ⟨f, hf, if_neg hne⟩
  unfold archiveFile
  split
  · exact ⟨_, .perform r _, .stay (by simp [Effect.moves]), hother _ _⟩
  · rename_i bytes hread
    obtain ⟨hread, hsha⟩ := Option.filter_eq_some_iff.mp hread
    refine ⟨_, ((Did.perform r _).trans (.perform _ _)).of_eq rfl rfl, ?_, hother _ _⟩
    refine InOrder.append.mpr ⟨⟨?_, trivial⟩, .stay (by simp [Effect.moves])⟩
    intro name target heq
    cases heq
    exact ⟨row, hrow, hnot, rfl, rfl, bytes, hread, of_decide_eq_true hsha⟩

theorem archiveCompletedFiles_inOrder (s : Site) (r : Run) :
    ∃ fx, Did r (archiveCompletedFiles s r) fx ∧ InOrder s.sha256 r.host fx := by
  unfold archiveCompletedFiles
  have hrows : ∀ row ∈ completedFiles r.host.db,
      row ∈ r.host.db.files.rows ∧ row.archivedAt = none := by
    intro row hrow
    obtain ⟨hmem, hdone⟩ := List.mem_filter.mp hrow
    exact ⟨hmem, Option.isNone_iff_eq_none.mp (Bool.and_eq_true _ _ |>.mp hdone).1⟩
  have hnodup : ((completedFiles r.host.db).map (·.id)).Nodup :=
    r.host.db.files.nodup.sublist (List.filter_sublist.map _)
  revert hrows hnodup
  generalize completedFiles r.host.db = rows
  intro hrows hnodup
  induction rows generalizing r with
  | nil => exact ⟨[], .refl r, trivial⟩
  | cons row rows ih =>
    obtain ⟨hmem, hnot⟩ := hrows row List.mem_cons_self
    obtain ⟨hnew, hnodup⟩ := List.nodup_cons.mp hnodup
    obtain ⟨fx, hdid, hfx, hothers⟩ := archiveFile_inOrder (s := s) hmem hnot
    have hrest : ∀ f ∈ rows, f ∈ (archiveFile s r row).host.db.files.rows ∧
      f.archivedAt = none := by
      intro f hf
      obtain ⟨hf', harch⟩ := hrows f (List.mem_cons_of_mem _ hf)
      refine ⟨hothers f hf' fun heq => hnew ?_, harch⟩
      exact List.mem_map.mpr ⟨f, hf, heq⟩
    obtain ⟨gx, hdid', hgx⟩ := ih (archiveFile s r row) hrest hnodup
    exact ⟨fx ++ gx, hdid.trans hdid', InOrder.append.mpr ⟨hfx, hdid.host ▸ hgx⟩⟩

theorem runLocked_inOrder (h : runLocked s sched dryRun host = some (ending, out)) :
    InOrder s.sha256 host out.log := by
  by_cases hend : ending = .finished
  · subst hend
    obtain ⟨r, p, hing, hp, hout⟩ := runLocked_phases h
    obtain ⟨ins, hins, hingests⟩ :=
      ingestNewFiles_did s (scanFolder s host.inbox) (s.scanned false host)
    rw [Site.ingested] at hing
    rw [hing] at hins
    simp only [finishRun] at hout
    split at hout
    · cases hout
      obtain ⟨recs, hrec, hrecs, -⟩ := recomputeFiles_did s sched.recompute (r.sent s.toEnv p)
      obtain ⟨arcs, harc, hordered⟩ :=
        archiveCompletedFiles_inOrder s (recomputeFiles s sched.recompute (r.sent s.toEnv p))
      have hbefore := (hins.trans (sent_did hp)).trans hrec
      have hhost := hbefore.host
      rw [Site.scanned_host] at hhost
      change InOrder s.sha256 host ((archiveCompletedFiles s
        (recomputeFiles s sched.recompute (r.sent s.toEnv p))).log ++ [_])
      rw [(hbefore.trans harc).log, Site.scanned_log, List.nil_append, InOrder.append,
        InOrder.append, ← hhost]
      refine ⟨⟨.stay fun e he => ?_, hordered⟩, .stay fun e he => ?_⟩
      · rcases List.mem_append.mp he with he | he
        · rcases List.mem_append.mp he with he | he
          · exact moves_of_ingests (hingests e he)
          · exact effectsFrom_stay he
        · obtain ⟨id, now, rfl⟩ := hrecs e he
          rfl
      · rw [List.mem_singleton.mp he]
        rfl
    · cases hout
  · refine .stay fun e he => ?_
    have hno := ((runLocked_unfinished h hend).2 e he).1
    cases e with
    | toArchive => exact absurd trivial hno
    | _ => rfl

-- ---------------------------------------------------------------------------
-- Filing
-- ---------------------------------------------------------------------------

theorem Due.step (h : Due digest host name target) :
    Filing.Step spareName digest host.filing
      ((Effect.toArchive name target).apply host).filing := by
  obtain ⟨row, -, -, rfl, rfl, bytes, hread, hsha⟩ := h
  have hfiled : ((Effect.toArchive row.filename
      (uniqueTarget host.archive row.filename row.sha256)).apply host).filing =
      { source := Function.update host.filing.source row.filename none
        shelf := Function.update host.filing.shelf
          (Filing.place spareName host.filing.shelf row.filename (digest bytes))
            (some bytes) } := by
    rw [hsha]
    refine congrArg₂ Filing.State.mk (funext fun n => ?_) (funext fun n => ?_)
    · show (host.inbox.move host.archive row.filename _).1.read n = _
      rw [Folder.move_fst hread, Folder.read_remove, Function.update_apply]
      rfl
    · show (host.inbox.move host.archive row.filename _).2.read n = _
      rw [Folder.move_snd hread, Folder.read_write, Function.update_apply]
      rfl
  rw [hfiled]
  exact .file row.filename bytes hread

theorem filing_of_stay (h : e.moves = false) (host : Host) :
    (e.apply host).filing = host.filing := by
  cases e with
  | toArchive => cases h
  | _ => rfl

theorem InOrder.steps (h : InOrder digest host fx) :
    Filing.Steps spareName digest host.filing (fx.foldl Effect.apply host).filing := by
  induction fx generalizing host with
  | nil => exact .refl
  | cons e fx ih =>
    obtain ⟨hdue, hrest⟩ := h
    refine .trans ?_ (ih hrest)
    cases hmoves : e.moves with
    | false => rw [filing_of_stay hmoves]
    | true =>
      cases e with
      | toArchive name target => exact .single (hdue name target rfl).step
      | _ => cases hmoves

-- ---------------------------------------------------------------------------
-- Deeds
-- ---------------------------------------------------------------------------

structure Passed (digest : ByteArray → Text) (host host' : Host) (fx : List Effect) : Prop where
  takesIn : TakesIn digest host fx
  inOrder : InOrder digest host fx
  eq : host' = fx.foldl Effect.apply host

structure Untouched (host host' : Host) : Prop where
  inbox : host'.inbox = host.inbox
  archive : host'.archive = host.archive
  same : Same host.db host'.db
  archived : host'.db.files.rows.map (fun f => (f.filename, f.sha256, f.archivedAt)) =
    host.db.files.rows.map fun f => (f.filename, f.sha256, f.archivedAt)

theorem untouched_recompute (host : Host) (target : Db.ResetTarget) (fileId : Nat)
    (now : Timestamp) : Untouched host
      { host with db := (host.db.resetRecords target).1.recomputeFileStatus fileId now } where
  inbox := rfl
  archive := rfl
  same := (same_reset host.db target).trans (same_recompute _ _ _)
  archived := Table.map_update (fun _ => Db.setStatus_id _) _ fun _ => rfl

theorem untouched_reset (host : Host) (target : Db.ResetTarget) :
    Untouched host { host with db := (host.db.resetRecords target).1 } where
  inbox := rfl
  archive := rfl
  same := same_reset host.db target
  archived := rfl

theorem untouched_retry (host : Host) (target : Db.ResetTarget) (now : Timestamp) :
    Untouched host { host with db := (retry host.db target now).2 } := by
  have hrefl : Untouched host host := ⟨rfl, rfl, ⟨rfl, rfl⟩, rfl⟩
  cases target with
  | file fileId =>
    simp only [retry, retryFile]
    split
    · exact hrefl
    · exact untouched_recompute host _ _ _
  | record recordId =>
    simp only [retry, retryRecord]
    split
    · exact hrefl
    · split
      · exact untouched_reset host _
      · exact untouched_recompute host _ _ _

theorem deed_cases (hl : Linked host.db) (hd : d.Digests digest) (h : deed host d = some host') :
    (∃ inbox, d = .deliver inbox ∧ host' = { host with inbox }) ∨
      (∃ fx, Passed digest host host' fx) ∨ Untouched host host' := by
  cases d with
  | deliver inbox =>
    cases h
    exact .inl ⟨inbox, rfl, rfl⟩
  | pass s sched dryRun =>
    obtain rfl := hd
    obtain ⟨⟨ending, out⟩, hrun, rfl⟩ := Option.map_eq_some_iff.mp h
    exact .inr (.inl ⟨out.log, (runLocked_takesIn hl hrun).2, runLocked_inOrder hrun,
      runLocked_host hrun⟩)
  | cutPass s sched effects handled =>
    obtain rfl := hd
    obtain ⟨⟨ending, out⟩, hrun, rfl⟩ := Option.map_eq_some_iff.mp h
    have hrow : ∀ e ∈ (handled.map (handlerRow s)).toList, e.Still := by
      intro e he
      obtain ⟨row, -, rfl⟩ := Option.map_eq_some_iff.mp (Option.mem_toList.mp he)
      exact ⟨id, rfl⟩
    refine .inr (.inl ⟨_, TakesIn.append.mpr ⟨?_, .still hrow⟩,
      InOrder.append.mpr ⟨?_, .stay fun e he => (hrow e he).2⟩, rfl⟩)
    · exact (runLocked_takesIn hl hrun).2.take effects
    · exact (runLocked_inOrder hrun).take effects
  | retry target now =>
    cases h
    exact .inr (.inr (untouched_retry host target now))
  | cutRetry target =>
    cases h
    exact .inr (.inr (untouched_reset host target))

theorem deed_linked (hl : Linked host.db) (hd : d.Digests digest) (h : deed host d = some host') :
    Linked host'.db := by
  rcases deed_tookIn hl hd h with ⟨inbox, -, rfl⟩ | htook
  · exact hl
  · exact htook.linked

-- ---------------------------------------------------------------------------
-- Nothing is lost
-- ---------------------------------------------------------------------------

/-- The names that files go by where they are filed do not meet: no file is called as another's
spare name, and versions of one name differ in the start of their digests. -/
structure NamesApart (digest : ByteArray → Text) (files : Text → ByteArray → Prop) :
    Prop where
  wide : ∀ bytes, 8 ≤ (digest bytes).length
  names : ∀ n b n' b', files n b → files n' b' → spareName (digest b) n ≠ n'
  versions : ∀ n b b', files n b → files n b' →
    (digest b).take 8 = (digest b').take 8 → b = b'

namespace NamesApart

variable {files : Text → ByteArray → Prop}

theorem apart (h : NamesApart digest files) : Filing.Apart spareName digest files where
  names := h.names _ _ _ _
  contents := by
    intro n b n' b' hfrom hfrom' heq
    have hlen : ((digest b).take 8 ++ Text.lit "_").length =
        ((digest b').take 8 ++ Text.lit "_").length := by
      simp only [List.length_append, List.length_take, Nat.min_eq_left (h.wide _)]
    obtain ⟨hstart, rfl⟩ := List.append_inj heq hlen
    exact h.versions n b b' hfrom hfrom' (List.append_cancel_right hstart)

theorem single (hwide : ∀ bytes, 8 ≤ (digest bytes).length)
    (honly : ∀ n b, files n b → n = name ∧ b = bytes) : NamesApart digest files := by
  refine ⟨hwide, fun n b n' b' hfrom hfrom' heq => ?_, fun n b b' hfrom hfrom' _ => ?_⟩
  · rw [(honly n b hfrom).1, (honly n' b' hfrom').1] at heq
    have := congrArg List.length heq
    have hline : (Text.lit "_").length = 1 := rfl
    simp only [spareName, List.length_append] at this
    omega
  · rw [(honly n b hfrom).2, (honly n b' hfrom').2]

end NamesApart

theorem deed_filed (hl : Linked host.db) (hd : d.Digests digest) (h : deed host d = some host') :
    (∃ inbox, d = .deliver inbox ∧ host' = { host with inbox }) ∨
      Filing.Steps spareName digest host.filing host'.filing := by
  rcases deed_cases hl hd h with hdeliver | ⟨fx, hpassed⟩ | huntouched
  · exact .inl hdeliver
  · right
    rw [hpassed.eq]
    exact hpassed.inOrder.steps
  · right
    rw [show host'.filing = host.filing from
      congrArg₂ (fun i a => Filing.State.mk (Folder.read i) (Folder.read a)) huntouched.inbox
        huntouched.archive]

theorem run_history (hl : Linked host.db) (hdigest : ∀ d ∈ deeds, d.Digests digest)
    (hall : deeds ⊆ all) (hrun : Machine.run deed host deeds = some host') :
    Linked host'.db ∧
      Filing.History spareName digest (Delivered all) host.filing host'.filing := by
  have hturn (h : Host) (d : Deed) (h' : Host) (hl : Linked h.db)
    (hd : d.Digests digest ∧ d ∈ all)
      (hdeed : deed h d = some h') :
      Linked h'.db ∧ Filing.Turn spareName digest (Delivered all) h.filing h'.filing := by
    refine ⟨deed_linked hl hd.1 hdeed, ?_⟩
    rcases deed_filed hl hd.1 hdeed with ⟨inbox, rfl, rfl⟩ | hsteps
    · exact .filled inbox.read fun hread => ⟨inbox, hd.2, hread⟩
    · exact .filed _ hsteps
  exact Machine.run_simulates Host.filing (fun h => Linked h.db) hturn hl
    (fun d hd => ⟨hdigest d hd, hall hd⟩) hrun

theorem run_steps (hl : Linked host.db) (hdigest : ∀ d ∈ later, d.Digests digest)
    (hnone : ∀ inbox, .deliver inbox ∉ later)
    (hrun : Machine.run deed host later = some host') :
    Filing.Steps spareName digest host.filing host'.filing := by
  have hturn (h : Host) (d : Deed) (h' : Host) (hl : Linked h.db)
      (hd : d.Digests digest ∧ ∀ inbox, d ≠ .deliver inbox) (hdeed : deed h d = some h') :
      Linked h'.db ∧ Filing.Steps spareName digest h.filing h'.filing := by
    refine ⟨deed_linked hl hd.1 hdeed, ?_⟩
    rcases deed_filed hl hd.1 hdeed with ⟨inbox, rfl, -⟩ | hsteps
    · exact absurd rfl (hd.2 inbox)
    · exact hsteps
  have hsteps := (Machine.run_simulates Host.filing (fun h => Linked h.db) hturn hl
    (fun d hd => ⟨hdigest d hd, fun inbox heq => hnone inbox (heq ▸ hd)⟩) hrun).2
  rwa [Relation.reflTransGen_eq_self] at hsteps

/-- It waits in the inbox, or is in the archive under one of its names. -/
def Safe (digest : ByteArray → Text) (host : Host) (name : Text) (bytes : ByteArray) : Prop :=
  host.inbox.read name = some bytes ∨ host.archive.read name = some bytes ∨
    host.archive.read (spareName (digest bytes) name) = some bytes

/-- Where the names keep apart the archive only grows, and what a pass takes out of the
inbox is in it. -/
theorem archive_keeps (digest : ByteArray → Text) (deeds later : List Deed) (host host' : Host)
    (hdigest : ∀ d ∈ deeds ++ later, d.Digests digest)
    (hapart : NamesApart digest (Delivered (deeds ++ later)))
    (hrun : Machine.run deed {} deeds = some host)
    (hlater : Machine.run deed host later = some host') :
    (∀ name bytes, host.archive.read name = some bytes →
      host'.archive.read name = some bytes) ∧
    ((∀ inbox, .deliver inbox ∉ later) → ∀ name bytes, host.inbox.read name = some bytes →
      Safe digest host' name bytes) := by
  have hempty : Filing.Fits spareName digest (Delivered (deeds ++ later)) ({} : Host).filing :=
    ⟨by simp [Host.filing], by simp [Host.filing]⟩
  have hdigest' : ∀ d ∈ later, d.Digests digest :=
    fun d hd => hdigest d (List.mem_append_right _ hd)
  obtain ⟨hl, hhistory⟩ := run_history (by simp [Linked, Table.empty])
    (fun d hd => hdigest d (List.mem_append_left _ hd)) (List.subset_append_left deeds later) hrun
  have hfits := hhistory.fits hempty
  refine ⟨fun name bytes hheld => ?_, fun hnone name bytes hread => ?_⟩
  · exact (run_history hl hdigest' (List.subset_append_right deeds later) hlater).2.keeps
      hapart.apart hfits hheld
  · rcases (run_steps hl hdigest' hnone hlater).arrives hapart.apart hfits hread with
      hstays | ⟨u, rfl | rfl, hheld⟩
    · exact .inl hstays
    · exact .inr (.inl hheld)
    · exact .inr (.inr hheld)

def twoLineInbox : Folder Text :=
  AList.singleton (Text.lit "a.txt") (ByteArray.mk #[0x7b, 0x7d, 0x0a, 0x5b, 0x5d, 0x0a])

/-- A pass in which two lines are sent and refused. -/
def refusedBoth : Deed :=
  .pass (answering refused) { first := [[0], [1]], resend := [], recompute := [1] } false

theorem delivered_twoLine (hfrom : Delivered [.deliver twoLineInbox, refusedBoth] n b) :
    n = Text.lit "a.txt" ∧ b = ByteArray.mk #[0x7b, 0x7d, 0x0a, 0x5b, 0x5d, 0x0a] := by
  obtain ⟨inbox, hmem, hread⟩ := hfrom
  simp only [refusedBoth, List.mem_cons, Deed.deliver.injEq, reduceCtorEq, List.not_mem_nil,
    or_false] at hmem
  subst hmem
  rw [show twoLineInbox = (∅ : Folder Text).write (Text.lit "a.txt")
    (ByteArray.mk #[0x7b, 0x7d, 0x0a, 0x5b, 0x5d, 0x0a]) from rfl, Folder.read_write] at hread
  split at hread
  · rename_i hname
    exact ⟨hname, (Option.some.inj hread).symm⟩
  · cases hread

theorem archive_keeps_twoLines :
    ∃ host', Machine.run deed { inbox := twoLineInbox } [refusedBoth] = some host' ∧
      host'.inbox.read (Text.lit "a.txt") = none ∧
      host'.db.records.rows.length = 2 ∧
      Safe (answering refused).sha256 host' (Text.lit "a.txt")
        (ByteArray.mk #[0x7b, 0x7d, 0x0a, 0x5b, 0x5d, 0x0a]) := by
  have hruns : (Machine.run deed { inbox := twoLineInbox } [refusedBoth]).map
      (fun host => ((host.inbox.read (Text.lit "a.txt")).isNone, host.db.records.rows.length)) =
      some (true, 2) := by decide
  obtain ⟨host', hrun, hends⟩ := Option.map_eq_some_iff.mp hruns
  obtain ⟨hgone, hrecords⟩ := Prod.mk.inj hends
  have hwide : 8 ≤ (Text.lit "0123456789").length := by decide
  have hkeeps := archive_keeps (answering refused).sha256 [.deliver twoLineInbox] [refusedBoth]
    { inbox := twoLineInbox } host' (by simp [refusedBoth, Deed.Digests])
    (.single (fun _ => hwide) fun _ _ => delivered_twoLine) rfl hrun
  exact ⟨host', hrun, Option.isNone_iff_eq_none.mp hgone, hrecords,
    hkeeps.2 (by simp [refusedBoth]) (Text.lit "a.txt") _ rfl⟩

-- ---------------------------------------------------------------------------
-- Files that come again
-- ---------------------------------------------------------------------------

def Shelved (db : Db) (name sha256 : Text) : Prop :=
  ∃ f ∈ db.files.rows, f.filename = name ∧ f.sha256 = sha256 ∧ f.archivedAt.isSome

theorem Shelved.effect (h : Shelved db name sha256) (e : Effect) :
    Shelved (e.onDb db) name sha256 := by
  obtain ⟨f, hf, hname, hsha, harch⟩ := h
  cases e with
  | insertFile => exact ⟨f, Db.mem_files_insertFile.mpr (.inl hf), hname, hsha, harch⟩
  | recompute id now =>
    refine ⟨_, Db.mem_files_recompute.mpr ⟨f, hf, rfl⟩, ?_⟩
    split
    · exact ⟨hname, hsha, harch⟩
    · exact ⟨hname, hsha, harch⟩
  | markArchived id now =>
    refine ⟨_, Db.mem_files_markArchived.mpr ⟨f, hf, rfl⟩, ?_⟩
    split
    · exact ⟨hname, hsha, rfl⟩
    · exact ⟨hname, hsha, harch⟩
  | _ => exact ⟨f, hf, hname, hsha, harch⟩

theorem Shelved.untouched (h : Shelved host.db name sha256) (hu : Untouched host host') :
    Shelved host'.db name sha256 := by
  obtain ⟨f, hf, hname, hsha, harch⟩ := h
  have hmem := List.mem_map_of_mem (f := fun f : FileRow => (f.filename, f.sha256, f.archivedAt)) hf
  rw [← hu.archived] at hmem
  obtain ⟨g, hg, heq⟩ := List.mem_map.mp hmem
  obtain ⟨hname', heq⟩ := Prod.mk.inj heq
  obtain ⟨hsha', harch'⟩ := Prod.mk.inj heq
  exact ⟨g, hg, hname'.trans hname, hsha'.trans hsha, harch' ▸ harch⟩

/-- The archived file's row is the only one of its name and digest, and so no file of that
name and digest is due. -/
theorem Shelved.not_due (h : Shelved host.db name (digest bytes)) (hunique : host.intake.Unique)
    (hread : host.inbox.read name = some bytes) : ¬Due digest host name target := by
  rintro ⟨row, hrow, hnot, hname, -, bytes', hread', hsha⟩
  obtain ⟨f, hf, hname', hsha', harch⟩ := h
  obtain rfl : bytes = bytes' := Option.some.inj (hread.symm.trans hread')
  have hid := hunique f.id row.id _ _ (ledger_eq_some.mpr ⟨f, hf, rfl, rfl⟩)
    (ledger_eq_some.mpr ⟨row, hrow, rfl, rfl⟩) (hname'.trans hname.symm) (hsha'.trans hsha)
  rw [Table.eq_of_key hf hrow hid, hnot] at harch
  cases harch

structure Returned (digest : ByteArray → Text) (name : Text) (bytes : ByteArray) (host : Host) :
    Prop where
  linked : Linked host.db
  unique : host.intake.Unique
  shelved : Shelved host.db name (digest bytes)
  waits : host.inbox.read name = some bytes

theorem Returned.effects (h : Returned digest name bytes host) (hin : TakesIn digest host fx)
    (hord : InOrder digest host fx) :
    Returned digest name bytes (fx.foldl Effect.apply host) := by
  induction fx generalizing host with
  | nil => exact h
  | cons e fx ih =>
    refine ih ⟨h.linked.apply e, ?_, ?_, ?_⟩ hin.2 hord.2
    · exact Intake.Steps.unique hin.1.to_reflTransGen h.unique
    · rw [apply_db]
      exact h.shelved.effect e
    · cases e with
      | toArchive n target =>
        have hne : name ≠ n := by
          rintro rfl
          exact h.shelved.not_due h.unique h.waits (hord.1 name target rfl)
        obtain ⟨row, -, -, -, -, bytes', hread, -⟩ := hord.1 n target rfl
        show (host.inbox.move host.archive n target).1.read name = some bytes
        rw [Folder.move_fst hread, Folder.read_remove, if_neg hne]
        exact h.waits
      | _ => exact h.waits

theorem Returned.deed (h : Returned digest name bytes host) (hd : d.Digests digest)
    (hnone : ∀ inbox, d ≠ .deliver inbox) (hdeed : deed host d = some host') :
    Returned digest name bytes host' := by
  rcases deed_cases h.linked hd hdeed with ⟨inbox, rfl, -⟩ | ⟨fx, hpassed⟩ | hu
  · exact absurd rfl (hnone inbox)
  · rw [hpassed.eq]
    exact h.effects hpassed.takesIn hpassed.inOrder
  · exact ⟨h.linked.same hu.same, h.unique.congr hu.same.ledger, h.shelved.untouched hu,
      hu.inbox ▸ h.waits⟩

theorem Returned.run (h : Returned digest name bytes host)
    (hdigest : ∀ d ∈ later, d.Digests digest)
    (hnone : ∀ inbox, .deliver inbox ∉ later)
    (hrun : Machine.run UbkiUploader.deed host later = some host') :
    Returned digest name bytes host' := by
  induction later generalizing host with
  | nil =>
    cases hrun
    exact h
  | cons d later ih =>
    rw [Machine.run_cons] at hrun
    obtain ⟨mid, hmid, hrun⟩ := Option.bind_eq_some_iff.mp hrun
    refine ih (h.deed (hdigest d List.mem_cons_self) ?_ hmid)
      (fun d hd => hdigest d (List.mem_cons_of_mem _ hd))
      (fun i hi => hnone i (List.mem_cons_of_mem _ hi)) hrun
    rintro inbox rfl
    exact hnone inbox List.mem_cons_self

/-- A file that is delivered again after it was archived stays in the inbox: no later pass
ingests it again or takes it away. -/
theorem archived_left (digest : ByteArray → Text) (deeds later : List Deed) (host host' : Host)
    (hdigest : ∀ d ∈ deeds ++ later, d.Digests digest)
    (hrun : Machine.run deed {} deeds = some host)
    (hnone : ∀ inbox, .deliver inbox ∉ later)
    (hlater : Machine.run deed host later = some host') :
    ∀ f ∈ host.db.files.rows, f.archivedAt.isSome → ∀ bytes,
      host.inbox.read f.filename = some bytes → digest bytes = f.sha256 →
      host'.inbox.read f.filename = some bytes ∧
        ∀ g ∈ host'.db.files.rows, g.filename = f.filename → g.sha256 = f.sha256 →
        g.id = f.id := by
  intro f hf harch bytes hread hsha
  have hs := Sourced.run (fun d hd => hdigest d (List.mem_append_left _ hd)) hrun
  have hdigest' : ∀ d ∈ later, d.Digests digest :=
    fun d hd => hdigest d (List.mem_append_right _ hd)
  have hreturned : Returned digest f.filename bytes host :=
    ⟨hs.linked, hs.unique, ⟨f, hf, rfl, hsha.symm, harch⟩, hread⟩
  have hend := hreturned.run hdigest' hnone hlater
  refine ⟨hend.waits, fun g hg hname hsha' => ?_⟩
  have hentry := ledger_later hs.linked hdigest' hlater (ledger_eq_some.mpr ⟨f, hf, rfl, rfl⟩)
  exact hend.unique g.id f.id _ _ (ledger_eq_some.mpr ⟨g, hg, rfl, rfl⟩) hentry hname hsha'

def oneLineInbox : Folder Text :=
  AList.singleton (Text.lit "a.txt") (ByteArray.mk #[0x7b, 0x7d, 0x0a])

def refusedPass : Deed :=
  .pass (answering refused) { first := [[0]], resend := [], recompute := [1] } false

def idlePass : Deed :=
  .pass (answering refused) { first := [], resend := [], recompute := [] } false

theorem archived_left_oneLine :
    ∃ host host', Machine.run deed {} [.deliver oneLineInbox, refusedPass,
      .deliver oneLineInbox] =
        some host ∧ Machine.run deed host [idlePass] = some host' ∧
      host'.inbox.read (Text.lit "a.txt") = some (ByteArray.mk #[0x7b, 0x7d, 0x0a]) := by
  have hruns : (Machine.run deed {} [.deliver oneLineInbox, refusedPass]).map (fun host =>
      (host.db.files.rows.map fun f => (f.filename, f.sha256, f.archivedAt.isSome),
        (Machine.run deed { host with inbox := oneLineInbox } [idlePass]).isSome)) =
      some ([(Text.lit "a.txt", Text.lit "0123456789", true)], true) := by decide
  obtain ⟨mid, hmid, heq⟩ := Option.map_eq_some_iff.mp hruns
  obtain ⟨hrows, hlater⟩ := Prod.mk.inj heq
  obtain ⟨host', hlater⟩ := Option.isSome_iff_exists.mp hlater
  obtain ⟨f, hf, hrow⟩ := List.mem_map.mp (hrows ▸ List.mem_singleton_self _)
  obtain ⟨hname, hrow⟩ := Prod.mk.inj hrow
  obtain ⟨hsha, harch⟩ := Prod.mk.inj hrow
  have hrun : Machine.run deed {} [.deliver oneLineInbox, refusedPass, .deliver oneLineInbox] =
      some { mid with inbox := oneLineInbox } := Machine.run_append_of hmid rfl
  have hleft := archived_left (answering refused).sha256 _ [idlePass] _ host'
    (by simp [refusedPass, idlePass, Deed.Digests]) hrun (by simp [idlePass]) hlater f hf harch
    (ByteArray.mk #[0x7b, 0x7d, 0x0a]) (by rw [hname]; rfl) hsha.symm
  exact ⟨_, host', hrun, hlater, hname ▸ hleft.1⟩

end UbkiUploader
