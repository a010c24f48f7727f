import UbkiUploader.Lib.Intake
import UbkiUploader.Uploader.FileStatus

/-!
# What a pass takes in

Of a pass the inbox and the tables of files and records see an intake: ingesting enters
files, archiving takes known ones out of the inbox, and nothing else a pass does is seen.
This holds of every prefix of its effects.
-/

namespace UbkiUploader

open Intake (Entry)

def linesOf (db : Db) (fileId : Nat) : List (Text × Nat) :=
  (db.records.rows.filter (·.fileId = fileId)).map fun r => (r.rawLine, r.lineNo)

def Db.ledger (db : Db) (fileId : Nat) : Option (Entry Text Text (List (Text × Nat))) :=
  (db.files.find? fileId).map fun f => ⟨f.filename, f.sha256, linesOf db fileId⟩

def Host.intake (host : Host) : Intake.State Text ByteArray Text Nat (List (Text × Nat)) where
  folder := host.inbox.read
  ledger := host.db.ledger

def fileLines (bytes : ByteArray) : Option (List (Text × Nat)) :=
  (readLines bytes).map (·.zipIdx 1)

/-- `file_id INTEGER NOT NULL REFERENCES files(id)` -/
def Linked (db : Db) : Prop := ∀ r ∈ db.records.rows, ∃ f ∈ db.files.rows, f.id = r.fileId

variable {db db' : Db} {host : Host} {digest : ByteArray → Text} {e : Effect} {fx : List Effect}

-- ---------------------------------------------------------------------------
-- The ledger
-- ---------------------------------------------------------------------------

theorem ledger_eq_some {entry : Entry Text Text (List (Text × Nat))} :
    db.ledger i = some entry ↔
      ∃ f ∈ db.files.rows, f.id = i ∧ ⟨f.filename, f.sha256, linesOf db i⟩ = entry := by
  simp only [Db.ledger, Option.map_eq_some_iff, Table.find?_eq_some_iff, and_assoc]

theorem knows_iff : host.intake.Knows n d ↔
    ∃ f ∈ host.db.files.rows, f.filename = n ∧ f.sha256 = d := by
  constructor
  · rintro ⟨i, entry, hentry, rfl, rfl⟩
    obtain ⟨f, hf, -, rfl⟩ := ledger_eq_some.mp hentry
    exact ⟨f, hf, rfl, rfl⟩
  · rintro ⟨f, hf, rfl, rfl⟩
    exact ⟨f.id, _, ledger_eq_some.mpr ⟨f, hf, rfl, rfl⟩, rfl, rfl⟩

theorem getFileByIdentity_isSome :
    (host.db.getFileByIdentity n d).isSome ↔ host.intake.Knows n d := by
  rw [knows_iff, Db.getFileByIdentity, List.find?_isSome]
  simp

structure Same (db db' : Db) : Prop where
  files : db'.files.rows.map (fun f => (f.id, f.filename, f.sha256)) =
    db.files.rows.map fun f => (f.id, f.filename, f.sha256)
  records : db'.records.rows.map (fun r => (r.fileId, r.rawLine, r.lineNo)) =
    db.records.rows.map fun r => (r.fileId, r.rawLine, r.lineNo)

theorem Same.linesOf (h : Same db db') : linesOf db' i = linesOf db i := by
  have hlines (d : Db) : UbkiUploader.linesOf d i = ((d.records.rows.map fun r =>
      (r.fileId, r.rawLine, r.lineNo)).filter (·.1 = i)).map (·.2) := by
    rw [UbkiUploader.linesOf, List.filter_map, List.map_map]
    rfl
  rw [hlines, hlines, h.records]

theorem Same.ledger (h : Same db db') : db'.ledger = db.ledger := by
  funext i
  have hfind (d : Db) : (d.files.find? i).map (fun f => (f.filename, f.sha256)) =
      ((d.files.rows.map fun f => (f.id, f.filename, f.sha256)).find? (·.1 = i)).map (·.2) := by
    rw [List.find?_map, Option.map_map]
    rfl
  have hentry (d : Db) : d.ledger i = ((d.files.find? i).map fun f => (f.filename, f.sha256)).map
      fun f => ⟨f.1, f.2, UbkiUploader.linesOf d i⟩ := by
    rw [Option.map_map]
    rfl
  rw [hentry, hentry, hfind, hfind, h.files, h.linesOf]

theorem Linked.same (hl : Linked db) (h : Same db db') : Linked db' := by
  intro r hr
  have := List.mem_map_of_mem (f := fun r : RecordRow => (r.fileId, r.rawLine, r.lineNo)) hr
  rw [h.records] at this
  obtain ⟨r₀, hr₀, heq⟩ := List.mem_map.mp this
  obtain ⟨f₀, hf₀, hid⟩ := hl r₀ hr₀
  have := List.mem_map_of_mem (f := fun f : FileRow => (f.id, f.filename, f.sha256)) hf₀
  rw [← h.files] at this
  obtain ⟨f, hf, hfid⟩ := List.mem_map.mp this
  have hfid : f.id = f₀.id := congrArg Prod.fst hfid
  have hfile : r₀.fileId = r.fileId := congrArg Prod.fst heq
  exact ⟨f, hf, hfid.trans (hid.trans hfile)⟩

-- ---------------------------------------------------------------------------
-- One effect
-- ---------------------------------------------------------------------------

def Effect.Still (e : Effect) : Prop := ¬e.ingests ∧ e.moves = false

theorem Effect.Still.same (h : e.Still) (db : Db) : Same db (e.onDb db) := by
  cases e with
  | insertFile => exact absurd trivial h.1
  | commit c now => exact ⟨rfl, Table.map_update (Db.apply_id c.result.row) _ fun _ => rfl⟩
  | recompute => exact ⟨Table.map_update (fun _ => Db.setStatus_id _) _ fun _ => rfl, rfl⟩
  | markArchived => exact ⟨Table.map_update (fun _ => Db.setArchived_id _) _ fun _ => rfl, rfl⟩
  | _ => exact ⟨rfl, rfl⟩

theorem Effect.Still.intake (h : e.Still) (host : Host) : (e.apply host).intake = host.intake := by
  have hledger := (h.same host.db).ledger
  cases e with
  | toArchive => cases h.2
  | _ => exact congrArg (Intake.State.mk host.inbox.read) hledger

theorem lines_insertRecordRows {t : Table RecordRow.id} :
    ((Db.insertRecordRows fileId uuid4 now n lines t).rows.filter (·.fileId = fileId)).map
        (fun r => (r.rawLine, r.lineNo)) =
      (t.rows.filter (·.fileId = fileId)).map (fun r => (r.rawLine, r.lineNo)) ++
      lines.zipIdx n := by
  induction lines generalizing n t with
  | nil => simp [Db.insertRecordRows]
  | cons line lines ih =>
    rw [Db.insertRecordRows, ih, List.zipIdx_cons]
    simp [Table.insert, Db.newRecord]

theorem Linked.linesOf_nextKey (hl : Linked db) : linesOf db db.files.nextKey = [] := by
  rw [linesOf, List.map_eq_nil_iff, List.filter_eq_nil_iff]
  intro r hr
  obtain ⟨f, hf, hid⟩ := hl r hr
  have := Table.key_lt_nextKey hf
  simp only [decide_eq_true_eq]
  exact fun h => Nat.ne_of_lt this (hid.trans h)

theorem linesOf_insertFile (hl : Linked db) :
    linesOf (db.insertFile n s size lines uuid4 now) i =
      if i = db.files.nextKey then lines.zipIdx 1 else linesOf db i := by
  split
  · rename_i hi
    subst hi
    rw [linesOf, Db.insertFile, lines_insertRecordRows, ← linesOf, hl.linesOf_nextKey,
      List.nil_append]
  · rename_i hi
    rw [linesOf, Db.insertFile, statuses_insert hi]
    rfl

theorem ledger_insertFile (hl : Linked db) :
    (db.insertFile n s size lines uuid4 now).ledger =
      Function.update db.ledger db.files.nextKey (some ⟨n, s, lines.zipIdx 1⟩) := by
  funext i
  have hfiles : (db.insertFile n s size lines uuid4 now).files =
    db.files.insert (Db.newFile n s size lines.length now) Db.newFile_id := rfl
  by_cases hi : i = db.files.nextKey
  · subst hi
    have hmem : Db.newFile n s size lines.length now db.files.nextKey ∈
        (db.insertFile n s size lines uuid4 now).files.rows :=
          Db.mem_files_insertFile.mpr (.inr rfl)
    rw [Function.update_self, ledger_eq_some]
    exact ⟨_, hmem, rfl, by rw [linesOf_insertFile hl, if_pos rfl]; rfl⟩
  · rw [Function.update_of_ne hi, Db.ledger, Db.ledger, hfiles, Table.find?_insert_of_ne hi,
      linesOf_insertFile hl, if_neg hi]

theorem Linked.insertFile (hl : Linked db) : Linked (db.insertFile n s size lines uuid4 now) := by
  intro r hr
  rcases Db.mem_insertRecordRows hr with hr | ⟨-, lineNo, -, rawLine, -, hr⟩
  · obtain ⟨f, hf, hid⟩ := hl r hr
    exact ⟨f, Db.mem_files_insertFile.mpr (.inl hf), hid⟩
  · refine ⟨_, Db.mem_files_insertFile.mpr (.inr rfl), ?_⟩
    rw [hr]
    rfl

theorem Linked.apply (hl : Linked host.db) (e : Effect) : Linked (e.apply host).db := by
  rw [apply_db]
  cases e with
  | insertFile => exact hl.insertFile
  | toArchive => exact hl
  | _ => exact hl.same (Effect.Still.same ⟨id, rfl⟩ host.db)

theorem Linked.foldl (hl : Linked host.db) (fx : List Effect) :
    Linked (fx.foldl Effect.apply host).db := by
  induction fx generalizing host with
  | nil => exact hl
  | cons e fx ih => exact ih (hl.apply e)

theorem step_insertFile (hl : Linked host.db) (hread : host.inbox.read name = some bytes)
    (hnew : host.db.getFileByIdentity name (digest bytes) = none)
    (hlines : readLines bytes = some lines) :
    Intake.Step digest fileLines host.intake
      ((Effect.insertFile name (digest bytes) size lines uuid4 now).apply host).intake := by
  have hledger : (host.db.insertFile name (digest bytes) size lines uuid4 now).ledger = _ :=
    ledger_insertFile hl
  rw [show ((Effect.insertFile name (digest bytes) size lines uuid4 now).apply host).intake =
      ⟨host.inbox.read, _⟩ from congrArg (Intake.State.mk host.inbox.read) hledger]
  refine .enter name bytes host.db.files.nextKey (lines.zipIdx 1) hread ?_ ?_ ?_
  · rw [← getFileByIdentity_isSome, hnew]
    exact Bool.false_ne_true
  · show Option.map _ _ = none
    rw [Option.map_eq_none_iff, Table.find?_eq_none_iff]
    exact fun f hf => Nat.ne_of_lt (Table.key_lt_nextKey hf)
  · rw [fileLines, hlines]
    rfl

theorem step_toArchive (hread : host.inbox.read name = some bytes)
    (hknown : host.intake.Knows name (digest bytes)) :
    Intake.Step digest fileLines host.intake
    ((Effect.toArchive name target).apply host).intake := by
  have hinbox : ((Effect.toArchive name target).apply host).intake =
      { host.intake with folder := Function.update host.intake.folder name none } := by
    refine congrArg (Intake.State.mk · host.db.ledger) ?_
    funext n
    show (host.inbox.move host.archive name target).1.read n = _
    rw [Folder.move_fst hread, Folder.read_remove, Function.update_apply]
    rfl
  rw [hinbox]
  exact .shelve name bytes hread hknown

-- ---------------------------------------------------------------------------
-- Many effects
-- ---------------------------------------------------------------------------

def TakesIn (digest : ByteArray → Text) (host : Host) : List Effect → Prop
  | [] => True
  | e :: fx =>
    Relation.ReflGen (Intake.Step digest fileLines) host.intake (e.apply host).intake ∧
      TakesIn digest (e.apply host) fx

namespace TakesIn

theorem append : TakesIn digest host (a ++ b) ↔
    TakesIn digest host a ∧ TakesIn digest (a.foldl Effect.apply host) b := by
  induction a generalizing host with
  | nil => simp [TakesIn]
  | cons e a ih => simp only [List.cons_append, TakesIn, ih, List.foldl_cons, and_assoc]

theorem take (h : TakesIn digest host fx) (n : Nat) : TakesIn digest host (fx.take n) := by
  rw [← List.take_append_drop n fx, append] at h
  exact h.1

theorem single (h : Intake.Step digest fileLines host.intake (e.apply host).intake) :
    TakesIn digest host [e] := ⟨.single h, trivial⟩

theorem still (h : ∀ e ∈ fx, e.Still) : TakesIn digest host fx := by
  induction fx generalizing host with
  | nil => trivial
  | cons e fx ih =>
    refine ⟨?_, ih fun e he => h e (List.mem_cons_of_mem _ he)⟩
    rw [(h e List.mem_cons_self).intake host]

theorem steps (h : TakesIn digest host fx) :
    Intake.Steps digest fileLines host.intake (fx.foldl Effect.apply host).intake := by
  induction fx generalizing host with
  | nil => exact .refl
  | cons e fx ih => exact h.1.to_reflTransGen.trans (ih h.2)

end TakesIn

-- ---------------------------------------------------------------------------
-- The phases of a pass
-- ---------------------------------------------------------------------------

/-- Ingesting dealt with the files `names`: unless it was a dry run they are known. -/
structure Took (s : Site) (names : List Text) (r r' : Run) (fx : List Effect) : Prop where
  did : Did r r' fx
  takesIn : TakesIn s.sha256 r.host fx
  inbox : r'.host.inbox = r.host.inbox
  dryRun : r'.summary.dryRun = r.summary.dryRun
  knows : r.summary.dryRun = false → ∀ name ∈ names, ∀ bytes,
    r.host.inbox.read name = some bytes → r'.host.intake.Knows name (s.sha256 bytes)

namespace Took

theorem refl (s : Site) (r : Run) : Took s [] r r [] where
  did := .refl r
  takesIn := trivial
  inbox := rfl
  dryRun := rfl
  knows := by simp

theorem trans (h : Took s names r r' a) (h' : Took s names' r' r'' b) :
    Took s (names ++ names') r r'' (a ++ b) where
  did := h.did.trans h'.did
  takesIn := TakesIn.append.mpr ⟨h.takesIn, h.did.host ▸ h'.takesIn⟩
  inbox := h'.inbox.trans h.inbox
  dryRun := h'.dryRun.trans h.dryRun
  knows := by
    intro hdry name hname bytes hread
    rcases List.mem_append.mp hname with hname | hname
    · have hsteps := h'.takesIn.steps
      rw [← h'.did.host] at hsteps
      exact hsteps.knows (h.knows hdry name hname bytes hread)
    · exact h'.knows (h.dryRun.trans hdry) name hname bytes (h.inbox ▸ hread)

end Took

theorem took_missing (hread : r.host.inbox.read name = none) : Took s [name] r r [] where
  did := .refl r
  takesIn := trivial
  inbox := rfl
  dryRun := rfl
  knows := by simp [hread]

theorem ingestFile_took (hl : Linked r.host.db) (hread : r.host.inbox.read name = some bytes)
    (h : ingestFile s r name bytes = .ok r') : ∃ fx, Took s [name] r r' fx := by
  simp only [ingestFile] at h
  split at h
  · rename_i hknown
    cases h
    refine ⟨[], .refl r, trivial, rfl, rfl, fun _ name' hname bytes' hread' => ?_⟩
    rw [List.mem_singleton.mp hname, hread] at hread'
    rw [List.mem_singleton.mp hname, ← Option.some.inj hread']
    exact getFileByIdentity_isSome.mp hknown
  · rename_i hnew
    split at h
    · cases h
    · rename_i lines hlines
      split at h
      · rename_i hdry
        cases h
        exact ⟨[], (Did.refl r).of_eq rfl rfl, trivial, rfl, rfl, fun h => by simp [h] at hdry⟩
      · cases h
        have hstep (host : Host) (hhost : host = r.host) (size : Nat) (uuid4 : Nat → Text)
            (now : Timestamp) : Intake.Step s.sha256 fileLines host.intake
              ((Effect.insertFile name (s.sha256 bytes) size lines uuid4 now).apply
                host).intake := by
          subst hhost
          exact step_insertFile hl hread (by simpa using hnew) hlines
        refine ⟨_, (Did.perform r _).of_eq rfl rfl, .single (hstep r.host rfl _ _ _),
          rfl, rfl, ?_⟩
        intro _ name' hname bytes' hread'
        rw [List.mem_singleton.mp hname, hread] at hread'
        rw [List.mem_singleton.mp hname, ← Option.some.inj hread', knows_iff]
        exact ⟨_, Db.mem_files_insertFile.mpr (.inr rfl), rfl, rfl⟩

/-- Until an exception is raised the files are dealt with in order. -/
theorem ingestNewFiles_took (s : Site) (names : List Text) (r : Run) (hl : Linked r.host.db) :
    ∃ done fx, Took s done r (ingestNewFiles s names r).1 fx ∧
      ((ingestNewFiles s names r).2 = none → done = names) := by
  induction names generalizing r with
  | nil => exact ⟨[], [], .refl s r, fun _ => rfl⟩
  | cons name names ih =>
    rw [ingestNewFiles]
    split
    · rename_i hread
      obtain ⟨done, fx, htook, hdone⟩ := ih r hl
      exact ⟨_, _, (took_missing hread).trans htook, fun h => congrArg (name :: ·) (hdone h)⟩
    · rename_i bytes hread
      split
      · rename_i r' h
        obtain ⟨fx, htook⟩ := ingestFile_took hl hread h
        have hl' : Linked r'.host.db := htook.did.host ▸ hl.foldl fx
        obtain ⟨done, gx, htook', hdone⟩ := ih r' hl'
        exact ⟨_, _, htook.trans htook', fun h => congrArg (name :: ·) (hdone h)⟩
      · exact ⟨[], [], .refl s r, fun h => by cases h⟩

theorem archiveFile_takesIn (hknown : r.host.intake.Knows row.filename row.sha256) :
    ∃ fx, Did r (archiveFile s r row) fx ∧ TakesIn s.sha256 r.host fx := by
  have hmark (now : Timestamp) : (Effect.markArchived row.id now).Still := ⟨id, rfl⟩
  unfold archiveFile
  split
  · exact ⟨_, .perform r _, .still (List.forall_mem_singleton.mpr (hmark _))⟩
  · rename_i bytes hread
    obtain ⟨hread, hsha⟩ := Option.filter_eq_some_iff.mp hread
    have hsha : s.sha256 bytes = row.sha256 := of_decide_eq_true hsha
    refine ⟨_, ((Did.perform r _).trans (.perform _ _)).of_eq rfl rfl, ?_⟩
    refine TakesIn.append.mpr ⟨.single (step_toArchive hread (hsha ▸ hknown)), ?_⟩
    exact .still (List.forall_mem_singleton.mpr (hmark _))

theorem archiveCompletedFiles_takesIn (s : Site) (r : Run) :
    ∃ fx, Did r (archiveCompletedFiles s r) fx ∧ TakesIn s.sha256 r.host fx := by
  unfold archiveCompletedFiles
  have hknown : ∀ row ∈ completedFiles r.host.db, r.host.intake.Knows row.filename row.sha256 :=
    fun row hrow => knows_iff.mpr ⟨row, (List.mem_filter.mp hrow).1, rfl, rfl⟩
  revert hknown
  generalize completedFiles r.host.db = rows
  intro hknown
  induction rows generalizing r with
  | nil => exact ⟨[], .refl r, trivial⟩
  | cons row rows ih =>
    obtain ⟨fx, hdid, hlaw⟩ := archiveFile_takesIn (s := s) (hknown row List.mem_cons_self)
    have hsteps := hlaw.steps
    rw [← hdid.host] at hsteps
    obtain ⟨gx, hdid', hlaw'⟩ := ih (archiveFile s r row)
      fun row hrow => hsteps.knows (hknown row (List.mem_cons_of_mem _ hrow))
    exact ⟨fx ++ gx, hdid.trans hdid', TakesIn.append.mpr ⟨hlaw, hdid.host ▸ hlaw'⟩⟩

theorem finishRun_takesIn (hsend : sendRecords s.toEnv first resend r.host.db r.summary = some p)
    (h : finishRun s sched (r.sent s.toEnv p) touched = some out) :
    ∃ fx, Did r out fx ∧ TakesIn s.sha256 r.host fx := by
  simp only [finishRun] at h
  split at h
  · cases h
    have hsent := sent_did hsend
    obtain ⟨recs, hrec, hrecs, -⟩ := recomputeFiles_did s sched.recompute (r.sent s.toEnv p)
    obtain ⟨arcs, harc, harcs⟩ :=
      archiveCompletedFiles_takesIn s (recomputeFiles s sched.recompute (r.sent s.toEnv p))
    refine ⟨_, ((hsent.trans hrec).trans harc).trans (.perform _ _), ?_⟩
    rw [TakesIn.append, TakesIn.append, TakesIn.append]
    refine ⟨⟨⟨.still fun e he => ?_, .still fun e he => ?_⟩, ?_⟩, .still fun e he => ?_⟩
    · exact ⟨(effectsFrom_calm he).2, effectsFrom_stay he⟩
    · obtain ⟨id, now, rfl⟩ := hrecs e he
      exact ⟨fun h => h, rfl⟩
    · rw [← (hsent.trans hrec).host]
      exact harcs
    · rw [List.mem_singleton.mp he]
      exact ⟨id, rfl⟩
  · cases h

theorem runLocked_takesIn (hl : Linked host.db)
    (h : runLocked s sched dryRun host = some (ending, out)) :
    out.host = out.log.foldl Effect.apply host ∧ TakesIn s.sha256 host out.log := by
  suffices ∃ fx, Did (s.scanned dryRun host)
      out fx ∧ TakesIn s.sha256 host fx by
    obtain ⟨fx, hdid, hlaw⟩ := this
    obtain rfl : out.log = fx := by simpa using hdid.log
    exact ⟨hdid.host, hlaw⟩
  obtain ⟨done, ins, hins, -⟩ := ingestNewFiles_took s (scanFolder s host.inbox)
    (s.scanned dryRun host) hl
  simp only [runLocked] at h
  split at h
  · rename_i r e hing
    rw [hing] at hins
    cases h
    have hcrash : Did r (crash s r e) _ := (Did.perform _ _).of_eq rfl rfl
    refine ⟨_, hins.did.trans hcrash,
      TakesIn.append.mpr ⟨hins.takesIn, .still fun e he => ?_⟩⟩
    rw [List.mem_singleton.mp he]
    exact ⟨id, rfl⟩
  · rename_i r hing
    rw [hing] at hins
    split at h
    · cases h
      exact ⟨ins, hins.did, hins.takesIn⟩
    · obtain ⟨p, hp, h⟩ := Option.bind_eq_some_iff.mp h
      obtain ⟨out', hout, h⟩ := Option.bind_eq_some_iff.mp h
      cases h
      obtain ⟨fx, hdid, hlaw⟩ := finishRun_takesIn hp hout
      exact ⟨ins ++ fx, hins.did.trans hdid,
        TakesIn.append.mpr ⟨hins.takesIn, hins.did.host ▸ hlaw⟩⟩

/-- A pass that reaches its end knows the files that it saw. -/
theorem runLocked_knows (hl : Linked host.db)
    (h : runLocked s sched dryRun host = some (.finished, out))
    (hname : name ∈ scanFolder s host.inbox) (hread : host.inbox.read name = some bytes) :
    out.host.intake.Knows name (s.sha256 bytes) := by
  obtain ⟨r, p, hing, hp, hout⟩ := runLocked_phases h
  obtain ⟨done, ins, hins, hdone⟩ := ingestNewFiles_took s (scanFolder s host.inbox)
    (s.scanned false host) hl
  rw [Site.ingested] at hing
  rw [hing] at hins hdone
  obtain ⟨fx, hdid, hlaw⟩ := finishRun_takesIn hp hout
  have hsteps := hlaw.steps
  rw [← hdid.host] at hsteps
  exact hsteps.knows (hins.knows rfl name (hdone rfl ▸ hname) bytes hread)

-- ---------------------------------------------------------------------------
-- Passes that are cut off
-- ---------------------------------------------------------------------------

structure Uploaded (digest : ByteArray → Text) (host host' : Host) : Prop where
  steps : Intake.Steps digest fileLines host.intake host'.intake
  linked : Linked host'.db
  enriched : host'.db.enrichedFiles = host.db.enrichedFiles

theorem TakesIn.uploaded (hl : Linked host.db) (h : TakesIn digest host fx) :
    Uploaded digest host (fx.foldl Effect.apply host) := by
  refine ⟨h.steps, hl.foldl fx, ?_⟩
  clear h hl
  induction fx generalizing host with
  | nil => rfl
  | cons e fx ih =>
    rw [List.foldl_cons, ih]
    cases e <;> rfl

theorem pass_uploaded (hl : Linked host.db) (h : deed host (.pass s sched dryRun) = some host') :
    Uploaded s.sha256 host host' := by
  obtain ⟨⟨ending, out⟩, hrun, rfl⟩ := Option.map_eq_some_iff.mp h
  obtain ⟨hhost, htakes⟩ := runLocked_takesIn hl hrun
  rw [hhost]
  exact htakes.uploaded hl

theorem cutPass_uploaded (hl : Linked host.db)
    (h : deed host (.cutPass s sched effects handled) = some host') :
    Uploaded s.sha256 host host' := by
  obtain ⟨⟨ending, out⟩, hrun, rfl⟩ := Option.map_eq_some_iff.mp h
  have htakes := (runLocked_takesIn hl hrun).2.take effects
  refine TakesIn.uploaded hl (TakesIn.append.mpr ⟨htakes, .still fun e he => ?_⟩)
  obtain ⟨row, -, rfl⟩ := Option.map_eq_some_iff.mp (Option.mem_toList.mp he)
  exact ⟨id, rfl⟩

end UbkiUploader
