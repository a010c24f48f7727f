import UbkiUploader.Enricher.Rerun
import UbkiUploader.Enricher.Run
import UbkiUploader.Uploader.Archive

/-!
# Enricher and uploader together

The enricher fills the inbox that the uploader empties, and both keep their tables in one
database. What is done is a list of chores, in which a run of the enricher is one chore for
each raw file, so that passes of the uploader may come in between.
-/

namespace UbkiUploader

inductive Chore
  /-- Raw files come, or are taken away. -/
  | drop (raw : Folder Text)
  /-- A raw file is processed, and cut off after so many effects or not at all. -/
  | process (s : EnrichSite) (name : Text) (cut : Option Nat)
  | upload (d : Deed)

def chore (m : Mount) : Chore → Option Mount
  | .drop raw => some { m with raw }
  | .process s name cut =>
    (m.raw.read name).map fun raw => attempt (s.env name) m name raw {} cut
  | .upload d => (deed m.host d).map fun host => { m with host }

variable {env : EnrichEnv} {s : EnrichSite} {m m' : Mount} {name n : Text} {raw b : ByteArray}
  {r₀ : EnrichReport} {names : List Text} {k : Nat} {cut : Option Nat}

-- ---------------------------------------------------------------------------
-- Runs of the enricher
-- ---------------------------------------------------------------------------

theorem enrichFile_chore {r : EnrichRun} (hread : r.mount.raw.read name = some raw)
    (hdry : r.report.dryRun = false) :
    chore r.mount (.process s name none) = some (enrichFile s r name).mount ∧
      ∃ fx, (enrichFile s r name).log = r.log ++ fx ∧ ∀ k,
        chore r.mount (.process s name (some k)) =
        some ((fx.take k).foldl FileEffect.apply r.mount) := by
  rw [enrichFile_some hread, hdry]
  refine ⟨?_, _, rfl, fun k => ?_⟩
  · simp only [chore, hread, Option.map_some, attempt, Option.getD_none, List.take_length]
  · simp only [chore, hread, Option.map_some, attempt, Option.getD_some]

theorem Isolated.waits {r : EnrichRun} (h : Isolated s m r₀ names r) (hnew : name ∉ names)
    (hread : m.raw.read name = some raw) : r.mount.raw.read name = some raw :=
  (h.others name hnew).raw.trans hread

theorem foldl_chores (hdry : r₀.dryRun = false) (hnodup : names.Nodup)
    (hthere : ∀ n ∈ names, (m.raw.read n).isSome) :
    Machine.run chore m (names.map fun n => .process s n none) =
      some (names.foldl (enrichFile s) { mount := m, report := r₀ }).mount := by
  induction names using List.reverseRecOn with
  | nil => rfl
  | append_singleton names name ih =>
    obtain ⟨hnodup, -, hnew⟩ := List.nodup_append'.mp hnodup
    have hthere' : ∀ n ∈ names, (m.raw.read n).isSome := fun n hn =>
      hthere n (List.mem_append_left _ hn)
    obtain ⟨raw, hread⟩ := Option.isSome_iff_exists.mp (hthere name (by simp))
    have hiso : Isolated s m r₀ names _ := isolated_foldl hnodup hthere'
    have hturn := (enrichFile_chore (s := s) (hiso.waits (fun hmem => hnew hmem (by simp)) hread)
      (hiso.dryRun.trans hdry)).1
    rw [List.map_append, Machine.run_append, ih hnodup hthere', Option.bind_some,
      List.map_singleton,
      Machine.run_cons, hturn, List.foldl_append]
    rfl

theorem runEnrich_chores (s : EnrichSite) (m : Mount) :
    Machine.run chore m ((scanRaw s m.raw).map fun n => .process s n none) =
      some (runEnrich s false m).mount :=
  foldl_chores rfl (scanRaw_nodup s m.raw) fun _ hn => (mem_scanRaw.mp hn).1

theorem foldl_cut (hdry : r₀.dryRun = false) (hnodup : names.Nodup)
    (hthere : ∀ n ∈ names, (m.raw.read n).isSome) (k : Nat) :
    ∃ chores, (∀ c ∈ chores, ∃ n ∈ names, ∃ cut, c = .process s n cut) ∧
      Machine.run chore m chores = some ((((names.foldl (enrichFile s)
        { mount := m, report := r₀ }).log.take k)).foldl FileEffect.apply m) := by
  induction names using List.reverseRecOn with
  | nil => exact ⟨[], by simp, by simp⟩
  | append_singleton names name ih =>
    obtain ⟨hnodup, -, hnew⟩ := List.nodup_append'.mp hnodup
    have hthere' : ∀ n ∈ names, (m.raw.read n).isSome := fun n hn =>
      hthere n (List.mem_append_left _ hn)
    obtain ⟨raw, hread⟩ := Option.isSome_iff_exists.mp (hthere name (by simp))
    have hiso : Isolated s m r₀ names
      (names.foldl (enrichFile s) { mount := m, report := r₀ }) :=
      isolated_foldl hnodup hthere'
    have hwhole := foldl_chores (s := s) hdry hnodup hthere'
    rw [List.foldl_append, List.foldl_cons, List.foldl_nil]
    generalize names.foldl (enrichFile s) { mount := m, report := r₀ } = r at *
    obtain ⟨-, fx, hlog, hcut⟩ := enrichFile_chore (s := s)
      (hiso.waits (fun hmem => hnew hmem (by simp)) hread) (hiso.dryRun.trans hdry)
    rw [hlog]
    by_cases hk : k ≤ r.log.length
    · -- it is cut off before this file
      obtain ⟨chores, hall, hrun⟩ := ih hnodup hthere'
      refine ⟨chores, fun c hc => ?_, ?_⟩
      · obtain ⟨n, hn, hc⟩ := hall c hc
        exact ⟨n, List.mem_append_left _ hn, hc⟩
      · rw [List.take_append_of_le_length hk]
        exact hrun
    · refine ⟨names.map (fun n => .process s n none) ++
        [.process s name (some (k - r.log.length))],
        fun c hc => ?_, ?_⟩
      · rcases List.mem_append.mp hc with hc | hc
        · obtain ⟨n, hn, rfl⟩ := List.mem_map.mp hc
          exact ⟨n, List.mem_append_left _ hn, none, rfl⟩
        · exact ⟨name, by simp, _, List.mem_singleton.mp hc⟩
      · rw [Machine.run_append, hwhole, Option.bind_some, Machine.run_cons, hcut, List.take_append,
          List.take_of_length_le (Nat.le_of_not_le hk), List.foldl_append, ← hiso.log]
        rfl

/-- A run of the enricher that is cut off after any number of effects. -/
theorem cutEnrich_chores (s : EnrichSite) (m : Mount) (k : Nat) :
    ∃ chores, (∀ c ∈ chores, ∃ n ∈ scanRaw s m.raw, ∃ cut, c = .process s n cut) ∧
      Machine.run chore m chores =
        some (((runEnrich s false m).log.take k).foldl FileEffect.apply m) :=
  foldl_cut rfl (scanRaw_nodup s m.raw) (fun _ hn => (mem_scanRaw.mp hn).1) k

-- ---------------------------------------------------------------------------
-- What processing a file comes to
-- ---------------------------------------------------------------------------

/-- The data are the packages of a raw file that has some. -/
structure Packs (env : EnrichEnv) (raw data : ByteArray) (numbered : List (Nat × Text)) :
    Prop where
  read : readNumberedLines raw = some numbered
  writes : Writes env numbered
  data : encodeLines (enrichedOf env numbered) = some data

/-- The effects on a raw file: first those on the inbox, then those on the quarantine folder,
and last it is moved and entered. -/
theorem processFile_course (m : Mount) (summary : EnrichSummary) :
    ∃ inbox quarantine rest,
      (processFile env m name raw summary false).effects = inbox ++ quarantine ++ rest ∧
      (inbox = [] ∨ ∃ numbered data, Packs env raw data numbered ∧ inbox = writeAtomic .inbox
        m.host.inbox (enrichedTarget m.host.inbox name (env.sha256 raw) data) data) ∧
      (quarantine = [] ∨ ∃ target data,
        quarantine = writeAtomic .quarantine m.quarantine target data) ∧
      (rest = [] ∨ ∃ total enriched quarantined,
        rest = [.toProcessed name (uniqueTarget m.processed name (env.sha256 raw)),
          .insertEnriched name (env.sha256 raw) total enriched quarantined env.utcnow]) := by
  rcases processFile_cases env m name raw summary false with hnone |
    ⟨numbered, hread, hended, hrun⟩
  · exact ⟨[], [], [], hnone, .inl rfl, .inl rfl, .inl rfl⟩
  · rw [hrun, writeOut]
    obtain ⟨hen, -⟩ := enrichAll_batch hended
    cases hinbox : enrichedEffects m.host.inbox name (env.sha256 raw)
        (enrichAll env numbered (summary.discovered numbered)).1.enriched with
    | none => exact ⟨[], [], [], rfl, .inl rfl, .inl rfl, .inl rfl⟩
    | some inbox =>
      have hfirst : inbox = [] ∨ ∃ numbered data, Packs env raw data numbered ∧
          inbox = writeAtomic .inbox m.host.inbox
            (enrichedTarget m.host.inbox name (env.sha256 raw) data) data := by
        unfold enrichedEffects at hinbox
        split at hinbox
        · cases hinbox
          exact .inl rfl
        · rename_i hlines
          obtain ⟨data, hdata, rfl⟩ := Option.map_eq_some_iff.mp hinbox
          rw [hen, ← enrichedOf] at hlines hdata
          have hwrites : Writes env numbered :=
            ⟨hlines, fun _ => enrichAll_eq_none.mpr (enrichAll_eq_none.mp hended)⟩
          exact .inr ⟨numbered, data, ⟨hread, hwrites, hdata⟩, rfl⟩
      cases hquarantine : quarantineEffects m.quarantine name (env.sha256 raw)
          ((enrichAll env numbered (summary.discovered numbered)).1.quarantined.map
            (·.dumps env.ucd)) with
      | none => exact ⟨inbox, [], [], by simp, hfirst, .inl rfl, .inl rfl⟩
      | some quarantine =>
        refine ⟨inbox, quarantine, _, rfl, hfirst, ?_, .inr ⟨_, _, _, rfl⟩⟩
        unfold quarantineEffects at hquarantine
        split at hquarantine
        · cases hquarantine
          exact .inl rfl
        · obtain ⟨data, -, rfl⟩ := Option.map_eq_some_iff.mp hquarantine
          exact .inr ⟨_, data, rfl⟩

/-- What a prefix of a writing comes to: only the target and the temporary file can be new. -/
theorem take_writeAtomic (m : Mount) (shelf : Shelf) (target : Text) (data : ByteArray) (k : Nat) :
    ∃ folder, ((writeAtomic shelf (m.shelf shelf) target data).take k).foldl FileEffect.apply m =
        m.setShelf folder shelf ∧ Wrote (m.shelf shelf) folder target data k ∧
      ∀ n b, folder.read n = some b →
        (m.shelf shelf).read n = some b ∨ b = data ∧ (n = target ∨ n = tmpName target) := by
  obtain ⟨folder, hfolder, hwrote, -⟩ := foldl_take_writeAtomic m shelf target data k
  refine ⟨folder, hfolder, hwrote, ?_⟩
  have hread : folder = (((writeAtomic shelf (m.shelf shelf) target data).take k).foldl
      FileEffect.apply m).shelf shelf := by
    rw [hfolder, Mount.shelf_setShelf, if_pos rfl]
  rw [hread]
  by_cases hheld : (m.shelf shelf).read target = some data
  · rw [writeAtomic, if_pos hheld, List.take_nil]
    exact fun _ _ => .inl
  · rw [writeAtomic, if_neg hheld]
    have hwritten : ∀ n b, ((m.shelf shelf).write (tmpName target) data).read n = some b →
        (m.shelf shelf).read n = some b ∨ b = data ∧ (n = target ∨ n = tmpName target) := by
      intro n b hread
      rw [Folder.read_write] at hread
      split at hread
      · rename_i htmp
        exact .inr ⟨(Option.some.inj hread).symm, .inr htmp⟩
      · exact .inl hread
    rcases k with _ | _ | k
    · exact fun _ _ => .inl
    · simp only [List.take_succ_cons, List.take_zero, List.foldl_cons, List.foldl_nil,
        FileEffect.apply, Mount.shelf_setShelf, if_true]
      exact hwritten
    · have htmp : ((m.shelf shelf).write (tmpName target) data).read (tmpName target) =
        some data := by
        rw [Folder.read_write, if_pos rfl]
      rw [List.take_of_length_le (by simp)]
      simp only [List.foldl_cons, List.foldl_nil, FileEffect.apply, Mount.shelf_setShelf, if_true]
      intro n b hread
      rw [Folder.read_rename htmp] at hread
      split at hread
      · rename_i htarget
        exact .inr ⟨(Option.some.inj hread).symm, .inl htarget⟩
      · split at hread
        · cases hread
        · exact hwritten n b hread

def Mount.filing (m : Mount) : Filing.State Text ByteArray := ⟨m.raw.read, m.processed.read⟩

/-- The names that a raw file's packages go by in the inbox, hidden while they are written. -/
def Bound (name sha n : Text) : Prop :=
  ∃ target, OwnName name sha target ∧ (n = target ∨ n = tmpName target)

/-- The inbox got packages of the raw file, or a part of the writing was done. -/
structure Stocked (env : EnrichEnv) (name : Text) (raw : ByteArray) (inbox inbox' : Folder Text) :
    Prop where
  wrote : inbox' = inbox ∨ ∃ data k,
    Wrote inbox inbox' (enrichedTarget inbox name (env.sha256 raw) data) data k
  comes : ∀ n b, inbox'.read n = some b → inbox.read n = some b ∨
    Bound name (env.sha256 raw) n ∧ ∃ numbered, Packs env raw b numbered

/-- What processing a raw file comes to, cut off or not. -/
structure Worked (env : EnrichEnv) (name : Text) (raw : ByteArray) (m m' : Mount) : Prop where
  db : m'.host.db = { m.host.db with enrichedFiles := m'.host.db.enrichedFiles }
  archive : m'.host.archive = m.host.archive
  inbox : Stocked env name raw m.host.inbox m'.host.inbox
  filing : Relation.ReflGen (Filing.Step spareName env.sha256) m.filing m'.filing

theorem toProcessed_step (hread : m.raw.read name = some raw) :
    Filing.Step spareName env.sha256 m.filing
      ((FileEffect.toProcessed name (uniqueTarget m.processed name (env.sha256 raw))).apply
        m).filing := by
  have hfiled : ((FileEffect.toProcessed name
      (uniqueTarget m.processed name (env.sha256 raw))).apply m).filing =
      { source := Function.update m.filing.source name none
        shelf := Function.update m.filing.shelf
          (Filing.place spareName m.filing.shelf name (env.sha256 raw)) (some raw) } := by
    refine congrArg₂ Filing.State.mk (funext fun n => ?_) (funext fun n => ?_)
    · show (m.raw.move m.processed name _).1.read n = _
      rw [Folder.move_fst hread, Folder.read_remove, Function.update_apply]
      rfl
    · show (m.raw.move m.processed name _).2.read n = _
      rw [Folder.move_snd hread, Folder.read_write, Function.update_apply]
      rfl
  rw [hfiled]
  exact .file name raw hread

theorem attempt_worked (hread : m.raw.read name = some raw) (summary : EnrichSummary)
    (cut : Option Nat) : Worked env name raw m (attempt env m name raw summary cut) := by
  obtain ⟨inbox, quarantine, rest, hfx, hinbox, hquarantine, hrest⟩ :=
    @processFile_course env name raw m summary
  unfold attempt
  simp only
  rw [hfx]
  generalize cut.getD (inbox ++ quarantine ++ rest).length = k
  rw [List.take_append, List.take_append, List.foldl_append, List.foldl_append]
  obtain ⟨folder, hfolder, hstocked⟩ : ∃ folder, (inbox.take k).foldl FileEffect.apply m =
      m.setShelf folder .inbox ∧ Stocked env name raw m.host.inbox folder := by
    rcases hinbox with rfl | ⟨numbered, data, hpacks, rfl⟩
    · exact ⟨m.host.inbox, by rw [List.take_nil]; rfl, .inl rfl, fun _ _ => .inl⟩
    · obtain ⟨folder, hfolder, hwrote, hfrom⟩ := take_writeAtomic m .inbox _ data k
      refine ⟨folder, hfolder, .inr ⟨data, k, hwrote⟩,
        fun n b hb => (hfrom n b hb).imp_right ?_⟩
      rintro ⟨rfl, hname⟩
      exact ⟨⟨_, ownName_target _ _ _ b, hname⟩, numbered, hpacks⟩
  obtain ⟨folder', hfolder'⟩ : ∃ folder', ((quarantine.take (k - inbox.length)).foldl
      FileEffect.apply (m.setShelf folder .inbox)) =
        (m.setShelf folder .inbox).setShelf folder' .quarantine := by
    rcases hquarantine with rfl | ⟨target, data, rfl⟩
    · exact ⟨m.quarantine, by rw [List.take_nil]; rfl⟩
    · obtain ⟨folder', hfolder', -⟩ :=
        foldl_take_writeAtomic (m.setShelf folder .inbox) .quarantine target data (k - inbox.length)
      exact ⟨folder', hfolder'⟩
  rw [hfolder, hfolder']
  have hstep : Filing.Step spareName env.sha256 m.filing ((FileEffect.toProcessed name
      (uniqueTarget m.processed name (env.sha256 raw))).apply
        ((m.setShelf folder .inbox).setShelf folder' .quarantine)).filing :=
    toProcessed_step (m := (m.setShelf folder .inbox).setShelf folder' .quarantine) hread
  generalize k - (inbox ++ quarantine).length = j
  rcases hrest with rfl | ⟨total, enriched, quarantined, rfl⟩
  · rw [List.take_nil]
    exact ⟨rfl, rfl, hstocked, .refl⟩
  · rcases j with _ | _ | j
    · exact ⟨rfl, rfl, hstocked, .refl⟩
    · exact ⟨rfl, rfl, hstocked, .single hstep⟩
    · rw [List.take_of_length_le (by simp)]
      exact ⟨rfl, rfl, hstocked, .single hstep⟩

end UbkiUploader
