import UbkiUploader.Enricher.Report
import UbkiUploader.Pipeline.Chores

/-!
# What the enricher puts into the inbox

The packages of a raw file stay in the inbox while the other files of the run are
processed. So a run without an alert has put the packages of every line of every new file
there, with complete documents.
-/

namespace UbkiUploader

variable {s : EnrichSite} {m m' m₁ m₂ : Mount} {f g : Text × ByteArray} {names : List Text}
  {r₀ : EnrichReport} {t u : Text}

-- ---------------------------------------------------------------------------
-- Names in the inbox
-- ---------------------------------------------------------------------------

/-- The names that the packages of the raw files may go by do not meet, and none is hidden. -/
structure TargetsApart (s : EnrichSite) (m : Mount) : Prop where
  wide : ∀ bytes, 8 ≤ (s.sha256 bytes).length
  visible : ∀ bytes, isHidden (s.sha256 bytes) = false
  names : ∀ f ∈ rawFiles (scanRaw s m.raw) m.raw, ∀ g ∈ rawFiles (scanRaw s m.raw) m.raw,
    prefixedName f.1 (s.sha256 f.2) ≠ g.1

namespace TargetsApart

theorem ne (h : TargetsApart s m) (hf : f ∈ rawFiles (scanRaw s m.raw) m.raw)
    (hg : g ∈ rawFiles (scanRaw s m.raw) m.raw) (hne : f.1 ≠ g.1)
    (ht : OwnName f.1 (s.sha256 f.2) t) (hu : OwnName g.1 (s.sha256 g.2) u) : t ≠ u := by
  rcases ht with rfl | rfl
  · rcases hu with rfl | rfl
    · exact hne
    · exact (h.names g hg f hf).symm
  · rcases hu with rfl | rfl
    · exact h.names f hf g hg
    · intro heq
      have hlen : ((s.sha256 f.2).take 8 ++ Text.lit "_").length =
          ((s.sha256 g.2).take 8 ++ Text.lit "_").length := by
        simp only [List.length_append, List.length_take, Nat.min_eq_left (h.wide _)]
      exact hne (List.append_inj heq hlen).2

theorem not_hidden (h : TargetsApart s m) (hf : f ∈ rawFiles (scanRaw s m.raw) m.raw)
    (ht : OwnName f.1 (s.sha256 f.2) t) : isHidden t = false := by
  rcases ht with rfl | rfl
  · exact (mem_scanRaw.mp (mem_rawFiles.mp hf).1).2.1
  · have hwide := h.wide f.2
    have hvisible := h.visible f.2
    unfold prefixedName
    generalize s.sha256 f.2 = sha at hwide hvisible
    cases sha with
    | nil => simp at hwide
    | cons c sha => exact hvisible

end TargetsApart

-- ---------------------------------------------------------------------------
-- Packages in the inbox
-- ---------------------------------------------------------------------------

/-- The packages of a raw file are in the inbox under one of its names. -/
def Placed (env : EnrichEnv) (f : Text × ByteArray) (m : Mount) : Prop :=
  ∃ numbered data target, Packs env f.2 data numbered ∧ OwnName f.1 (env.sha256 f.2) target ∧
    m.host.inbox.read target = some data

theorem Placed.worked (ha : TargetsApart s m) (hf : f ∈ rawFiles (scanRaw s m.raw) m.raw)
    (hg : g ∈ rawFiles (scanRaw s m.raw) m.raw) (hne : f.1 ≠ g.1)
    (h : Placed (s.env f.1) f m₁) (hworked : Worked (s.env g.1) g.1 g.2 m₁ m₂) :
    Placed (s.env f.1) f m₂ := by
  obtain ⟨numbered, data, target, hpacks, hown, hread⟩ := h
  refine ⟨numbered, data, target, hpacks, hown, ?_⟩
  rcases hworked.inbox.wrote with hsame | ⟨data', k, hwrote⟩
  · rw [hsame, hread]
  · rw [hwrote.others target ?_ ?_, hread]
    · rintro rfl
      have hvisible := ha.not_hidden hf hown
      rw [isHidden_tmpName] at hvisible
      cases hvisible
    · exact ha.ne hf hg hne hown (ownName_target _ _ _ data')

theorem mem_enrichedOf {env : EnrichEnv} {numbered : List (Nat × Text)} {package : Text} :
    package ∈ enrichedOf env numbered ↔ ∃ line ∈ numbered, ∃ subject stats,
      fileOutcome env numbered line.2 = .ok (subject, stats) ∧ package = subject.dumps := by
  rw [enrichedOf, List.mem_filterMap]
  refine exists_congr fun line => and_congr_right fun _ => ?_
  cases fileOutcome env numbered line.2 with
  | error halt => simp [enrichedText]
  | ok made => simp [enrichedText, Prod.ext_iff, eq_comm]

theorem packs_of_quiet (hnew : m.host.db.getEnrichedByIdentity f.1 (s.sha256 f.2) = none)
    (hquiet : (alone s false m f).raised = none) (hwhole : Whole (s.env f.1) f.2) :
    ∃ numbered data, Packs (s.env f.1) f.2 data numbered := by
  obtain ⟨numbered, hnumbered, hne, hlines⟩ := hwhole.lines
  have hunknown : m.host.db.getEnrichedByIdentity f.1 ((s.env f.1).sha256 f.2) = none := hnew
  obtain ⟨hraises, hwrites⟩ := processFile_new m f.1 {} hnumbered hunknown
  have hended : (enrichAll (s.env f.1) numbered (EnrichSummary.discovered {} numbered)).2 =
    none := by
    by_contra hsome
    obtain ⟨e, he⟩ := Option.ne_none_iff_exists'.mp hsome
    have := hraises e he
    rw [alone, this] at hquiet
    cases hquiet
  have hsome : enrichedOf (s.env f.1) numbered ≠ [] := by
    obtain ⟨line, hline⟩ := List.exists_mem_of_ne_nil _ hne
    obtain ⟨subject, stats, houtcome, -⟩ := hlines line hline
    exact List.ne_nil_of_mem (mem_enrichedOf.mpr ⟨line, hline, subject, stats, houtcome, rfl⟩)
  have hencodes : ∀ package ∈ enrichedOf (s.env f.1) numbered, package.Encodes := by
    rw [alone, hwrites hended, writeOut_raised] at hquiet
    rw [enrichedOf, ← (enrichAll_batch hended).1]
    exact hquiet.1
  have hdata : (encodeLines (enrichedOf (s.env f.1) numbered)).isSome := by
    rw [encodeLines_isSome]
    exact fun package hpackage => Text.encodes_iff.mp (hencodes package hpackage)
  obtain ⟨data, hdata⟩ := Option.isSome_iff_exists.mp hdata
  exact ⟨numbered, data, hnumbered,
    ⟨hsome, fun _ => enrichAll_eq_none.mpr (enrichAll_eq_none.mp hended)⟩, hdata⟩

/-- In a run the packages of every new file that has some are put into the inbox and stay. -/
theorem placed_foldl (ha : TargetsApart s m) (hdry : r₀.dryRun = false) (hnodup : names.Nodup)
    (hscan : ∀ n ∈ names, n ∈ scanRaw s m.raw) :
    ∀ f ∈ rawFiles names m.raw, m.host.db.getEnrichedByIdentity f.1 (s.sha256 f.2) = none →
      (∃ numbered data, Packs (s.env f.1) f.2 data numbered) →
        Placed (s.env f.1) f (names.foldl (enrichFile s) { mount := m, report := r₀ }).mount := by
  induction names using List.reverseRecOn with
  | nil => simp [rawFiles]
  | append_singleton names name ih =>
    obtain ⟨hnodup, -, hnew⟩ := List.nodup_append'.mp hnodup
    have hscan' : ∀ n ∈ names, n ∈ scanRaw s m.raw := fun n hn =>
      hscan n (List.mem_append_left _ hn)
    have hthere : ∀ n ∈ names, (m.raw.read n).isSome :=
      fun n hn => (mem_scanRaw.mp (hscan' n hn)).1
    have hmem := hscan name (by simp)
    obtain ⟨raw, hread⟩ := Option.isSome_iff_exists.mp (mem_scanRaw.mp hmem).1
    have hiso : Isolated s m r₀ names
      (names.foldl (enrichFile s) { mount := m, report := r₀ }) :=
      isolated_foldl hnodup hthere
    have ih := ih hnodup hscan'
    rw [List.foldl_append, List.foldl_cons, List.foldl_nil]
    generalize names.foldl (enrichFile s) { mount := m, report := r₀ } = r at *
    have hout : name ∉ names := fun hmem => hnew hmem (List.mem_singleton_self name)
    have hwaits := hiso.waits hout hread
    have hturn := (enrichFile_chore (s := s) hwaits (hiso.dryRun.trans hdry)).1
    simp only [chore, hwaits, Option.map_some, Option.some.injEq] at hturn
    rw [← hturn]
    intro f hf hfnew hpacks
    rw [rawFiles_append hread, List.mem_append, List.mem_singleton] at hf
    rcases hf with hf | rfl
    · have hne : f.1 ≠ name := fun heq => hout (heq ▸ (mem_rawFiles.mp hf).1)
      have hin : f ∈ rawFiles (scanRaw s m.raw) m.raw :=
        mem_rawFiles.mpr ⟨hscan' f.1 (mem_rawFiles.mp hf).1, (mem_rawFiles.mp hf).2⟩
      have hname : (name, raw) ∈ rawFiles (scanRaw s m.raw) m.raw :=
        mem_rawFiles.mpr ⟨hmem, hread⟩
      exact (ih f hf hfnew hpacks).worked ha hin hname hne (attempt_worked hwaits {} none)
    · obtain ⟨numbered, data, hpacks⟩ := hpacks
      have hatt : Attempted (s.env name) name raw data numbered r.mount
          (attempt (s.env name) r.mount name raw {} none) none :=
        attempt_attempted r.mount {} none hpacks.read hpacks.data
      have hunknown : r.mount.host.db.getEnrichedByIdentity name ((s.env name).sha256 raw) = none :=
        ((hiso.others name hout).known _).trans hfnew
      exact ⟨numbered, data, _, hpacks, ownName_target _ _ _ data,
        hatt.placed hpacks.writes hunknown fun _ h => by cases h⟩

theorem runEnrich_placed (ha : TargetsApart s m)
    (hsilent : buildEnrichAlert (runEnrich s false m).report = none)
    (hf : f ∈ rawFiles (scanRaw s m.raw) m.raw)
    (hnew : m.host.db.getEnrichedByIdentity f.1 (s.sha256 f.2) = none) :
    Whole (s.env f.1) f.2 ∧ Placed (s.env f.1) f (runEnrich s false m).mount := by
  obtain ⟨hquiet, hwhole⟩ := runEnrich_quiet hsilent f hf
  have hwhole := hwhole.resolve_left (by simp [hnew])
  exact ⟨hwhole, placed_foldl ha rfl (scanRaw_nodup s m.raw) (fun _ hn => hn) f hf hnew
    (packs_of_quiet hnew hquiet hwhole)⟩

-- ---------------------------------------------------------------------------
-- Runs without an alert
-- ---------------------------------------------------------------------------

/-- Line by line the file's packages are in the inbox, with complete documents. -/
structure Packed (env : EnrichEnv) (f : Text × ByteArray) (numbered : List (Nat × Text))
    (packages : List Text) (m : Mount) : Prop where
  read : readNumberedLines f.2 = some numbered
  nonempty : numbered ≠ []
  lines : List.Forall₂ (fun line package => ∃ subject stats,
    fileOutcome env numbered line.2 = .ok (subject, stats) ∧ stats.docIncomplete = false ∧
      package = subject.dumps) numbered packages
  file : ∃ target data, OwnName f.1 (env.sha256 f.2) target ∧
    m.host.inbox.read target = some data ∧ fileLines data = some (packages.zipIdx 1)

theorem Whole.packed {env : EnrichEnv} (hwhole : Whole env f.2) (h : Placed env f m) :
    ∃ numbered packages, Packed env f numbered packages m := by
  obtain ⟨numbered, data, target, hpacks, hown, hread⟩ := h
  obtain ⟨numbered', hnumbered, hne, hlines⟩ := hwhole.lines
  obtain rfl : numbered' = numbered := Option.some.inj (hnumbered.symm.trans hpacks.read)
  refine ⟨numbered', enrichedOf env numbered', hnumbered, hne, ?_, target, data, hown, hread,
    fileLines_enriched hpacks.data⟩
  refine List.Forall₂.filterMap_right fun line hline => ?_
  obtain ⟨subject, stats, houtcome, hdoc⟩ := hlines line hline
  exact ⟨subject.dumps, by rw [houtcome]; rfl, subject, stats, houtcome, hdoc, rfl⟩

/-- After a run without an alert no file was out of the mask, every file that was new has left
the raw folder, and where names keep apart its packages are in the inbox, line by line. -/
theorem runEnrich_silent (s : EnrichSite) (m : Mount)
    (hsilent : buildEnrichAlert (runEnrich s false m).report = none) :
    skippedRaw s m.raw = 0 ∧ ∀ f ∈ rawFiles (scanRaw s m.raw) m.raw,
      (m.host.db.getEnrichedByIdentity f.1 (s.sha256 f.2)).isSome ∨
        Whole (s.env f.1) f.2 ∧ (runEnrich s false m).mount.raw.read f.1 = none ∧
        (TargetsApart s m → ∃ numbered packages,
          Packed (s.env f.1) f numbered packages (runEnrich s false m).mount) := by
  have h := runEnrich_isolated s false m
  refine ⟨h.skipped.symm.trans (buildEnrichAlert_eq_none.mp hsilent).2.1, fun f hf => ?_⟩
  obtain ⟨hquiet, hwhole⟩ := runEnrich_quiet hsilent f hf
  cases h.fate rfl hf with
  | known hrow => exact .inl hrow
  | failed e hnew hraised =>
    rw [hquiet] at hraised
    cases hraised
  | processed numbered row hnew _ _ hmoved =>
    have hwhole := hwhole.resolve_left (by simp [hnew])
    exact .inr ⟨hwhole, hmoved, fun ha => hwhole.packed (runEnrich_placed ha hsilent hf hnew).2⟩

theorem scanRaw_client : scanRaw clientSite clientRaw.raw = [Text.lit "a.jsonl"] := by
  decide

theorem sha256_client (bytes : ByteArray) :
    clientSite.sha256 bytes = Text.hex 64 bytes.size := rfl

theorem wide_client (bytes : ByteArray) : 8 ≤ (clientSite.sha256 bytes).length := by
  rw [sha256_client, Text.length_hex]
  omega

theorem apart_client : TargetsApart clientSite clientRaw := by
  have hname : ∀ f ∈ rawFiles (scanRaw clientSite clientRaw.raw) clientRaw.raw,
      f.1 = Text.lit "a.jsonl" := by
    intro f hf
    have hmem := (mem_rawFiles.mp hf).1
    rwa [scanRaw_client, List.mem_singleton] at hmem
  refine ⟨wide_client, fun bytes => ?_, fun f hf g hg heq => ?_⟩
  · rw [sha256_client, isHidden, decide_eq_false_iff_not]
    intro hhead
    have hdigit := isUuid_hex 64 bytes.size 46 (List.mem_of_mem_head? hhead)
    omega
  · have hlen := congrArg List.length heq
    rw [hname f hf, hname g hg, prefixedName, sha256_client, List.length_append,
      List.length_append, List.length_take, Text.length_hex] at hlen
    have hseven : (Text.lit "a.jsonl").length = 7 := rfl
    omega

theorem runEnrich_silent_client :
    ∃ numbered packages, Packed (clientSite.env (Text.lit "a.jsonl"))
      (Text.lit "a.jsonl", clientLine.toByteArray) numbered packages
        (runEnrich clientSite false clientRaw).mount := by
  have hscanned : (Text.lit "a.jsonl", clientLine.toByteArray) ∈
      rawFiles (scanRaw clientSite clientRaw.raw) clientRaw.raw := by
    rw [mem_rawFiles, scanRaw_client]
    exact ⟨List.mem_singleton_self _, rfl⟩
  rcases (runEnrich_silent clientSite clientRaw alert_client).2 _ hscanned with
    hknown | ⟨-, -, hpacked⟩
  · cases hknown
  · exact hpacked apart_client

end UbkiUploader
