import UbkiUploader.Enricher.Accounted

/-!
# Attempts that are cut off

What a prefix of the effects of `process_file` leaves in the folders and in the database.
-/

namespace UbkiUploader

variable {env : EnrichEnv} {m : Mount} {name : Text} {raw data : ByteArray}

-- ---------------------------------------------------------------------------
-- Names
-- ---------------------------------------------------------------------------

theorem isHidden_tmpName (target : Text) : isHidden (tmpName target) = true := rfl

theorem ne_tmpName {n target : Text} (h : n.length ≤ target.length) : n ≠ tmpName target := by
  intro heq
  have := congrArg List.length heq
  simp only [tmpName, List.length_append] at this
  have hdot : (Text.lit ".").length = 1 := rfl
  omega

theorem length_prefixedName (name sha : Text) : name.length < (prefixedName name sha).length := by
  have hline : (Text.lit "_").length = 1 := rfl
  simp only [prefixedName, List.length_append]
  omega

theorem ne_prefixedName (name sha : Text) : name ≠ prefixedName name sha := fun h =>
  absurd (congrArg List.length h) (Nat.ne_of_lt (length_prefixedName name sha))

theorem enrichedTarget_cases (folder : Folder Text) (name sha : Text) (data : ByteArray) :
    enrichedTarget folder name sha data = name ∨
      enrichedTarget folder name sha data = prefixedName name sha := by
  unfold enrichedTarget
  split
  · split
    · exact .inr rfl
    · exact .inl rfl
  · exact .inl rfl

/-- Quarantine records go under the prefixed name where other bytes hold the plain one. -/
theorem quarantineTarget_eq (folder : Folder Text) (name sha : Text) (data : ByteArray) :
    quarantineTarget folder name sha data =
      if folder.read name = none ∨ folder.read name = some data then name
      else prefixedName name sha := by
  unfold quarantineTarget
  cases hread : folder.read name with
  | none => simp
  | some held =>
    by_cases hheld : held = data
    · simp [hheld]
    · simp [hheld, uniqueTarget, hread, prefixedName]

-- ---------------------------------------------------------------------------
-- One writer
-- ---------------------------------------------------------------------------

/-- A folder before and after the first `k` effects of a writer. -/
structure Wrote (folder folder' : Folder Text) (target : Text) (data : ByteArray) (k : Nat) :
    Prop where
  others : ∀ n, n ≠ tmpName target → n ≠ target → folder'.read n = folder.read n
  placed : folder'.read target = if 2 ≤ k then some data else folder.read target
  /-- The temporary file is gone when the target is there, if it was there for it. -/
  tmp : folder'.read target = some data → folder'.read (tmpName target) = some data →
    folder' = folder

theorem Wrote.refl (folder : Folder Text) (target : Text) (data : ByteArray) :
    Wrote folder folder target data 0 := ⟨fun _ _ _ => rfl, rfl, fun _ _ => rfl⟩

theorem foldl_take_writeAtomic (m : Mount) (s : Shelf) (target : Text)
    (data : ByteArray) (k : Nat) :
    ∃ folder, ((writeAtomic s (m.shelf s) target data).take k).foldl FileEffect.apply m =
        m.setShelf folder s ∧ Wrote (m.shelf s) folder target data k ∧
      ((writeAtomic s (m.shelf s) target data).length ≤ k →
        folder.read target = some data) := by
  have hne : target ≠ tmpName target := ne_tmpName (Nat.le_refl _)
  by_cases hheld : (m.shelf s).read target = some data
  · refine ⟨m.shelf s, ?_, ⟨fun _ _ _ => rfl, ?_, fun _ _ => rfl⟩, fun _ => hheld⟩
    · rw [writeAtomic, if_pos hheld, List.take_nil]
      exact (m.setShelf_shelf s).symm
    · rw [hheld, ite_self]
  · rw [writeAtomic, if_neg hheld]
    have htmp : ((m.shelf s).write (tmpName target) data).read (tmpName target) = some data := by
      rw [Folder.read_write, if_pos rfl]
    match k with
    | 0 => exact ⟨m.shelf s, (m.setShelf_shelf s).symm, .refl _ _ _, fun h => by simp at h⟩
    | 1 =>
      refine ⟨(m.shelf s).write (tmpName target) data, rfl,
        ⟨fun n hn _ => ?_, ?_, fun h => ?_⟩,
        fun h => by simp at h⟩
      · rw [Folder.read_write, if_neg hn]
      · rw [Folder.read_write, if_neg hne]
        rfl
      · rw [Folder.read_write, if_neg hne] at h
        exact absurd h hheld
    | k + 2 =>
      have hread (n : Text) := Folder.read_rename (b := target) (n := n) htmp
      have htarget := (hread target).trans (if_pos rfl)
      refine ⟨((m.shelf s).write (tmpName target) data).rename (tmpName target) target, ?_,
        ⟨fun n hn hn' => ?_, ?_, fun _ h => ?_⟩, fun _ => htarget⟩
      · rw [List.take_of_length_le (by simp)]
        simp only [List.foldl_cons, List.foldl_nil, FileEffect.apply, Mount.shelf_setShelf, if_true,
          Mount.setShelf_setShelf]
      · rw [hread, if_neg hn', if_neg hn, Folder.read_write, if_neg hn]
      · rw [htarget, if_pos (by omega)]
      · rw [hread, if_neg hne.symm, if_pos rfl] at h
        cases h

theorem foldl_take_effects {lines : List Text} (m : Mount) (s : Shelf) (target : ByteArray → Text)
    (hfx : (if lines = [] then some [] else (encodeLines lines).map fun data =>
      writeAtomic s (m.shelf s) (target data) data) = some fx) (k : Nat) :
    ∃ folder, (fx.take k).foldl FileEffect.apply m = m.setShelf folder s ∧
      ∀ data, encodeLines lines = some data →
        (∃ j ≤ k, Wrote (m.shelf s) folder (target data) data j ∧
          (2 ≤ j → lines ≠ [])) ∧
        (lines ≠ [] → fx.length ≤ k → folder.read (target data) = some data) := by
  split at hfx
  · rename_i hnil
    cases hfx
    refine ⟨m.shelf s, ?_, fun data _ =>
      ⟨⟨0, Nat.zero_le k, .refl _ _ _, by simp⟩, fun h => absurd hnil h⟩⟩
    rw [List.take_nil]
    exact (m.setShelf_shelf s).symm
  · rename_i hne
    obtain ⟨data, hdata, rfl⟩ := Option.map_eq_some_iff.mp hfx
    obtain ⟨folder, hfolder, hwrote, hwhole⟩ := foldl_take_writeAtomic m s (target data) data k
    refine ⟨folder, hfolder, fun data' hdata' => ?_⟩
    obtain rfl : data = data' := Option.some.inj (hdata.symm.trans hdata')
    exact ⟨⟨k, Nat.le_refl k, hwrote, fun _ => hne⟩, fun _ => hwhole⟩

theorem enrichedEffects_length (h : enrichedEffects folder name sha lines = some fx) :
    fx.length ≤ 2 := by
  unfold enrichedEffects at h
  split at h
  · cases h
    exact Nat.zero_le 2
  · obtain ⟨data, -, rfl⟩ := Option.map_eq_some_iff.mp h
    unfold writeAtomic
    split
    · exact Nat.zero_le 2
    · exact Nat.le_refl 2

-- ---------------------------------------------------------------------------
-- A whole run
-- ---------------------------------------------------------------------------

def FileEffect.Closes : FileEffect → Prop
  | .toProcessed .. => True
  | .insertEnriched .. => True
  | _ => False

structure Closed (m m' : Mount) : Prop where
  inbox : m'.host.inbox = m.host.inbox
  quarantine : m'.quarantine = m.quarantine
  db : m'.host.db = { m.host.db with enrichedFiles := m'.host.db.enrichedFiles }

theorem Closed.trans (h : Closed m m') (h' : Closed m' m'') : Closed m m'' where
  inbox := h'.inbox.trans h.inbox
  quarantine := h'.quarantine.trans h.quarantine
  db := by rw [h'.db, h.db]

theorem foldl_closes {fx : List FileEffect} (h : ∀ e ∈ fx, e.Closes) (m : Mount) :
    Closed m (fx.foldl FileEffect.apply m) := by
  induction fx generalizing m with
  | nil => exact ⟨rfl, rfl, rfl⟩
  | cons e fx ih =>
    have he := h e List.mem_cons_self
    have hfirst : Closed m (e.apply m) := by
      cases e with
      | toProcessed => exact ⟨rfl, rfl, rfl⟩
      | insertEnriched => exact ⟨rfl, rfl, rfl⟩
      | _ => cases he
    exact hfirst.trans (ih (fun e he => h e (List.mem_cons_of_mem _ he)) _)

/-- The loops end without an exception, and there are lines for the inbox. -/
structure Writes (env : EnrichEnv) (numbered : List (Nat × Text)) : Prop where
  lines : enrichedOf env numbered ≠ []
  ended : ∀ summary, (enrichAll env numbered summary).2 = none

/-- A run has no effects, or those on the inbox come first, and then those on the quarantine
folder. -/
theorem processFile_parts (m : Mount) (name : Text) (summary : EnrichSummary)
    (hread : readNumberedLines raw = some numbered) :
    ((processFile env m name raw summary false).effects = [] ∧
      (m.host.db.getEnrichedByIdentity name (env.sha256 raw) = none →
        (∀ summary, (enrichAll env numbered summary).2 = none) →
          enrichedEffects m.host.inbox name (env.sha256 raw) (enrichedOf env numbered) = none)) ∨
      m.host.db.getEnrichedByIdentity name (env.sha256 raw) = none ∧
      (∀ summary, (enrichAll env numbered summary).2 = none) ∧
      ∃ inbox quarantine rest,
        (processFile env m name raw summary false).effects = inbox ++ quarantine ++ rest ∧
        enrichedEffects m.host.inbox name (env.sha256 raw) (enrichedOf env numbered) =
        some inbox ∧
        (quarantine = [] ∨ quarantineEffects m.quarantine name (env.sha256 raw)
          ((recordsOf env numbered).map (·.dumps env.ucd)) = some quarantine) ∧
        ∀ e ∈ rest, e.Closes := by
  cases hrow : m.host.db.getEnrichedByIdentity name (env.sha256 raw) with
  | some row =>
    refine .inl ⟨?_, fun h => by cases h⟩
    simp only [processFile, hrow, Option.isSome_some, if_true]
  | none =>
    obtain ⟨hraised, hwritten⟩ := processFile_new m name summary hread hrow
    cases hall : (enrichAll env numbered (summary.discovered numbered)).2 with
    | some e =>
      refine .inl ⟨?_, fun _ h => by simp [h] at hall⟩
      simp only [processFile, hread, hrow, Option.isSome_none, Bool.false_eq_true, if_false]
      rw [← Prod.mk.eta (p := enrichAll env numbered (summary.discovered numbered)), hall]
    | none =>
      rw [hwritten hall, writeOut]
      have hended (summary : EnrichSummary) : (enrichAll env numbered summary).2 = none :=
        enrichAll_eq_none.mpr (enrichAll_eq_none.mp hall)
      obtain ⟨hen, hqu⟩ := enrichAll_batch hall
      rw [hen, hqu, ← enrichedOf, ← recordsOf]
      cases hinbox : enrichedEffects m.host.inbox name (env.sha256 raw)
        (enrichedOf env numbered) with
      | none => exact .inl ⟨rfl, fun _ _ => rfl⟩
      | some inbox =>
        refine .inr ⟨rfl, hended, inbox, ?_⟩
        cases hquarantine : quarantineEffects m.quarantine name (env.sha256 raw)
            ((recordsOf env numbered).map (·.dumps env.ucd)) with
        | none => exact ⟨[], [], by simp, rfl, .inl rfl, by simp⟩
        | some quarantine =>
          refine ⟨quarantine, _, rfl, rfl, .inr rfl, ?_⟩
          simp [FileEffect.Closes]

def attempt (env : EnrichEnv) (m : Mount) (name : Text) (raw : ByteArray) (summary : EnrichSummary)
    (cut : Option Nat) : Mount :=
  let fx := (processFile env m name raw summary false).effects
  (fx.take (cut.getD fx.length)).foldl FileEffect.apply m

/-- What an attempt comes to. Its file is put in place, if at all, by the second effect. -/
structure Attempted (env : EnrichEnv) (name : Text) (raw data : ByteArray)
    (numbered : List (Nat × Text)) (m m' : Mount) (cut : Option Nat) : Prop where
  db : m'.host.db = { m.host.db with enrichedFiles := m'.host.db.enrichedFiles }
  inbox : ∃ k, Wrote m.host.inbox m'.host.inbox
      (enrichedTarget m.host.inbox name (env.sha256 raw) data) data k ∧
    (2 ≤ k → Writes env numbered ∧
      m.host.db.getEnrichedByIdentity name (env.sha256 raw) = none ∧
      ∀ n, cut = some n → 2 ≤ n)
  placed : Writes env numbered → m.host.db.getEnrichedByIdentity name (env.sha256 raw) = none →
    (∀ n, cut = some n → 2 ≤ n) →
    m'.host.inbox.read (enrichedTarget m.host.inbox name (env.sha256 raw) data) = some data
  quarantine : ∀ data, encodeLines ((recordsOf env numbered).map (·.dumps env.ucd)) =
    some data →
    ∃ k, Wrote m.quarantine m'.quarantine
      (quarantineTarget m.quarantine name (env.sha256 raw) data) data k
  /-- The row is inserted after the writing. -/
  row : m'.host.db.enrichedFiles = m.host.db.enrichedFiles ∨ enrichedOf env numbered = [] ∨
    m'.host.inbox.read (enrichedTarget m.host.inbox name (env.sha256 raw) data) = some data

theorem attempt_attempted (m : Mount) (summary : EnrichSummary) (cut : Option Nat)
    (hread : readNumberedLines raw = some numbered)
    (hdata : encodeLines (enrichedOf env numbered) = some data) :
    Attempted env name raw data numbered m (attempt env m name raw summary cut) cut := by
  unfold attempt
  rcases processFile_parts m name summary hread with
    ⟨hnone, hwhy⟩ | ⟨hnew, hended, inbox, quarantine, rest, hfx, hinbox, hquarantine, hrest⟩
  · rw [hnone]
    simp only [List.take_nil, List.foldl_nil]
    refine ⟨rfl, ⟨0, .refl _ _ _, by simp⟩, fun hw hnew _ => ?_,
      fun _ _ => ⟨0, .refl _ _ _⟩, .inl rfl⟩
    have := hwhy hnew hw.ended
    rw [enrichedEffects, if_neg hw.lines, hdata] at this
    cases this
  · rw [hfx]
    simp only
    generalize hk : cut.getD (inbox ++ quarantine ++ rest).length = k
    obtain ⟨folder, hfolder, hwrote⟩ := foldl_take_effects m .inbox _ hinbox k
    obtain ⟨⟨j, hj, hinboxWrote, hlines⟩, hplaced⟩ := hwrote data hdata
    have hqu : ∃ folder', ((quarantine.take (k - inbox.length)).foldl FileEffect.apply
          (m.setShelf folder .inbox)) = (m.setShelf folder .inbox).setShelf folder' .quarantine ∧
        ∀ data, encodeLines ((recordsOf env numbered).map (·.dumps env.ucd)) = some data →
          ∃ k, Wrote m.quarantine folder'
            (quarantineTarget m.quarantine name (env.sha256 raw) data) data k := by
      rcases hquarantine with rfl | hquarantine
      · refine ⟨m.quarantine, ?_, fun _ _ => ⟨0, .refl _ _ _⟩⟩
        rw [List.take_nil]
        rfl
      · obtain ⟨folder', hfolder', hwrote'⟩ := foldl_take_effects (m.setShelf folder .inbox)
          .quarantine _ hquarantine (k - inbox.length)
        refine ⟨folder', hfolder', fun data hdata => ?_⟩
        obtain ⟨⟨j, -, h, -⟩, -⟩ := hwrote' data hdata
        exact ⟨j, h⟩
    obtain ⟨folder', hfolder', hwrote'⟩ := hqu
    rw [List.take_append, List.take_append, List.foldl_append, List.foldl_append, hfolder, hfolder']
    have hlast : ∀ e ∈ rest.take (k - (inbox ++ quarantine).length), e.Closes :=
      fun e he => hrest e (List.mem_of_mem_take he)
    have hclosed := foldl_closes hlast ((m.setShelf folder .inbox).setShelf folder' .quarantine)
    have hplace : enrichedOf env numbered ≠ [] → inbox.length ≤ k →
        ((rest.take (k - (inbox ++ quarantine).length)).foldl FileEffect.apply
          ((m.setShelf folder .inbox).setShelf folder' .quarantine)).host.inbox.read
            (enrichedTarget m.host.inbox name (env.sha256 raw) data) = some data := by
      intro hne hle
      rw [hclosed.inbox]
      exact hplaced hne hle
    refine ⟨hclosed.db, ⟨j, hclosed.inbox ▸ hinboxWrote, fun h2 => ?_⟩, fun hw _ hcut => ?_,
      fun data hdata => hclosed.quarantine ▸ hwrote' data hdata, ?_⟩
    · refine ⟨⟨hlines h2, hended⟩, hnew, fun n hn => ?_⟩
      rw [hn, Option.getD_some] at hk
      omega
    · refine hplace hw.lines ?_
      cases cut with
      | none =>
        rw [← hk, Option.getD_none, List.length_append, List.length_append]
        omega
      | some n =>
        have := hcut n rfl
        rw [Option.getD_some] at hk
        exact (enrichedEffects_length hinbox).trans (hk ▸ this)
    · by_cases hle : inbox.length ≤ k
      · by_cases hne : enrichedOf env numbered = []
        · exact .inr (.inl hne)
        · exact .inr (.inr (hplace hne hle))
      · left
        rw [show k - (inbox ++ quarantine).length = 0 by rw [List.length_append]; omega]
        rfl

end UbkiUploader
