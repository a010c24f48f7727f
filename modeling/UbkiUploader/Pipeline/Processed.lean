import UbkiUploader.Pipeline.Inbox

/-!
# What becomes of the raw files

A raw file leaves the raw folder only for the processed one, last of all, so that a run that
was cut off meets it again. Where names keep apart no raw file is lost.
-/

namespace UbkiUploader

variable {digest : ByteArray → Text} {chores later all : List Chore} {c : Chore} {m m' : Mount}
  {name : Text} {raw : ByteArray}

def Chore.Digests (digest : ByteArray → Text) : Chore → Prop
  | .process s _ _ => s.sha256 = digest
  | .upload d => d.Digests digest
  | .drop _ => True

def Dropped (chores : List Chore) (name : Text) (raw : ByteArray) : Prop :=
  ∃ folder, .drop folder ∈ chores ∧ folder.read name = some raw

theorem chore_filed (hc : c.Digests digest) (h : chore m c = some m') :
    (∃ raw, c = .drop raw ∧ m' = { m with raw }) ∨
      Relation.ReflGen (Filing.Step spareName digest) m.filing m'.filing := by
  cases c with
  | drop raw =>
    cases h
    exact .inl ⟨raw, rfl, rfl⟩
  | process s name cut =>
    obtain rfl := hc
    obtain ⟨raw, hread, rfl⟩ := Option.map_eq_some_iff.mp h
    exact .inr (attempt_worked hread {} cut : Worked (s.env name) name raw m _).filing
  | upload d =>
    obtain ⟨host, -, rfl⟩ := Option.map_eq_some_iff.mp h
    exact .inr .refl

theorem chores_history (hdigest : ∀ c ∈ chores, c.Digests digest) (hall : chores ⊆ all)
    (hrun : Machine.run chore m chores = some m') :
    Filing.History spareName digest (Dropped all) m.filing m'.filing := by
  have hturn (m : Mount) (c : Chore) (m' : Mount) (_ : True) (hc : c.Digests digest ∧ c ∈ all)
      (h : chore m c = some m') :
      True ∧ Filing.Turn spareName digest (Dropped all) m.filing m'.filing := by
    refine ⟨trivial, ?_⟩
    rcases chore_filed hc.1 h with ⟨raw, rfl, rfl⟩ | hsteps
    · exact .filled raw.read fun hread => ⟨raw, hc.2, hread⟩
    · exact .filed _ hsteps.to_reflTransGen
  exact (Machine.run_simulates Mount.filing (fun _ => True) hturn trivial
    (fun c hc => ⟨hdigest c hc, hall hc⟩) hrun).2

theorem chores_steps (hdigest : ∀ c ∈ later, c.Digests digest)
    (hnone : ∀ raw, .drop raw ∉ later)
    (hrun : Machine.run chore m later = some m') :
    Filing.Steps spareName digest m.filing m'.filing := by
  have hturn (m : Mount) (c : Chore) (m' : Mount) (_ : True)
      (hc : c.Digests digest ∧ ∀ raw, c ≠ .drop raw) (h : chore m c = some m') :
      True ∧ Filing.Steps spareName digest m.filing m'.filing := by
    refine ⟨trivial, ?_⟩
    rcases chore_filed hc.1 h with ⟨raw, rfl, -⟩ | hsteps
    · exact absurd rfl (hc.2 raw)
    · exact hsteps.to_reflTransGen
  have hsteps := (Machine.run_simulates Mount.filing (fun _ => True) hturn trivial
    (fun c hc => ⟨hdigest c hc, fun raw heq => hnone raw (heq ▸ hc)⟩) hrun).2
  rwa [Relation.reflTransGen_eq_self] at hsteps

/-- Where the names keep apart the processed folder only grows, and what is taken out of the
raw folder is in it. -/
theorem processed_keeps (digest : ByteArray → Text) (chores later : List Chore) (m m' : Mount)
    (hdigest : ∀ c ∈ chores ++ later, c.Digests digest)
    (hapart : NamesApart digest (Dropped (chores ++ later)))
    (hrun : Machine.run chore { host := {} } chores = some m)
    (hlater : Machine.run chore m later = some m') :
    (∀ name raw, m.processed.read name = some raw → m'.processed.read name = some raw) ∧
    ((∀ raw, .drop raw ∉ later) → ∀ name raw, m.raw.read name = some raw →
      m'.raw.read name = some raw ∨ m'.processed.read name = some raw ∨
        m'.processed.read (spareName (digest raw) name) = some raw) := by
  have hempty : Filing.Fits spareName digest (Dropped (chores ++ later))
      (Mount.filing { host := {} }) := ⟨by simp [Mount.filing], by simp [Mount.filing]⟩
  have hdigest' : ∀ c ∈ later, c.Digests digest :=
    fun c hc => hdigest c (List.mem_append_right _ hc)
  have hfits := (chores_history (fun c hc => hdigest c (List.mem_append_left _ hc))
    (List.subset_append_left chores later) hrun).fits hempty
  refine ⟨fun name raw hheld => ?_, fun hnone name raw hread => ?_⟩
  · exact (chores_history hdigest' (List.subset_append_right chores later) hlater).keeps
      hapart.apart hfits hheld
  · rcases (chores_steps hdigest' hnone hlater).arrives hapart.apart hfits hread with
      hstays | ⟨u, rfl | rfl, hheld⟩
    · exact .inl hstays
    · exact .inr (.inl hheld)
    · exact .inr (.inr hheld)

theorem dropped_client (honly : ∀ folder, .drop folder ∈ chores → folder = clientRaw.raw)
    (h : Dropped chores name raw) :
    name = Text.lit "a.jsonl" ∧ raw = clientLine.toByteArray := by
  obtain ⟨folder, hmem, hread⟩ := h
  obtain rfl := honly folder hmem
  rw [show clientRaw.raw = (∅ : Folder Text).write (Text.lit "a.jsonl") clientLine.toByteArray
    from rfl, Folder.read_write] at hread
  split at hread
  · rename_i hname
    exact ⟨hname, (Option.some.inj hread).symm⟩
  · cases hread

/-- The client's raw file is processed, and then dropped again. -/
theorem processed_keeps_client :
    ∃ m' again, Machine.run chore clientRaw [.process clientSite (Text.lit "a.jsonl") none] =
        some m' ∧
      m'.raw.read (Text.lit "a.jsonl") = none ∧
      (m'.processed.read (Text.lit "a.jsonl") = some clientLine.toByteArray ∨
        m'.processed.read (spareName (clientSite.sha256 clientLine.toByteArray)
          (Text.lit "a.jsonl")) = some clientLine.toByteArray) ∧
      Machine.run chore m' [.drop clientRaw.raw] = some again ∧
      ∀ name raw, m'.processed.read name = some raw → again.processed.read name = some raw := by
  have hruns : (Machine.run chore clientRaw [.process clientSite (Text.lit "a.jsonl") none]).map
      (fun m => (m.raw.read (Text.lit "a.jsonl")).isNone) = some true := by decide +kernel
  obtain ⟨m', hrun, hgone⟩ := Option.map_eq_some_iff.mp hruns
  have hgone := Option.isNone_iff_eq_none.mp hgone
  have harrives := (processed_keeps clientSite.sha256 [.drop clientRaw.raw]
    [.process clientSite (Text.lit "a.jsonl") none] clientRaw m' (by simp [Chore.Digests])
    (.single wide_client fun _ _ => dropped_client (by simp)) rfl hrun).2 (by simp)
    (Text.lit "a.jsonl") clientLine.toByteArray rfl
  have hboth : Machine.run chore { host := {} }
      ([.drop clientRaw.raw] ++ [.process clientSite (Text.lit "a.jsonl") none]) = some m' :=
    Machine.run_append_of rfl hrun
  have hdigest : ∀ c ∈ ([.drop clientRaw.raw] ++
      [.process clientSite (Text.lit "a.jsonl") none]) ++ [.drop clientRaw.raw],
      Chore.Digests clientSite.sha256 c := by simp [Chore.Digests]
  have honly : ∀ folder, Chore.drop folder ∈ ([.drop clientRaw.raw] ++
      [.process clientSite (Text.lit "a.jsonl") none]) ++ [.drop clientRaw.raw] →
      folder = clientRaw.raw := by simp
  have hagain : Machine.run chore m' [.drop clientRaw.raw] =
      some { m' with raw := clientRaw.raw } := rfl
  have hnames : NamesApart clientSite.sha256 (Dropped (([.drop clientRaw.raw] ++
      [.process clientSite (Text.lit "a.jsonl") none]) ++ [.drop clientRaw.raw])) :=
    .single wide_client fun _ _ => dropped_client honly
  have hkeeps := (processed_keeps clientSite.sha256 _ _ m' { m' with raw := clientRaw.raw }
    hdigest hnames hboth hagain).1
  refine ⟨m', { m' with raw := clientRaw.raw }, hrun, hgone, ?_, hagain, hkeeps⟩
  rcases harrives with hstays | hheld
  · rw [hgone] at hstays
    cases hstays
  · exact hheld

end UbkiUploader
