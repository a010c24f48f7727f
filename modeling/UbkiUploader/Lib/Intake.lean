import Mathlib

/-!
# Intake

A folder is taken in file by file. A file whose name and digest the ledger does not know
gets an entry; one that is known may leave the folder. Whether a content was left under a
name, to wait in the folder or to be entered, is what none of this changes.
-/

namespace Intake

variable {ν β δ ι κ : Type}

structure Entry (ν δ κ : Type) where
  name : ν
  digest : δ
  content : κ

structure State (ν β δ ι κ : Type) where
  folder : ν → Option β
  ledger : ι → Option (Entry ν δ κ)

def State.Knows (s : State ν β δ ι κ) (n : ν) (d : δ) : Prop :=
  ∃ i e, s.ledger i = some e ∧ e.name = n ∧ e.digest = d

def State.Left (digest : β → δ) (s : State ν β δ ι κ) (n : ν) (d : δ) : Prop :=
  (∃ b, s.folder n = some b ∧ digest b = d) ∨ s.Knows n d

def State.Unique (s : State ν β δ ι κ) : Prop :=
  ∀ i j e e', s.ledger i = some e → s.ledger j = some e' → e.name = e'.name →
    e.digest = e'.digest → i = j

theorem left_congr {s t : State ν β δ ι κ} (hfolder : t.folder n = s.folder n)
    (hledger : t.ledger = s.ledger) : t.Left digest n d ↔ s.Left digest n d := by
  simp only [State.Left, State.Knows, hfolder, hledger]

theorem State.Unique.congr {s t : State ν β δ ι κ} (h : s.Unique)
    (hledger : t.ledger = s.ledger) :
    t.Unique := by
  unfold State.Unique
  rw [hledger]
  exact h

variable [DecidableEq ν] [DecidableEq ι]

inductive Step (digest : β → δ) (content : β → Option κ) (s : State ν β δ ι κ) :
    State ν β δ ι κ → Prop
  | enter (n : ν) (b : β) (i : ι) (c : κ) (hfile : s.folder n = some b)
      (hnew : ¬s.Knows n (digest b)) (hfree : s.ledger i = none) (hcontent : content b = some c) :
      Step digest content s
        { s with ledger := Function.update s.ledger i (some ⟨n, digest b, c⟩) }
  | shelve (n : ν) (b : β) (hfile : s.folder n = some b) (hknown : s.Knows n (digest b)) :
      Step digest content s { s with folder := Function.update s.folder n none }

variable {digest : β → δ} {content : β → Option κ} {s t : State ν β δ ι κ}
    {n : ν} {d : δ} {i : ι}
  {e : Entry ν δ κ}

namespace Step

theorem keeps (h : Step digest content s t) (he : s.ledger i = some e) : t.ledger i = some e := by
  cases h with
  | enter n b j c hfile hnew hfree hcontent =>
    have hne : i ≠ j := by
      rintro rfl
      rw [hfree] at he
      cases he
    exact (Function.update_of_ne hne _ _).trans he
  | shelve => exact he

theorem entered (h : Step digest content s t) (he : t.ledger i = some e) :
    s.ledger i = some e ∨ s.ledger i = none ∧ ¬s.Knows e.name e.digest ∧
      ∃ b, s.folder e.name = some b ∧ digest b = e.digest ∧ content b = some e.content := by
  cases h with
  | enter n b j c hfile hnew hfree hcontent =>
    by_cases hij : i = j
    · subst hij
      obtain rfl : (⟨n, digest b, c⟩ : Entry ν δ κ) = e := by simpa using he
      exact .inr ⟨hfree, hnew, b, hfile, rfl, hcontent⟩
    · exact .inl ((Function.update_of_ne hij _ _).symm.trans he)
  | shelve => exact .inl he

theorem knows (h : Step digest content s t) (hk : s.Knows n d) : t.Knows n d := by
  obtain ⟨i, e, he, hname, hdigest⟩ := hk
  exact ⟨i, e, h.keeps he, hname, hdigest⟩

theorem unique (h : Step digest content s t) (hu : s.Unique) : t.Unique := by
  intro i j e e' he he' hname hdigest
  rcases h.entered he with hi | ⟨hi, hnew, -⟩
  · rcases h.entered he' with hj | ⟨-, hnew', -⟩
    · exact hu i j e e' hi hj hname hdigest
    · exact absurd ⟨i, e, hi, hname, hdigest⟩ hnew'
  · rcases h.entered he' with hj | ⟨hj, -⟩
    · exact absurd ⟨j, e', hj, hname.symm, hdigest.symm⟩ hnew
    · cases h with
      | enter n b k c hfile hnew hfree hcontent =>
        -- only one place of the ledger was filled
        have hfilled : ∀ l, s.ledger l = none → ∀ a,
            Function.update s.ledger k (some ⟨n, digest b, c⟩) l = some a → l = k := by
          intro l hl a ha
          by_contra hne
          rw [Function.update_of_ne hne, hl] at ha
          cases ha
        rw [hfilled i hi e he, hfilled j hj e' he']
      | shelve =>
        rw [hi] at he
        cases he

theorem left_iff (h : Step digest content s t) : t.Left digest n d ↔ s.Left digest n d := by
  constructor
  · rintro (⟨b, hb, rfl⟩ | ⟨i, e, he, rfl, rfl⟩)
    · cases h with
      | enter => exact .inl ⟨b, hb, rfl⟩
      | shelve n' =>
        refine .inl ⟨b, ?_, rfl⟩
        by_cases hn : n = n'
        · subst hn
          simp at hb
        · exact (Function.update_of_ne hn _ _).symm.trans hb
    · rcases h.entered he with hi | ⟨-, -, b, hb, hdigest, -⟩
      · exact .inr ⟨i, e, hi, rfl, rfl⟩
      · exact .inl ⟨b, hb, hdigest⟩
  · rintro (⟨b, hb, rfl⟩ | hk)
    · cases h with
      | enter => exact .inl ⟨b, hb, rfl⟩
      | shelve n' b' hfile hknown =>
        by_cases hn : n = n'
        · subst hn
          obtain rfl : b = b' := Option.some.inj (hb.symm.trans hfile)
          exact .inr hknown
        · exact .inl ⟨b, (Function.update_of_ne hn _ _).trans hb, rfl⟩
    · exact .inr (h.knows hk)

theorem folder_of (h : Step digest content s t) (hfile : t.folder n = some b) :
    s.folder n = some b := by
  cases h with
  | enter => exact hfile
  | shelve n' =>
    by_cases hn : n = n'
    · subst hn
      simp at hfile
    · exact (Function.update_of_ne hn _ _).symm.trans hfile

theorem stays (h : Step digest content s t) (hunread : content b = none)
    (hfile : s.folder n = some b) (hnew : ¬s.Knows n (digest b)) :
    t.folder n = some b ∧ ¬t.Knows n (digest b) := by
  constructor
  · cases h with
    | enter => exact hfile
    | shelve n' b' hfile' hknown =>
      have hne : n ≠ n' := by
        rintro rfl
        obtain rfl : b = b' := Option.some.inj (hfile.symm.trans hfile')
        exact hnew hknown
      exact (Function.update_of_ne hne _ _).trans hfile
  · rintro ⟨i, e, he, rfl, hdigest⟩
    rcases h.entered he with hold | ⟨-, -, b', hfile', -, hcontent⟩
    · exact hnew ⟨i, e, hold, rfl, hdigest⟩
    · obtain rfl : b = b' := Option.some.inj (hfile.symm.trans hfile')
      rw [hunread] at hcontent
      cases hcontent

end Step

-- ---------------------------------------------------------------------------
-- Many steps
-- ---------------------------------------------------------------------------

abbrev Steps (digest : β → δ) (content : β → Option κ) :
    State ν β δ ι κ → State ν β δ ι κ → Prop :=
  Relation.ReflTransGen (Step digest content)

namespace Steps

theorem keeps (h : Steps digest content s t) (he : s.ledger i = some e) : t.ledger i = some e := by
  induction h with
  | refl => exact he
  | tail _ hstep ih => exact hstep.keeps ih

theorem knows (h : Steps digest content s t) (hk : s.Knows n d) : t.Knows n d := by
  induction h with
  | refl => exact hk
  | tail _ hstep ih => exact hstep.knows ih

theorem unique (h : Steps digest content s t) (hu : s.Unique) : t.Unique := by
  induction h with
  | refl => exact hu
  | tail _ hstep ih => exact hstep.unique ih

theorem left_iff (h : Steps digest content s t) : t.Left digest n d ↔ s.Left digest n d := by
  induction h with
  | refl => rfl
  | tail _ hstep ih => rw [hstep.left_iff, ih]

theorem stays (h : Steps digest content s t) (hunread : content b = none)
    (hfile : s.folder n = some b) (hnew : ¬s.Knows n (digest b)) :
    t.folder n = some b ∧ ¬t.Knows n (digest b) := by
  induction h with
  | refl => exact ⟨hfile, hnew⟩
  | tail _ hstep ih => exact hstep.stays hunread ih.1 ih.2

theorem entered (h : Steps digest content s t) (he : t.ledger i = some e) :
    s.ledger i = some e ∨ s.ledger i = none ∧
      ∃ b, digest b = e.digest ∧ content b = some e.content := by
  induction h with
  | refl => exact .inl he
  | tail hsteps hstep ih =>
    rcases hstep.entered he with hmid | ⟨hfree, -, b, -, hdigest, hcontent⟩
    · exact ih hmid
    · refine .inr ⟨?_, b, hdigest, hcontent⟩
      by_contra hsome
      obtain ⟨e₀, he₀⟩ := Option.ne_none_iff_exists'.mp hsome
      rw [keeps hsteps he₀] at hfree
      cases hfree

theorem folder_of (h : Steps digest content s t) (hfile : t.folder n = some b) :
    s.folder n = some b := by
  induction h with
  | refl => exact hfile
  | tail _ hstep ih => exact ih (hstep.folder_of hfile)

theorem came_from (h : Steps digest content s t) (he : t.ledger i = some e) :
    s.ledger i = some e ∨
      ∃ b, s.folder e.name = some b ∧ digest b = e.digest ∧ content b = some e.content := by
  induction h with
  | refl => exact .inl he
  | tail hsteps hstep ih =>
    rcases hstep.entered he with hmid | ⟨-, -, b, hfile, hdigest, hcontent⟩
    · exact ih hmid
    · exact .inr ⟨b, folder_of hsteps hfile, hdigest, hcontent⟩

end Steps
end Intake
