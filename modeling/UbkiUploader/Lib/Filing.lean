import Mathlib

/-!
# Filing

Files are moved from a source to a shelf, each under its own name, or under a spare one
made of its digest when the name is taken. What the shelf holds under the spare name is
replaced, so that nothing is lost only where the names of the files keep apart.
-/

namespace Filing

variable {ν β δ : Type}

structure State (ν β : Type) where
  source : ν → Option β
  shelf : ν → Option β

def place (spare : δ → ν → ν) (shelf : ν → Option β) (n : ν) (d : δ) : ν :=
  if (shelf n).isSome then spare d n else n

theorem place_cases (spare : δ → ν → ν) (shelf : ν → Option β) (n : ν) (d : δ) :
    place spare shelf n d = n ∧ shelf n = none ∨ place spare shelf n d = spare d n := by
  unfold place
  split
  · exact .inr rfl
  · rename_i hfree
    exact .inl ⟨rfl, by simpa using hfree⟩

/-- No spare name is the name of a file, and equal spare names are of equal contents. -/
structure Apart (spare : δ → ν → ν) (digest : β → δ) (files : ν → β → Prop) :
    Prop where
  names : ∀ {n b n' b'}, files n b → files n' b' → spare (digest b) n ≠ n'
  contents : ∀ {n b n' b'}, files n b → files n' b' →
    spare (digest b) n = spare (digest b') n' → b = b'

/-- What is in the two folders is of the files, and on the shelf under one of its names. -/
structure Fits (spare : δ → ν → ν) (digest : β → δ) (files : ν → β → Prop)
    (s : State ν β) :
    Prop where
  source : ∀ {n b}, s.source n = some b → files n b
  shelf : ∀ {t b}, s.shelf t = some b → ∃ n, files n b ∧ (t = n ∨ t = spare (digest b) n)

variable [DecidableEq ν]

inductive Step (spare : δ → ν → ν) (digest : β → δ) (s : State ν β) :
    State ν β → Prop
  | file (n : ν) (b : β) (hfile : s.source n = some b) :
      Step spare digest s
        { source := Function.update s.source n none
          shelf := Function.update s.shelf (place spare s.shelf n (digest b)) (some b) }

variable {spare : δ → ν → ν} {digest : β → δ} {files : ν → β → Prop}
    {s t : State ν β} {n : ν} {b : β}

omit [DecidableEq ν] in
theorem Fits.free (hf : Fits spare digest files s) (ha : Apart spare digest files)
    (hfile : files n b) (hheld : s.shelf (place spare s.shelf n (digest b)) = some b') :
    b' = b := by
  rcases place_cases spare s.shelf n (digest b) with ⟨hplace, hfree⟩ | hplace
  · rw [hplace, hfree] at hheld
    cases hheld
  · rw [hplace] at hheld
    obtain ⟨n', hfile', hname | hname⟩ := hf.shelf hheld
    · exact absurd hname (ha.names hfile hfile')
    · exact (ha.contents hfile hfile' hname).symm

namespace Step

theorem fits (h : Step spare digest s t) (hf : Fits spare digest files s) :
    Fits spare digest files t := by
  obtain ⟨n, b, hfile⟩ := h
  constructor
  · intro m c hm
    by_cases hn : m = n
    · subst hn
      simp at hm
    · exact hf.source ((Function.update_of_ne hn _ _).symm.trans hm)
  · intro u c hu
    by_cases hplace : u = place spare s.shelf n (digest b)
    · subst hplace
      obtain rfl : b = c := by simpa using hu
      refine ⟨n, hf.source hfile, ?_⟩
      rcases place_cases spare s.shelf n (digest b) with ⟨hplace, -⟩ | hplace
      · exact .inl hplace
      · exact .inr hplace
    · exact hf.shelf ((Function.update_of_ne hplace _ _).symm.trans hu)

theorem keeps (h : Step spare digest s t) (ha : Apart spare digest files)
    (hf : Fits spare digest files s) (hheld : s.shelf u = some c) : t.shelf u = some c := by
  obtain ⟨n, b, hfile⟩ := h
  by_cases hplace : u = place spare s.shelf n (digest b)
  · subst hplace
    obtain rfl := hf.free ha (hf.source hfile) hheld
    exact Function.update_self _ _ _
  · exact (Function.update_of_ne hplace _ _).trans hheld

theorem source_of (h : Step spare digest s t) (hfile : t.source n = some b) :
    s.source n = some b := by
  obtain ⟨m, c, -⟩ := h
  by_cases hn : n = m
  · subst hn
    simp at hfile
  · exact (Function.update_of_ne hn _ _).symm.trans hfile

theorem arrives (h : Step spare digest s t) (hfile : s.source n = some b) :
    t.source n = some b ∨ ∃ u, (u = n ∨ u = spare (digest b) n) ∧ t.shelf u = some b := by
  obtain ⟨m, c, hm⟩ := h
  by_cases hn : n = m
  · subst hn
    obtain rfl : c = b := Option.some.inj (hm.symm.trans hfile)
    refine .inr ⟨place spare s.shelf n (digest c), ?_, Function.update_self _ _ _⟩
    rcases place_cases spare s.shelf n (digest c) with ⟨hplace, -⟩ | hplace
    · exact .inl hplace
    · exact .inr hplace
  · exact .inl ((Function.update_of_ne hn _ _).trans hfile)

end Step

-- ---------------------------------------------------------------------------
-- Many steps
-- ---------------------------------------------------------------------------

abbrev Steps (spare : δ → ν → ν) (digest : β → δ) :
    State ν β → State ν β → Prop :=
  Relation.ReflTransGen (Step spare digest)

namespace Steps

theorem fits (h : Steps spare digest s t) (hf : Fits spare digest files s) :
    Fits spare digest files t := by
  induction h with
  | refl => exact hf
  | tail _ hstep ih => exact hstep.fits ih

theorem keeps (h : Steps spare digest s t) (ha : Apart spare digest files)
    (hf : Fits spare digest files s) (hheld : s.shelf u = some c) : t.shelf u = some c := by
  induction h with
  | refl => exact hheld
  | tail hsteps hstep ih => exact hstep.keeps ha (fits hsteps hf) ih

theorem arrives (h : Steps spare digest s t) (ha : Apart spare digest files)
    (hf : Fits spare digest files s) (hfile : s.source n = some b) :
    t.source n = some b ∨ ∃ u, (u = n ∨ u = spare (digest b) n) ∧ t.shelf u = some b := by
  induction h with
  | refl => exact .inl hfile
  | tail hsteps hstep ih =>
    rcases ih with hstays | ⟨u, hname, hheld⟩
    · exact hstep.arrives hstays
    · exact .inr ⟨u, hname, hstep.keeps ha (fits hsteps hf) hheld⟩

end Steps

-- ---------------------------------------------------------------------------
-- Files that come in between
-- ---------------------------------------------------------------------------

inductive Turn (spare : δ → ν → ν) (digest : β → δ) (files : ν → β → Prop)
    (s : State ν β) :
    State ν β → Prop
  | filed (u : State ν β) (hsteps : Steps spare digest s u) : Turn spare digest files s u
  | filled (source : ν → Option β) (hfiles : ∀ {n b}, source n = some b → files n b) :
      Turn spare digest files s { s with source }

abbrev History (spare : δ → ν → ν) (digest : β → δ) (files : ν → β → Prop) :
    State ν β → State ν β → Prop := Relation.ReflTransGen (Turn spare digest files)

namespace History

theorem fits (h : History spare digest files s t) (hf : Fits spare digest files s) :
    Fits spare digest files t := by
  induction h with
  | refl => exact hf
  | tail _ hturn ih =>
    cases hturn with
    | filed u hsteps => exact hsteps.fits ih
    | filled source hfiles => exact ⟨hfiles, ih.shelf⟩

theorem keeps (h : History spare digest files s t) (ha : Apart spare digest files)
    (hf : Fits spare digest files s) (hheld : s.shelf u = some c) : t.shelf u = some c := by
  induction h with
  | refl => exact hheld
  | tail hturns hturn ih =>
    cases hturn with
    | filed u hsteps => exact hsteps.keeps ha (fits hturns hf) ih
    | filled => exact ih

end History
end Filing
