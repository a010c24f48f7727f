import Mathlib

/-!
# Points that keep a distance

Points on a line, each at least `δ` after every earlier one. `Spaced.length_le` bounds how
many of them any stretch of the line holds; windows closed at one end are such stretches.
-/

variable {K : Type*} [Field K] [LinearOrder K] [IsStrictOrderedRing K] [FloorSemiring K]
variable {δ : K} {points : List K}

def Spaced (δ : K) (points : List K) : Prop := points.Pairwise fun a b => a + δ ≤ b

namespace Spaced

omit [IsStrictOrderedRing K] [FloorSemiring K]

theorem concat (h : Spaced δ points) (hb : ∀ a ∈ points, a + δ ≤ b) :
    Spaced δ (points ++ [b]) := by
  refine List.pairwise_append.mpr ⟨h, List.pairwise_singleton _ _, ?_⟩
  intro a ha c hc
  rw [List.mem_singleton.mp hc]
  exact hb a ha

theorem filter (h : Spaced δ points) (p : K → Bool) : Spaced δ (points.filter p) :=
  List.Pairwise.filter p h

variable [IsStrictOrderedRing K]

theorem increasing (hδ : 0 < δ) (h : Spaced δ points) : points.Pairwise (· < ·) :=
  List.Pairwise.imp (fun hab => lt_of_lt_of_le (lt_add_of_pos_right _ hδ) hab) h

/-- The last of the points is as far from the first as there are steps between them. -/
theorem exists_far (h : Spaced δ (a :: points)) :
    ∃ b ∈ a :: points, a + points.length * δ ≤ b := by
  induction points generalizing a with
  | nil => exact ⟨a, List.mem_cons_self, by simp⟩
  | cons c points ih =>
    obtain ⟨hfirst, hrest⟩ := List.pairwise_cons.mp h
    obtain ⟨b, hb, hfar⟩ := ih hrest
    have hstep : a + δ ≤ c := hfirst c List.mem_cons_self
    refine ⟨b, List.mem_cons_of_mem _ hb, ?_⟩
    calc a + ((c :: points).length : K) * δ
        = a + δ + points.length * δ := by rw [List.length_cons]; push_cast; ring
      _ ≤ c + points.length * δ := by gcongr
      _ ≤ b := hfar

variable [FloorSemiring K]

/-- Points less than `w` apart are at most `w / δ`, rounded up. -/
theorem length_le (hδ : 0 < δ) (h : Spaced δ points)
    (hnear : ∀ a ∈ points, ∀ b ∈ points, b - a < w) :
    points.length ≤ ⌈w / δ⌉₊ := by
  cases points with
  | nil => exact Nat.zero_le _
  | cons a points =>
    obtain ⟨b, hb, hfar⟩ := h.exists_far
    have hlt : points.length * δ < w := by
      have := hnear a List.mem_cons_self b hb
      linarith
    rw [List.length_cons, Nat.succ_le_iff, Nat.lt_ceil, lt_div_iff₀ hδ]
    exact hlt

theorem length_window_le (hδ : 0 < δ) (h : Spaced δ points) (t w : K) :
    (points.filter fun s => t ≤ s ∧ s < t + w).length ≤ ⌈w / δ⌉₊ := by
  refine (h.filter _).length_le hδ ?_
  intro a ha b hb
  simp only [List.mem_filter, decide_eq_true_eq] at ha hb
  linarith

theorem length_window_le' (hδ : 0 < δ) (h : Spaced δ points) (t w : K) :
    (points.filter fun s => t < s ∧ s ≤ t + w).length ≤ ⌈w / δ⌉₊ := by
  refine (h.filter _).length_le hδ ?_
  intro a ha b hb
  simp only [List.mem_filter, decide_eq_true_eq] at ha hb
  linarith

end Spaced
