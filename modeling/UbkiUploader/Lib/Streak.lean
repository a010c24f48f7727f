import Mathlib

/-!
# Runs of consecutive hits

A monitor reads a sequence of signals and counts the hits since the last reset;
a neutral signal is no evidence either way and leaves the count alone. The
monitor trips at a hit that brings the count to the threshold.

`reaches_iff_window` says what tripping means without a counter: somewhere in
the sequence lie `t` hits with no reset between them, where a count carried in
from an earlier sequence stands for hits before the first signal.
-/

namespace Streak

inductive Signal
  | hit
  | reset
  | neutral
  deriving DecidableEq, Repr

def next (n : Nat) : Signal → Nat
  | .hit => n + 1
  | .reset => 0
  | .neutral => n

def count (n : Nat) (l : List Signal) : Nat := l.foldl next n

/-- A hit that brings the count to `t`. -/
def trips (t n : Nat) (s : Signal) : Bool := s = .hit && t ≤ n + 1

def reaches (t : Nat) : Nat → List Signal → Bool
  | _, [] => false
  | n, s :: l => trips t n s || reaches t (next n s) l

/-- How many signals come before the first one that trips. -/
def quiet (t : Nat) : Nat → List Signal → Nat
  | _, [] => 0
  | n, s :: l => if trips t n s then 0 else quiet t (next n s) l + 1

-- ---------------------------------------------------------------------------
-- Sequences taken apart
-- ---------------------------------------------------------------------------

@[simp] theorem count_nil : count n [] = n := rfl

@[simp] theorem count_append : count n (a ++ b) = count (count n a) b := by
  simp [count]

@[simp] theorem count_singleton : count n [s] = next n s := rfl

@[simp] theorem reaches_nil : reaches t n [] = false := rfl

theorem reaches_append :
    reaches t n (a ++ b) = (reaches t n a || reaches t (count n a) b) := by
  induction a generalizing n with
  | nil => simp
  | cons s a ih => simp [reaches, ih, count, Bool.or_assoc]

theorem reaches_snoc : reaches t n (a ++ [s]) = (reaches t n a || trips t (count n a) s) := by
  simp [reaches_append, reaches]

theorem quiet_of_not_reaches (h : reaches t n l = false) : quiet t n l = l.length := by
  induction l generalizing n with
  | nil => rfl
  | cons s l ih =>
    simp only [reaches, Bool.or_eq_false_iff] at h
    simp [quiet, h.1, ih h.2]

theorem quiet_lt_of_reaches (h : reaches t n l = true) : quiet t n l < l.length := by
  induction l generalizing n with
  | nil => simp at h
  | cons s l ih =>
    simp only [quiet, List.length_cons]
    split
    · omega
    · rename_i hs
      have hl : reaches t (next n s) l = true := by simpa [reaches, hs] using h
      have := ih hl
      omega

theorem quiet_eq_length_iff : quiet t n l = l.length ↔ reaches t n l = false := by
  constructor
  · intro h
    by_contra hr
    have := quiet_lt_of_reaches (by simpa using hr)
    omega
  · exact quiet_of_not_reaches

/-- Once the monitor has tripped, later signals no longer matter. -/
theorem quiet_append_of_reaches (h : reaches t n a = true) : quiet t n (a ++ b) = quiet t n a := by
  induction a generalizing n with
  | nil => simp at h
  | cons s a ih =>
    simp only [List.cons_append, quiet]
    split
    · rfl
    · rename_i hs
      rw [ih (by simpa [reaches, hs] using h)]

theorem quiet_snoc :
    quiet t n (a ++ [s]) = if reaches t n (a ++ [s]) then quiet t n a else a.length + 1 := by
  split
  · rename_i h
    rw [reaches_snoc, Bool.or_eq_true] at h
    rcases ha : reaches t n a with _ | _
    · rw [quiet_of_not_reaches ha]
      induction a generalizing n with
      | nil =>
        have ht : trips t n s = true := by simpa using h
        simp [quiet, ht]
      | cons r a ih =>
        simp only [reaches, Bool.or_eq_false_iff] at ha
        have hs : trips t (count (next n r) a) s = true := by simpa [ha, count, reaches] using h
        simp [quiet, ha.1, ih (.inr hs) ha.2]
    · exact quiet_append_of_reaches ha
  · rename_i h
    rw [quiet_of_not_reaches (by simpa using h)]
    simp

theorem le_quiet_iff (hk : k ≤ l.length) :
    k ≤ quiet t n l ↔ reaches t n (l.take k) = false := by
  induction l generalizing n k with
  | nil => simp_all [quiet]
  | cons s l ih =>
    cases k with
    | zero => simp
    | succ k =>
      simp only [List.length_cons, Nat.add_le_add_iff_right] at hk
      simp only [quiet, List.take_succ_cons, reaches]
      split
      · rename_i hs
        simp [hs]
      · rename_i hs
        simp [hs, ih hk]

-- ---------------------------------------------------------------------------
-- When the monitor trips
-- ---------------------------------------------------------------------------

theorem reaches_of_no_hit (h : .hit ∉ l) : reaches t n l = false := by
  induction l generalizing n with
  | nil => rfl
  | cons s l ih =>
    simp only [List.mem_cons, not_or] at h
    simp [reaches, trips, Ne.symm h.1, ih h.2]

/-- A sequence of hits only: the monitor trips at the one that fills the gap
left to the threshold. -/
theorem quiet_hits_le (h : ∀ s ∈ l, s = .hit) : quiet t n l ≤ t - n - 1 := by
  induction l generalizing n with
  | nil => simp [quiet]
  | cons s l ih =>
    obtain rfl := h s (by simp)
    have hl := ih (n := n + 1) fun s hs => h s (List.mem_cons_of_mem _ hs)
    simp only [quiet, trips, next]
    split
    · omega
    · rename_i ht
      simp only [decide_true, Bool.true_and, decide_eq_true_eq] at ht
      omega

/-- An unbroken stretch holding enough hits trips the monitor. -/
theorem reaches_of_unbroken (hb : .reset ∉ b) (h0 : 0 < b.count .hit)
    (ht : t ≤ n + b.count .hit) : reaches t n b = true := by
  induction b generalizing n with
  | nil => simp at h0
  | cons s b ih =>
    simp only [List.mem_cons, not_or] at hb
    cases s with
    | hit =>
      simp only [List.count_cons_self] at ht
      by_cases hn : t ≤ n + 1
      · simp [reaches, trips, hn]
      · have := ih (n := n + 1) hb.2 (by omega) (by omega)
        simp [reaches, next, this]
    | reset => simp at hb
    | neutral =>
      have hc : (Signal.neutral :: b).count .hit = b.count .hit := by simp
      rw [hc] at h0 ht
      simp [reaches, next, ih hb.2 h0 ht]

theorem reaches_mono (hm : m ≤ n) (h : reaches t m l = true) : reaches t n l = true := by
  induction l generalizing m n with
  | nil => simp at h
  | cons s l ih =>
    simp only [reaches, Bool.or_eq_true] at h ⊢
    rcases h with h | h
    · simp only [trips, Bool.and_eq_true, decide_eq_true_eq] at h ⊢
      exact .inl ⟨h.1, by omega⟩
    · refine .inr (ih ?_ h)
      cases s <;> simp [next, hm]

/-- Tripping without a counter: an unbroken stretch with a hit in it reaches the
threshold, counting what was carried in when the stretch is a prefix. -/
theorem reaches_iff_window :
    reaches t n l = true ↔
      (∃ b c, l = b ++ c ∧ .reset ∉ b ∧ 0 < b.count .hit ∧ t ≤ n + b.count .hit) ∨
      ∃ a b c, l = a ++ b ++ c ∧ .reset ∉ b ∧ 0 < b.count .hit ∧ t ≤ b.count .hit := by
  constructor
  · intro h
    induction l generalizing n with
    | nil => simp at h
    | cons s l ih =>
      simp only [reaches, Bool.or_eq_true] at h
      rcases h with h | h
      · simp only [trips, Bool.and_eq_true, decide_eq_true_eq] at h
        obtain ⟨rfl, ht⟩ := h
        exact .inl ⟨[.hit], l, rfl, by simp, by simp, by simpa using ht⟩
      · rcases ih h with ⟨b, c, rfl, hb, h0, ht⟩ | ⟨a, b, c, rfl, hb, h0, ht⟩
        · cases s with
          | hit =>
            refine .inl ⟨.hit :: b, c, rfl, by simpa using hb, by simp, ?_⟩
            simp only [List.count_cons_self, next] at ht ⊢
            omega
          | reset => exact .inr ⟨[.reset], b, c, rfl, hb, h0, by simpa [next] using ht⟩
          | neutral =>
            exact .inl ⟨.neutral :: b, c, rfl, by simpa using hb, by simpa using h0,
              by simpa [next] using ht⟩
        · exact .inr ⟨s :: a, b, c, rfl, hb, h0, ht⟩
  · rintro (⟨b, c, rfl, hb, h0, ht⟩ | ⟨a, b, c, rfl, hb, h0, ht⟩)
    · simp [reaches_append, reaches_of_unbroken hb h0 ht]
    · have hr : reaches t 0 b = true := reaches_of_unbroken hb h0 (by omega)
      simp [reaches_append, reaches_mono (Nat.zero_le _) hr]

end Streak
