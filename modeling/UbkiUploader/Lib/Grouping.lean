import Mathlib

/-!
# Counting by groups

A list counted group by group, over all groups or over some of them.
-/

namespace Grouping

variable {α β : Type} [DecidableEq β] (g : α → β)

def counts (l : List α) : List (β × Nat) := (l.map g).dedup.map fun b => (b, l.countP (g · = b))

variable {g}

/-- The groups of distinct keys have together as many entries as have one of the keys. -/
theorem sum_countP {keys : List β} (hn : keys.Nodup) (l : List α) :
    (keys.map fun b => l.countP (g · = b)).sum = l.countP (g · ∈ keys) := by
  induction keys with
  | nil => simp
  | cons b keys ih =>
    obtain ⟨hb, hn⟩ := List.nodup_cons.mp hn
    have hnot (a : α) (h : g a ∈ keys) : g a ≠ b := fun hab => hb (hab ▸ h)
    rw [List.map_cons, List.sum_cons, ih hn,
      List.countP_eq_countP_filter_add l (g · ∈ b :: keys) (g · = b), List.countP_filter,
      List.countP_filter]
    congr 1
    · exact List.countP_congr fun a _ => by simp +contextual
    · refine List.countP_congr fun a _ => ?_
      have := hnot a
      simp only [List.mem_cons, decide_eq_true_eq, Bool.and_eq_true, Bool.not_eq_true',
        decide_eq_false_iff_not]
      tauto

theorem sum_counts (l : List α) : ((counts g l).map (·.2)).sum = l.length := by
  have hall : ∀ a ∈ l, g a ∈ (l.map g).dedup :=
    fun a ha => List.mem_dedup.mpr (List.mem_map_of_mem ha)
  rw [counts, List.map_map, Function.comp_def, sum_countP (List.nodup_dedup _),
    List.countP_eq_length]
  exact fun a ha => decide_eq_true (hall a ha)

end Grouping
