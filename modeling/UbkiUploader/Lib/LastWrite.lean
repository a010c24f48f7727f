import Mathlib

/-!
# The last write to each key

A log of entries, each for a key. What counts for a key is its last entry.
`tally` counts the distinct keys whose last entry satisfies a predicate, so a
key written twice counts once, by its final entry.

`tally_append` is the accounting rule for a log that goes over some of its keys a
second time: those keys count by the second part, the others by the first.
-/

namespace LastWrite

variable {α : Type} (key : α → Nat)

def last (l : List α) (k : Nat) : Option α := l.reverse.find? (key · = k)

/-- How many distinct keys have a last entry that satisfies `p`. -/
def tally (p : α → Bool) (l : List α) : Nat :=
  (l.map key).dedup.countP fun k => (last key l k).any p

-- ---------------------------------------------------------------------------
-- The last entry
-- ---------------------------------------------------------------------------

variable {key}

theorem last_snoc : last key (l ++ [a]) k = if key a = k then some a else last key l k := by
  by_cases h : key a = k <;> simp [last, h]

theorem last_append : last key (a ++ b) k = (last key b k <|> last key a k) := by
  simp [last, List.find?_append]

theorem last_eq_none_iff : last key l k = none ↔ k ∉ l.map key := by
  simp [last]

theorem last_eq_some (h : last key l k = some a) : a ∈ l ∧ key a = k := by
  refine ⟨?_, by simpa using List.find?_some h⟩
  simpa using List.mem_of_find?_eq_some h

theorem last_of_nodup (hn : (l.map key).Nodup) (h : a ∈ l) : last key l (key a) = some a := by
  cases hl : last key l (key a) with
  | none => exact absurd (List.mem_map_of_mem h) (last_eq_none_iff.mp hl)
  | some b =>
    obtain ⟨hb, hk⟩ := last_eq_some hl
    rw [List.inj_on_of_nodup_map hn hb h hk]

-- ---------------------------------------------------------------------------
-- Counting
-- ---------------------------------------------------------------------------

@[simp] theorem tally_nil : tally key p [] = 0 := rfl

theorem countP_last {l : List α} {p : α → Bool} (hn : (l.map key).Nodup) :
    (l.map key).countP (fun k => (last key l k).any p) = l.countP p := by
  rw [List.countP_map]
  refine List.countP_congr fun a ha => ?_
  simp [last_of_nodup hn ha]

theorem tally_append {p : α → Bool} (ha : (a.map key).Nodup) (hb : (b.map key).Nodup)
    (hsub : b.map key ⊆ a.map key) :
    tally key p (a ++ b) = (a.filter (key · ∉ b.map key)).countP p + b.countP p := by
  have hkeys : ((a ++ b).map key).dedup.Perm (a.map key) := by
    rw [List.perm_ext_iff_of_nodup (List.nodup_dedup _) ha]
    intro k
    rw [List.mem_dedup, List.map_append, List.mem_append]
    exact or_iff_left_of_imp fun h => hsub h
  have hsecond : ((a.map key).filter (· ∈ b.map key)).Perm (b.map key) := by
    rw [List.perm_ext_iff_of_nodup (ha.filter _) hb]
    intro k
    rw [List.mem_filter, decide_eq_true_eq]
    exact and_iff_right_of_imp fun h => hsub h
  rw [tally, hkeys.countP_eq, List.countP_eq_countP_filter_add _ _ (· ∈ b.map key), Nat.add_comm]
  congr 1
  · -- keys the second part leaves alone
    rw [List.filter_map, List.countP_map]
    have hfilter : a.filter ((fun k => !decide (k ∈ b.map key)) ∘ key) =
        a.filter (key · ∉ b.map key) :=
      List.filter_congr fun x _ => (decide_not (p := key x ∈ b.map key)).symm
    rw [hfilter]
    refine List.countP_congr fun x hx => ?_
    obtain ⟨hxa, hxb⟩ := List.mem_filter.mp hx
    rw [decide_eq_true_eq, ← last_eq_none_iff] at hxb
    simp [last_append, hxb, last_of_nodup ha hxa]
  · -- keys written a second time
    rw [hsecond.countP_eq, ← countP_last hb]
    refine List.countP_congr fun k hk => ?_
    cases hl : last key b k with
    | none => exact absurd hk (last_eq_none_iff.mp hl)
    | some x => simp [last_append, hl]

end LastWrite
