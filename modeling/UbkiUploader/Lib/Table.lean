import Mathlib

/-!
# Tables with an integer primary key

A table is a list of rows in which no two rows have the same key. Rows are added
under a key larger than every key in use and changed without touching their key,
so the property is a field of the type and no later proof restates it.
-/

/-- Rows of type `ρ`, told apart by `key`. -/
structure Table {ρ : Type} (key : ρ → Nat) where
  rows : List ρ
  nodup : (rows.map key).Nodup

namespace Table

variable {ρ : Type} {key : ρ → Nat}

def empty : Table key := ⟨[], by simp⟩

instance : Inhabited (Table key) := ⟨empty⟩

instance [DecidableEq ρ] : DecidableEq (Table key) := fun a b =>
  decidable_of_iff (a.rows = b.rows) (by cases a; cases b; simp)

@[ext] theorem ext {a b : Table key} (h : a.rows = b.rows) : a = b := by
  cases a; cases b; simpa using h

def nextKey (t : Table key) : Nat := (t.rows.map key).foldr max 0 + 1

theorem lt_foldr_max {l : List Nat} (h : k ∈ l) : k < l.foldr max 0 + 1 := by
  induction l with
  | nil => simp at h
  | cons a l ih =>
    simp only [List.foldr_cons]
    rcases List.mem_cons.mp h with rfl | h
    · omega
    · have := ih h; omega

theorem key_lt_nextKey {t : Table key} (h : r ∈ t.rows) : key r < t.nextKey :=
  lt_foldr_max (List.mem_map_of_mem h)

def insert (t : Table key) (row : Nat → ρ) (hk : ∀ k, key (row k) = k) : Table key where
  rows := t.rows ++ [row t.nextKey]
  nodup := by
    rw [List.map_append, List.nodup_append']
    refine ⟨t.nodup, by simp, ?_⟩
    intro a ha hb
    obtain ⟨r, hr, rfl⟩ := List.mem_map.mp ha
    have := key_lt_nextKey hr
    simp [hk] at hb
    omega

theorem map_key_update {rows : List ρ} {matching : ρ → Bool} {f : ρ → ρ}
    (hf : ∀ r, key (f r) = key r) :
    (rows.map fun r => if matching r then f r else r).map key = rows.map key := by
  rw [List.map_map]
  refine List.map_congr_left fun r _ => ?_
  simp only [Function.comp]
  split
  · exact hf r
  · rfl

def update (t : Table key) (matching : ρ → Bool) (f : ρ → ρ)
    (hf : ∀ r, key (f r) = key r) : Table key where
  rows := t.rows.map fun r => if matching r then f r else r
  nodup := by
    rw [map_key_update hf]
    exact t.nodup

def find? (t : Table key) (k : Nat) : Option ρ := t.rows.find? (key · = k)

-- ---------------------------------------------------------------------------
-- Finding
-- ---------------------------------------------------------------------------

theorem eq_of_key {t : Table key} (ha : a ∈ t.rows) (hb : b ∈ t.rows) (h : key a = key b) :
    a = b :=
  List.inj_on_of_nodup_map t.nodup ha hb h

theorem find?_eq_none_iff {t : Table key} : t.find? k = none ↔ ∀ r ∈ t.rows, key r ≠ k := by
  simp [find?]

theorem find?_eq_some_iff {t : Table key} : t.find? k = some r ↔ r ∈ t.rows ∧ key r = k := by
  constructor
  · intro h
    exact ⟨List.mem_of_find?_eq_some h, by simpa using List.find?_some h⟩
  · rintro ⟨hr, rfl⟩
    cases h : t.find? (key r) with
    | none => exact absurd rfl (find?_eq_none_iff.mp h r hr)
    | some s =>
      have hs : key s = key r := by simpa using List.find?_some h
      rw [eq_of_key (List.mem_of_find?_eq_some h) hr hs]

theorem find?_key {t : Table key} (h : r ∈ t.rows) : t.find? (key r) = some r :=
  find?_eq_some_iff.mpr ⟨h, rfl⟩

@[simp] theorem mem_update {t : Table key} {hf : ∀ r, key (f r) = key r} :
    r ∈ (t.update matching f hf).rows ↔
      ∃ s ∈ t.rows, (if matching s then f s else s) = r := by
  simp [update]

theorem find?_update {t : Table key} {hf : ∀ r, key (f r) = key r} :
    (t.update matching f hf).find? k =
      (t.find? k).map fun r => if matching r then f r else r := by
  cases h : t.find? k with
  | none =>
    refine find?_eq_none_iff.mpr fun r hr => ?_
    obtain ⟨s, hs, rfl⟩ := mem_update.mp hr
    have := find?_eq_none_iff.mp h s hs
    split <;> simp_all
  | some r =>
    obtain ⟨hr, rfl⟩ := find?_eq_some_iff.mp h
    refine find?_eq_some_iff.mpr ⟨mem_update.mpr ⟨r, hr, rfl⟩, ?_⟩
    simp only
    split
    · exact hf r
    · rfl

theorem mem_insert {t : Table key} {hk : ∀ k, key (row k) = k} :
    r ∈ (t.insert row hk).rows ↔ r ∈ t.rows ∨ r = row t.nextKey := by
  simp [insert]

theorem find?_insert_of_ne {t : Table key} {hk : ∀ k, key (row k) = k} (h : k ≠ t.nextKey) :
    (t.insert row hk).find? k = t.find? k := by
  simp [find?, insert, hk, Ne.symm h]

theorem foldr_max_append {l : List Nat} : (l ++ [k]).foldr max 0 = max (l.foldr max 0) k := by
  induction l with
  | nil => simp
  | cons a l ih => simp only [List.cons_append, List.foldr_cons, ih, Nat.max_assoc]

theorem nextKey_insert {t : Table key} {hk : ∀ k, key (row k) = k} :
    (t.insert row hk).nextKey = t.nextKey + 1 := by
  simp only [nextKey, insert, List.map_append, List.map_cons, List.map_nil, hk, foldr_max_append]
  omega

/-- An update that keeps what `g` reads keeps the list of what it reads. -/
theorem map_update {β : Type} {t : Table key} {matching : ρ → Bool} {f : ρ → ρ}
    (hf : ∀ r, key (f r) = key r) (g : ρ → β) (h : ∀ r, g (f r) = g r) :
    (t.update matching f hf).rows.map g = t.rows.map g := by
  simp only [update, List.map_map]
  refine List.map_congr_left fun r _ => ?_
  simp only [Function.comp]
  split
  · exact h r
  · rfl

@[simp] theorem nextKey_update {t : Table key} {hf : ∀ r, key (f r) = key r} :
    (t.update matching f hf).nextKey = t.nextKey := by
  rw [nextKey, nextKey, update, map_key_update hf]

end Table
