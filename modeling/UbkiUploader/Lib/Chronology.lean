import Mathlib.Order.Defs.LinearOrder
import UbkiUploader.Lib.Calendar

/-!
# ISO texts in the order of time

The text of a moment is not of one length: the microseconds are left out when there are
none. Texts of moments are ordered as the moments all the same.
-/

namespace Calendar

def instant (d : Date) (t : Time) : Nat :=
  (((d.ordinal * 24 + t.hour) * 60 + t.minute) * 60 + t.second) * 1000000 + t.microsecond

/-- `moment.isoformat()` of a naive `datetime` -/
def isoMoment (d : Date) (t : Time) : Text := d.isoformat ++ 84 :: t.isoformat

-- ---------------------------------------------------------------------------
-- Days in order
-- ---------------------------------------------------------------------------

theorem daysBeforeMonth_mono (h : m ≤ m') : daysBeforeMonth y m ≤ daysBeforeMonth y m' := by
  induction m', h using Nat.le_induction with
  | base => exact Nat.le_refl _
  | succ m' h ih =>
    refine ih.trans ?_
    cases m' with
    | zero => exact Nat.le_refl _
    | succ m' => exact Nat.le_add_right _ _

theorem daysBeforeYear_mono (h : y ≤ y') : daysBeforeYear y ≤ daysBeforeYear y' := by
  induction y', h using Nat.le_induction with
  | base => exact Nat.le_refl _
  | succ y' h ih => exact ih.trans (Nat.le_add_right _ _)

theorem Date.day_le (d : Date) :
    daysBeforeMonth d.year d.month + d.day ≤ daysBeforeMonth d.year (d.month + 1) := by
  obtain ⟨m, hm⟩ : ∃ m, d.month = m + 1 := ⟨d.month - 1, by have := d.month_valid; omega⟩
  have hday := d.day_valid.2
  rw [hm] at hday ⊢
  rw [daysBeforeMonth]
  exact Nat.add_le_add_left hday _

theorem Date.ordinal_le (d : Date) : d.ordinal ≤ daysBeforeYear (d.year + 1) := by
  have hmonth : daysBeforeMonth d.year (d.month + 1) ≤ daysBeforeMonth d.year 13 :=
    daysBeforeMonth_mono (by have := d.month_valid; omega)
  have hday := d.day_le
  rw [daysBeforeMonth_year] at hmonth
  rw [Date.ordinal, daysBeforeYear]
  omega

def Date.Before (a b : Date) : Prop :=
  a.year < b.year ∨ a.year = b.year ∧
    (a.month < b.month ∨ a.month = b.month ∧ a.day < b.day)

theorem Date.Before.ordinal_lt {a b : Date} (h : a.Before b) : a.ordinal < b.ordinal := by
  obtain h | ⟨hy, h | ⟨hm, h⟩⟩ := h
  · have hyear : daysBeforeYear (a.year + 1) ≤ daysBeforeYear b.year := daysBeforeYear_mono h
    have ha := a.ordinal_le
    have hb := b.day_valid
    have hordinal : daysBeforeYear b.year + b.day ≤ b.ordinal := by rw [Date.ordinal]; omega
    omega
  · have hmonth : daysBeforeMonth b.year (a.month + 1) ≤ daysBeforeMonth b.year b.month :=
      daysBeforeMonth_mono h
    have ha := a.day_le
    have hb := b.day_valid
    rw [Date.ordinal, Date.ordinal, hy] at *
    omega
  · rw [Date.ordinal, Date.ordinal, hy, hm]
    omega

theorem Date.before_trichotomy (a b : Date) : a.Before b ∨ a = b ∨ b.Before a := by
  obtain ⟨y, m, d, _, _, _⟩ := a
  obtain ⟨y', m', d', _, _, _⟩ := b
  simp only [Date.Before, Date.mk.injEq]
  omega

theorem Date.ordinal_lt_iff {a b : Date} : a.ordinal < b.ordinal ↔ a.Before b := by
  refine ⟨fun h => ?_, Date.Before.ordinal_lt⟩
  obtain hab | rfl | hba := a.before_trichotomy b
  · exact hab
  · exact absurd h (Nat.lt_irrefl _)
  · exact absurd hba.ordinal_lt (Nat.lt_asymm h)

theorem Date.ordinal_inj {a b : Date} (h : a.ordinal = b.ordinal) : a = b := by
  obtain hab | hab | hba := a.before_trichotomy b
  · exact absurd h hab.ordinal_lt.ne
  · exact hab
  · exact absurd h hba.ordinal_lt.ne'

-- ---------------------------------------------------------------------------
-- Texts in order
-- ---------------------------------------------------------------------------

/-- Among texts of one length the first difference decides, whatever follows. -/
theorem append_lt_append {a b x y : Text} (hlen : a.length = b.length) (h : a < b) :
    a ++ x < b ++ y := by
  induction a generalizing b with
  | nil =>
    cases List.eq_nil_of_length_eq_zero hlen.symm
    exact absurd h (List.lt_irrefl [])
  | cons c a ih =>
    cases b with
    | nil => cases hlen
    | cons d b =>
      rw [List.cons_append, List.cons_append, List.cons_lt_cons_iff]
      obtain hc | ⟨hc, hrest⟩ := List.cons_lt_cons_iff.mp h
      · exact .inl hc
      · exact .inr ⟨hc, ih (Nat.succ.inj hlen) hrest⟩

theorem pad_lt_pad (h : n < m) (hm : m < 10 ^ width) : pad width n < pad width m := by
  induction width generalizing n m with
  | zero => omega
  | succ width ih =>
    rw [pad, pad]
    rcases Nat.lt_or_ge (n / 10) (m / 10) with hlt | hge
    · refine append_lt_append (by rw [length_pad, length_pad]) (ih hlt ?_)
      omega
    · obtain heq : n / 10 = m / 10 := by omega
      rw [heq]
      refine List.append_left_lt (List.cons_lt_cons_iff.mpr (.inl ?_))
      omega

theorem pad_append_lt {x y : Text} (hm : m < 10 ^ width) (h : n < m ∨ n = m ∧ x < y) :
    pad width n ++ x < pad width m ++ y := by
  obtain h | ⟨rfl, h⟩ := h
  · exact append_lt_append (by rw [length_pad, length_pad]) (pad_lt_pad h hm)
  · exact List.append_left_lt h

theorem Date.Before.isoformat_lt {a b : Date} (h : a.Before b) : a.isoformat < b.isoformat := by
  have hy : b.year < 10 ^ 4 := by have := b.year_valid; omega
  have hm : b.month < 10 ^ 2 := by have := b.month_valid; omega
  have hd : b.day < 10 ^ 2 := by have := b.day_valid; have := daysInMonth_le b.year b.month; omega
  rw [Date.isoformat, Date.isoformat]
  refine pad_append_lt hy (h.imp id (And.imp_right fun h => ?_))
  refine List.cons_lt_cons_iff.mpr (.inr ⟨rfl, pad_append_lt hm ?_⟩)
  refine h.imp id (And.imp_right fun hday => ?_)
  exact List.cons_lt_cons_iff.mpr (.inr ⟨rfl, pad_lt_pad hday hd⟩)

def Time.Before (s t : Time) : Prop :=
  s.hour.val < t.hour ∨ s.hour = t.hour ∧ (s.minute.val < t.minute ∨ s.minute = t.minute ∧
    (s.second.val < t.second ∨ s.second = t.second ∧ s.microsecond.val < t.microsecond))

theorem fraction_lt {n m : Fin 1000000} (h : n.val < m) :
    (if n = 0 then [] else 46 :: pad 6 n : Text) < if m = 0 then [] else 46 :: pad 6 m := by
  have hm : m ≠ 0 := by rintro rfl; exact absurd h (Nat.not_lt_zero _)
  rw [if_neg hm]
  split
  · exact List.nil_lt_cons _ _
  · exact List.cons_lt_cons_iff.mpr (.inr ⟨rfl, pad_lt_pad h m.isLt⟩)

theorem Time.Before.isoformat_lt {s t : Time} (h : s.Before t) : s.isoformat < t.isoformat := by
  have hh : t.hour.val < 10 ^ 2 := by have := t.hour.isLt; omega
  have hm : t.minute.val < 10 ^ 2 := by have := t.minute.isLt; omega
  have hs : t.second.val < 10 ^ 2 := by have := t.second.isLt; omega
  rw [Time.isoformat, Time.isoformat]
  refine pad_append_lt hh (h.imp id (And.imp (congrArg Fin.val) fun h => ?_))
  refine List.cons_lt_cons_iff.mpr (.inr ⟨rfl, pad_append_lt hm ?_⟩)
  refine h.imp id (And.imp (congrArg Fin.val) fun h => ?_)
  refine List.cons_lt_cons_iff.mpr (.inr ⟨rfl, pad_append_lt hs ?_⟩)
  exact h.imp id (And.imp (congrArg Fin.val) fraction_lt)

-- ---------------------------------------------------------------------------
-- Moments in order
-- ---------------------------------------------------------------------------

theorem instant_lt_iff {d d' : Date} {t t' : Time} :
    instant d t < instant d' t' ↔ d.Before d' ∨ d = d' ∧ t.Before t' := by
  have hdate : d = d' ↔ d.ordinal = d'.ordinal := ⟨congrArg _, Date.ordinal_inj⟩
  rw [← Date.ordinal_lt_iff, hdate]
  obtain ⟨h, m, s, f⟩ := t
  obtain ⟨h', m', s', f'⟩ := t'
  simp only [instant, Time.Before, Fin.ext_iff]
  omega

theorem instant_inj {d d' : Date} {t t' : Time} (h : instant d t = instant d' t') :
    d = d' ∧ t = t' := by
  obtain ⟨hh, m, s, f⟩ := t
  obtain ⟨hh', m', s', f'⟩ := t'
  simp only [instant] at h
  have hdate : d.ordinal = d'.ordinal := by omega
  refine ⟨Date.ordinal_inj hdate, ?_⟩
  simp only [Time.mk.injEq, Fin.ext_iff]
  omega

theorem isoMoment_lt_of_instant_lt {d d' : Date} {t t' : Time} (h : instant d t < instant d' t') :
    isoMoment d t < isoMoment d' t' := by
  rw [isoMoment, isoMoment]
  obtain hd | ⟨rfl, ht⟩ := instant_lt_iff.mp h
  · refine append_lt_append ?_ hd.isoformat_lt
    simp [Date.isoformat, length_pad]
  · exact List.append_left_lt (List.cons_lt_cons_iff.mpr (.inr ⟨rfl, ht.isoformat_lt⟩))

theorem isoMoment_le_iff {d d' : Date} {t t' : Time} :
    isoMoment d t ≤ isoMoment d' t' ↔ instant d t ≤ instant d' t' := by
  constructor
  · intro h
    by_contra hlt
    exact absurd h (not_le_of_gt (isoMoment_lt_of_instant_lt (Nat.not_le.mp hlt)))
  · intro h
    obtain h | h := Nat.lt_or_eq_of_le h
    · exact le_of_lt (isoMoment_lt_of_instant_lt h)
    · obtain ⟨rfl, rfl⟩ := instant_inj h
      exact le_refl _

end Calendar
