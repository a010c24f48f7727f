import Mathlib

/-!
# Code that may raise

`Except ε α` is code that raises an `ε` or returns an `α`. These are the rules by
which a proof peels such code apart, one step at a time.
-/

namespace List.Forall₂

variable {α β : Type} {R : α → β → Prop}

theorem exists_right (h : Forall₂ R l l') (ha : a ∈ l) : ∃ b ∈ l', R a b := by
  induction h with
  | nil => cases ha
  | cons hab _ ih =>
    rcases List.mem_cons.mp ha with rfl | ha
    · exact ⟨_, mem_cons_self, hab⟩
    · obtain ⟨b, hb, hab⟩ := ih ha
      exact ⟨b, mem_cons_of_mem _ hb, hab⟩

theorem exists_left (h : Forall₂ R l l') (hb : b ∈ l') : ∃ a ∈ l, R a b :=
  h.flip.exists_right hb

theorem filterMap_congr {γ : Type} {f : α → Option γ} {g : β → Option γ}
    (h : Forall₂ R l l')
    (hfg : ∀ a b, R a b → f a = g b) : l.filterMap f = l'.filterMap g := by
  induction h with
  | nil => rfl
  | cons hab _ ih => rw [filterMap_cons, filterMap_cons, hfg _ _ hab, ih]

theorem and {S : α → β → Prop} (h : Forall₂ R l l') (h' : Forall₂ S l l') :
    Forall₂ (fun a b => R a b ∧ S a b) l l' := by
  induction h with
  | nil => exact .nil
  | cons hab _ ih =>
    obtain ⟨hab', h'⟩ := List.forall₂_cons.mp h'
    exact .cons ⟨hab, hab'⟩ (ih h')

theorem imp_of_mem {S : α → β → Prop} (h : Forall₂ R l l')
    (hrs : ∀ a ∈ l, ∀ b, R a b → S a b) : Forall₂ S l l' := by
  induction h with
  | nil => exact .nil
  | cons hab _ ih =>
    exact .cons (hrs _ mem_cons_self _ hab) (ih fun a ha => hrs a (mem_cons_of_mem _ ha))

theorem zip {γ : Type} {l'' : List γ} {S : β → γ → Prop} {T : γ → α × β → Prop}
    (h : Forall₂ R l l')
    (h' : Forall₂ S l' l'') (hst : ∀ a b c, R a b → S b c → T c (a, b)) :
    Forall₂ T l'' (l.zip l') := by
  induction h generalizing l'' with
  | nil =>
    cases h'
    exact .nil
  | cons hab _ ih =>
    obtain ⟨c, rest, hbc, hrest, rfl⟩ := List.forall₂_cons_left_iff.mp h'
    exact .cons (hst _ _ _ hab hbc) (ih hrest)

theorem append {m : List α} {m' : List β} (h : Forall₂ R l l') (h' : Forall₂ R m m') :
    Forall₂ R (l ++ m) (l' ++ m') := by
  induction h with
  | nil => exact h'
  | cons hab _ ih => exact .cons hab ih

theorem last (h : Forall₂ R (l ++ [a]) (l' ++ [b])) : R a b := by
  rw [← List.forall₂_reverse_iff, List.reverse_append, List.reverse_append] at h
  exact (List.forall₂_cons.mp h).1

theorem filterMap_right {f : α → Option β} (h : ∀ a ∈ l, ∃ b, f a = some b ∧ R a b) :
    Forall₂ R l (l.filterMap f) := by
  induction l with
  | nil => exact .nil
  | cons a l ih =>
    obtain ⟨b, hb, hr⟩ := h a List.mem_cons_self
    rw [List.filterMap_cons_some hb]
    exact .cons hr (ih fun a ha => h a (List.mem_cons_of_mem _ ha))

end List.Forall₂

namespace Except

variable {ε α β : Type}

theorem bind_eq_ok {x : Except ε α} {f : α → Except ε β} :
    (x >>= f) = .ok b ↔ ∃ a, x = .ok a ∧ f a = .ok b := by
  cases x with
  | error e => simp [bind, Except.bind]
  | ok a => simp [bind, Except.bind]

theorem unit_bind_eq_ok {x : Except ε Unit} {f : Unit → Except ε β} {b : β} :
    (x >>= f) = .ok b ↔ x = .ok () ∧ f () = .ok b := by
  cases x with
  | error e => simp [bind, Except.bind]
  | ok a => simp [bind, Except.bind]

theorem bind_eq_error {x : Except ε α} {f : α → Except ε β} :
    (x >>= f) = .error e ↔ x = .error e ∨ ∃ a, x = .ok a ∧ f a = .error e := by
  cases x with
  | error e => simp [bind, Except.bind]
  | ok a => simp [bind, Except.bind]

theorem map_eq_ok {x : Except ε α} {f : α → β} :
    x.map f = .ok b ↔ ∃ a, x = .ok a ∧ f a = b := by
  cases x with
  | error e => simp [Except.map]
  | ok a => simp [Except.map]

@[simp] theorem ok_bind {f : α → Except ε β} : (.ok a >>= f) = f a := rfl

@[simp] theorem error_bind {f : α → Except ε β} : (.error e >>= f) = .error e := rfl

/-- What holds of the value that is returned, or of the error. -/
def Post (P : α → Prop) (E : ε → Prop) : Except ε α → Prop
  | .ok a => P a
  | .error e => E e

theorem post_bind {x : Except ε α} {f : α → Except ε β} :
    Post P E (x >>= f) ↔ Post (fun a => Post P E (f a)) E x := by
  cases x <;> rfl

theorem post_iff {x : Except ε α} :
    Post P E x ↔ (∀ e, x = .error e → E e) ∧ ∀ a, x = .ok a → P a := by
  cases x with
  | error e => simp [Post]
  | ok a => simp [Post]

theorem post_iff_of_error {x : Except ε α} (h : ∀ e, x = .error e → E e) :
    Post P E x ↔ ∀ a, x = .ok a → P a := by
  rw [post_iff, and_iff_right h]

theorem post_unit_iff {P : Unit → Prop} {x : Except ε Unit} :
    Post P E x ↔ (∀ e, x = .error e → E e) ∧ (x = .ok () → P ()) :=
  post_iff.trans (and_congr_right' ⟨fun h => h (), fun h _ => h⟩)

theorem post_true_iff {x : Except ε α} :
    Post (fun _ => True) E x ↔ ∀ e, x = .error e → E e := by
  simp [post_iff]

theorem mapM_eq_ok {f : α → Except ε β} :
    l.mapM f = .ok l' ↔ List.Forall₂ (fun a b => f a = .ok b) l l' := by
  induction l generalizing l' with
  | nil =>
    rw [List.mapM_nil, List.forall₂_nil_left_iff]
    exact ⟨fun h => by cases h; rfl, fun h => by rw [h]; rfl⟩
  | cons a l ih =>
    rw [List.mapM_cons, List.forall₂_cons_left_iff, bind_eq_ok]
    constructor
    · rintro ⟨b, hb, h⟩
      obtain ⟨bs, hbs, h⟩ := bind_eq_ok.mp h
      cases h
      exact ⟨b, bs, hb, ih.mp hbs, rfl⟩
    · rintro ⟨b, bs, hb, hbs, rfl⟩
      exact ⟨b, hb, bind_eq_ok.mpr ⟨bs, ih.mpr hbs, rfl⟩⟩

theorem mapM_congr {l : List α} {f g : α → Except ε β} (h : ∀ a ∈ l, f a = g a) :
    l.mapM f = l.mapM g := by
  induction l with
  | nil => rfl
  | cons a l ih =>
    rw [List.mapM_cons, List.mapM_cons, h a List.mem_cons_self,
      ih fun b hb => h b (List.mem_cons_of_mem _ hb)]

theorem mapM_eq_error {l : List α} {f : α → Except ε β} (h : l.mapM f = .error e) :
    ∃ a ∈ l, f a = .error e := by
  induction l with
  | nil => cases h
  | cons a l ih =>
    rw [List.mapM_cons, bind_eq_error] at h
    rcases h with h | ⟨b, -, h⟩
    · exact ⟨a, List.mem_cons_self, h⟩
    · rcases bind_eq_error.mp h with h | ⟨bs, -, h⟩
      · obtain ⟨a', ha', h⟩ := ih h
        exact ⟨a', List.mem_cons_of_mem _ ha', h⟩
      · cases h

theorem mapM_isOk {l : List α} {f : α → Except ε β} :
    (∃ l', l.mapM f = .ok l') ↔ ∀ a ∈ l, ∃ b, f a = .ok b := by
  constructor
  · rintro ⟨l', h⟩ a ha
    obtain ⟨b, -, hb⟩ := (mapM_eq_ok.mp h).exists_right ha
    exact ⟨b, hb⟩
  · intro h
    induction l with
    | nil => exact ⟨[], rfl⟩
    | cons a l ih =>
      obtain ⟨b, hb⟩ := h a List.mem_cons_self
      obtain ⟨bs, hbs⟩ := ih fun a ha => h a (List.mem_cons_of_mem _ ha)
      exact ⟨b :: bs, mapM_eq_ok.mpr (.cons hb (mapM_eq_ok.mp hbs))⟩

theorem forM_eq_ok {l : List α} {f : α → Except ε Unit} :
    l.forM f = .ok () ↔ ∀ a ∈ l, f a = .ok () := by
  induction l with
  | nil => exact iff_of_true rfl (by simp)
  | cons a l ih =>
    have hcons : (a :: l).forM f = f a >>= fun _ => l.forM f := rfl
    rw [hcons, List.forall_mem_cons, ← ih, bind_eq_ok]
    constructor
    · rintro ⟨⟨⟩, ha, hl⟩
      exact ⟨ha, hl⟩
    · rintro ⟨ha, hl⟩
      exact ⟨(), ha, hl⟩

end Except

