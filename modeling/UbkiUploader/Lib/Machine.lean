import Mathlib

/-!
# Machines

A machine takes an action in a state, or refuses it. A run is a list of actions
each of which was taken. `run_invariant` is the rule for what holds after a run,
where an invariant may speak of the actions so far; `run_along` is the rule for
runs whose actions all meet a condition, and `run_simulates` for what a run is to
someone who sees a part of the state.
-/

namespace Machine

variable {σ α : Type} {step : σ → α → Option σ}

def run (step : σ → α → Option σ) (s : σ) (acts : List α) : Option σ := acts.foldlM step s

@[simp] theorem run_nil : run step s [] = some s := rfl

theorem run_cons : run step s (a :: acts) = (step s a).bind fun t => run step t acts := rfl

theorem run_append : run step s (a ++ b) = (run step s a).bind fun t => run step t b := by
  simp [run, List.foldlM_append]

theorem run_append_of (ha : run step s a = some t) (hb : run step t b = some u) :
    run step s (a ++ b) = some u := by
  rw [run_append, ha, Option.bind_some, hb]

/-- What holds at first, and after every action taken where it held, holds after
every run. -/
theorem run_invariant (Inv : List α → σ → Prop) (h0 : Inv [] s)
    (hstep : ∀ hist t a u, Inv hist t → step t a = some u → Inv (hist ++ [a]) u)
    (h : run step s acts = some t) : Inv acts t := by
  induction acts using List.reverseRecOn generalizing t with
  | nil =>
    cases h
    exact h0
  | append_singleton acts a ih =>
    rw [run_append] at h
    obtain ⟨u, hu, h⟩ := Option.bind_eq_some_iff.mp h
    rw [run_cons] at h
    obtain ⟨v, hv, h⟩ := Option.bind_eq_some_iff.mp h
    cases h
    exact hstep _ _ _ _ (ih hu) hv

/-- Every action of a run meets a condition where it is taken. -/
def Along (step : σ → α → Option σ) (C : σ → α → Prop) : σ → List α → Prop
  | _, [] => True
  | s, a :: acts => C s a ∧ ∀ t, step s a = some t → Along step C t acts

/-- What every action that meets the condition keeps, a run of such actions keeps. -/
theorem run_along (Inv : σ → Prop) {C : σ → α → Prop} (h0 : Inv s)
    (hstep : ∀ t a u, Inv t → C t a → step t a = some u → Inv u)
    (halong : Along step C s acts) (h : run step s acts = some t) : Inv t := by
  induction acts generalizing s with
  | nil =>
    cases h
    exact h0
  | cons a acts ih =>
    rw [run_cons] at h
    obtain ⟨u, hu, h⟩ := Option.bind_eq_some_iff.mp h
    exact ih (hstep _ _ _ h0 halong.1 hu) (halong.2 u hu) h

/-- Where every action is a turn of what is seen of the state, a run is turn after turn. -/
theorem run_simulates (view : σ → τ) {R : τ → τ → Prop} {C : α → Prop}
    (Inv : σ → Prop)
    (hstep : ∀ s a t, Inv s → C a → step s a = some t → Inv t ∧ R (view s) (view t))
    (h0 : Inv s) (hall : ∀ a ∈ acts, C a) (h : run step s acts = some t) :
    Inv t ∧ Relation.ReflTransGen R (view s) (view t) := by
  induction acts generalizing s with
  | nil =>
    cases h
    exact ⟨h0, .refl⟩
  | cons a acts ih =>
    rw [run_cons] at h
    obtain ⟨u, hu, h⟩ := Option.bind_eq_some_iff.mp h
    obtain ⟨hinv, hturn⟩ := hstep _ _ _ h0 (hall a List.mem_cons_self) hu
    obtain ⟨hend, hturns⟩ := ih hinv (fun a ha => hall a (List.mem_cons_of_mem _ ha)) h
    exact ⟨hend, .head hturn hturns⟩

end Machine
