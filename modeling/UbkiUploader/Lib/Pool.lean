import Mathlib

/-!
# A bounded pool of running tasks

A pool walks a list of tasks: `waiting` have not been started, `busy` are
running, each under the ticket it was given when it started. Tickets count the
starts, so ticket `i` belongs to the `i`-th task of the list.

`Inv` is what starting and releasing keep. `Inv.finished` reads off what it says
of a pool that has run dry: exactly a prefix of the tasks was started, and each
of them was released once. `Counted` adds how long the prefix is when every
release but some is followed by a start.
-/

/-- A pool over tasks of type `τ`. -/
structure Pool (τ : Type) where
  waiting : List τ
  busy : List (Nat × τ)
  started : Nat

namespace Pool

def idle (tasks : List τ) : Pool τ := ⟨tasks, [], 0⟩

/-- Start the next waiting task; no change when none is left. -/
def start (p : Pool τ) : Pool τ :=
  match p.waiting with
  | [] => p
  | task :: rest => ⟨rest, p.busy ++ [(p.started, task)], p.started + 1⟩

def task? (p : Pool τ) (ticket : Nat) : Option τ := p.busy.lookup ticket

def release (p : Pool τ) (ticket : Nat) : Pool τ :=
  { p with busy := p.busy.filter (·.1 ≠ ticket) }

def tickets (p : Pool τ) : List Nat := p.busy.map Prod.fst

/-- What holds of a pool over `tasks` with room for `c`, after the tickets of
`done` were released in this order. -/
structure Inv (tasks : List τ) (c : Nat) (done : List Nat) (p : Pool τ) : Prop where
  waiting : p.waiting = tasks.drop p.started
  started : p.started ≤ tasks.length
  task : ∀ e ∈ p.busy, tasks[e.1]? = some e.2
  tickets : (done ++ p.tickets).Perm (List.range p.started)
  room : p.busy.length ≤ c

/-- The pool has started as many tasks as fit: `c` at first and one for each of
`r` refills. -/
def Counted (tasks : List τ) (c r : Nat) (p : Pool τ) : Prop :=
  p.started = min tasks.length (c + r)

variable {τ : Type} {tasks : List τ} {p : Pool τ} {a : τ}

-- ---------------------------------------------------------------------------
-- Starting
-- ---------------------------------------------------------------------------

theorem start_nil (h : p.waiting = []) : start p = p := by
  simp [start, h]

theorem start_cons (h : p.waiting = a :: rest) :
    start p = ⟨rest, p.busy ++ [(p.started, a)], p.started + 1⟩ := by
  simp [start, h]

theorem Inv.idle (tasks : List τ) (c : Nat) : Inv tasks c [] (idle tasks) where
  waiting := rfl
  started := Nat.zero_le _
  task := by simp [Pool.idle]
  tickets := by simp [Pool.idle, Pool.tickets]
  room := Nat.zero_le _

theorem Inv.head (hi : Inv tasks c done p) (h : p.waiting = a :: rest) :
    tasks[p.started]? = some a ∧ rest = tasks.drop (p.started + 1) ∧
      p.started < tasks.length := by
  have hd : tasks.drop p.started = a :: rest := hi.waiting ▸ h
  have hlt : p.started < tasks.length := by
    by_contra hge
    rw [List.drop_eq_nil_of_le (by omega)] at hd
    cases hd
  rw [List.drop_eq_getElem_cons hlt] at hd
  obtain ⟨h1, h2⟩ := List.cons.inj hd
  exact ⟨by rw [List.getElem?_eq_getElem hlt, h1], h2.symm, hlt⟩

theorem Inv.start (hi : Inv tasks c done p) (hroom : p.busy.length < c) :
    Inv tasks c done p.start := by
  cases hw : p.waiting with
  | nil => rw [start_nil hw]; exact hi
  | cons a rest =>
    obtain ⟨htask, hrest, hlt⟩ := hi.head hw
    rw [start_cons hw]
    refine ⟨hrest, hlt, ?_, ?_, ?_⟩
    · intro e he
      simp only [List.mem_append, List.mem_singleton] at he
      rcases he with he | rfl
      · exact hi.task e he
      · exact htask
    · have hp := hi.tickets.append_right [p.started]
      simpa [Pool.tickets, List.range_succ] using hp
    · simp only [List.length_append, List.length_singleton]
      omega

theorem Counted.start (hi : Inv tasks c done p) (hc : Counted tasks k r p) :
    Counted tasks k (r + 1) p.start := by
  unfold Counted at hc ⊢
  cases hw : p.waiting with
  | nil =>
    rw [start_nil hw]
    have hd : tasks.drop p.started = [] := hi.waiting ▸ hw
    have := List.drop_eq_nil_iff.mp hd
    omega
  | cons a rest =>
    have := (hi.head hw).2.2
    rw [start_cons hw]
    simp only
    omega

-- ---------------------------------------------------------------------------
-- Releasing
-- ---------------------------------------------------------------------------

@[simp] theorem release_waiting : (release p i).waiting = p.waiting := rfl
@[simp] theorem release_started : (release p i).started = p.started := rfl

theorem Counted.release (hc : Counted tasks c r p) : Counted tasks c r (p.release i) := hc

theorem tickets_release : (release p i).tickets = p.tickets.filter (· ≠ i) := by
  simp [release, Pool.tickets, List.filter_map, Function.comp_def]

theorem Inv.nodup (hi : Inv tasks c done p) : p.tickets.Nodup :=
  (hi.tickets.nodup_iff.mpr List.nodup_range).of_append_right

theorem lookup_of_mem_keys {l : List (Nat × τ)} (h : i ∈ l.map Prod.fst) :
    ∃ a, l.lookup i = some a ∧ (i, a) ∈ l := by
  induction l with
  | nil => simp at h
  | cons e l ih =>
    obtain ⟨j, b⟩ := e
    by_cases hj : i = j
    · exact ⟨b, by simp [hj], by simp [hj]⟩
    · obtain ⟨a, h1, h2⟩ := ih (by simpa [hj] using h)
      have hb : (i == j) = false := by simpa using hj
      exact ⟨a, by simp [List.lookup_cons, hb, h1], List.mem_cons_of_mem _ h2⟩

theorem task?_of_mem (h : i ∈ p.tickets) : ∃ a, p.task? i = some a ∧ (i, a) ∈ p.busy :=
  lookup_of_mem_keys h

theorem Inv.release (hi : Inv tasks c done p) (hm : i ∈ p.tickets) :
    Inv tasks c (done ++ [i]) (p.release i) ∧ (p.release i).busy.length < c := by
  have herase : (p.release i).tickets = p.tickets.erase i := by
    rw [tickets_release, hi.nodup.erase_eq_filter]
    exact List.filter_congr fun j _ => by by_cases hj : j = i <;> simp [hj]
  have hperm : (i :: (p.release i).tickets).Perm p.tickets := by
    rw [herase]
    exact (List.perm_cons_erase hm).symm
  have hlen : (p.release i).busy.length + 1 = p.busy.length := by
    have := hperm.length_eq
    simpa [Pool.tickets] using this
  refine ⟨⟨hi.waiting, hi.started, ?_, ?_, ?_⟩, ?_⟩
  · intro e he
    exact hi.task e (List.mem_of_mem_filter he)
  · have hp := (hperm.append_left done).trans hi.tickets
    simpa using hp
  · have := hi.room; omega
  · have := hi.room; omega

/-- A pool with nothing running started a prefix and released each of it once. -/
theorem Inv.finished (hi : Inv tasks c done p) (h : p.busy = []) :
    done.Perm (List.range p.started) := by
  simpa [Pool.tickets, h] using hi.tickets

theorem Inv.length_done (hi : Inv tasks c done p) :
    done.length + p.busy.length = p.started := by
  simpa [Pool.tickets] using hi.tickets.length_eq

end Pool
