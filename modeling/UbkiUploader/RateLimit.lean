import UbkiUploader.Lib.Machine
import UbkiUploader.Lib.Numbers
import UbkiUploader.Lib.Spacing

/-!
# Pacing (app/ratelimit.py)

`RateLimiter.acquire` as its callers' threads take it, one access to the lock, the clock
or the limiter at a time. Other threads may come in between any two of them, and time may
pass. Times are rational.
-/

namespace UbkiUploader

structure RateLimiter where
  interval : ℚ
  nextSlot : ℚ

/-- `RateLimiter(rate_per_sec)` -/
def RateLimiter.new (ratePerSec : ℚ) : Except PyError RateLimiter :=
  if ratePerSec ≤ 0 then .error .valueError
  else .ok { interval := 1 / ratePerSec, nextSlot := 0 }

def RateLimiter.slot (r : RateLimiter) (now : ℚ) : ℚ :=
  if r.nextSlot > now then r.nextSlot else now

/-- How far a caller is in `acquire`. -/
inductive Caller
  | outside
  /-- It holds the lock. -/
  | locked
  | timed (now : ℚ)
  | chosen (now slot : ℚ)
  /-- It has released the lock. -/
  | reserved (slot : ℚ)
  | waits (slot wait : ℚ)
  | asleep (slot wait since : ℚ)
  deriving DecidableEq

/-- In the body of the `with`. -/
def Caller.inside : Caller → Bool
  | .locked => true
  | .timed _ => true
  | .chosen .. => true
  | _ => false

def Caller.slot? : Caller → Option ℚ
  | .reserved slot => some slot
  | .waits slot _ => some slot
  | .asleep slot .. => some slot
  | _ => none

def Caller.OnTime (clock : ℚ) : Caller → Prop
  | .waits slot wait => slot ≤ clock + wait
  | .asleep slot wait since => slot ≤ since + wait
  | _ => True

theorem Caller.OnTime.later {c : Caller} (h : c.OnTime clock) (hle : clock ≤ now) :
    c.OnTime now := by
  cases c with
  | waits slot wait =>
    simp only [OnTime] at h ⊢
    linarith
  | _ => exact h

/-- A slot, reserved under the lock after a reading of the clock. -/
structure Reservation (τ : Type) where
  caller : τ
  now : ℚ
  slot : ℚ

/-- A return from `acquire`, after the sleep that was asked for, if any. -/
structure Start (τ : Type) where
  caller : τ
  slot : ℚ
  wait : ℚ
  slept : ℚ
  time : ℚ

/-- The limiter, the clock, the lock and the threads. The logs are added: what was
reserved, in the order of the lock, and who has started. -/
structure Pacing (τ : Type) where
  limiter : RateLimiter
  clock : ℚ
  owner : Option τ := none
  callers : τ → Caller := fun _ => .outside
  reservations : List (Reservation τ) := []
  starts : List (Start τ) := []

inductive PacingAct (τ : Type)
  /-- Time passes. -/
  | tick (now : ℚ)
  | enter (i : τ)
  /-- `now = self._monotonic()` -/
  | readClock (i : τ)
  | choose (i : τ)
  /-- Move the next slot on, and release the lock. -/
  | leave (i : τ)
  /-- `wait = slot - self._monotonic()` -/
  | readAgain (i : τ)
  | sleep (i : τ)
  | wake (i : τ)

namespace Pacing

variable {τ : Type} [DecidableEq τ]

def put (w : Pacing τ) (i : τ) (c : Caller) : Pacing τ :=
  { w with callers := Function.update w.callers i c }

/-- One access of a thread. A sleep may end at any time. -/
def step (w : Pacing τ) : PacingAct τ → Option (Pacing τ)
  | .tick now => if w.clock ≤ now then some { w with clock := now } else none
  | .enter i =>
    match w.callers i, w.owner with
    | .outside, none => some { w.put i .locked with owner := some i }
    | _, _ => none
  | .readClock i =>
    match w.callers i with
    | .locked => some (w.put i (.timed w.clock))
    | _ => none
  | .choose i =>
    match w.callers i with
    | .timed now => some (w.put i (.chosen now (w.limiter.slot now)))
    | _ => none
  | .leave i =>
    match w.callers i with
    | .chosen now slot =>
      some { w.put i (.reserved slot) with
        limiter := { w.limiter with nextSlot := slot + w.limiter.interval }
        owner := none
        reservations := w.reservations ++ [⟨i, now, slot⟩] }
    | _ => none
  | .readAgain i =>
    match w.callers i with
    | .reserved slot =>
      if 0 < slot - w.clock then some (w.put i (.waits slot (slot - w.clock)))
      else some { w.put i .outside with
        starts := w.starts ++ [⟨i, slot, slot - w.clock, 0, w.clock⟩] }
    | _ => none
  | .sleep i =>
    match w.callers i with
    | .waits slot wait => some (w.put i (.asleep slot wait w.clock))
    | _ => none
  | .wake i =>
    match w.callers i with
    | .asleep slot wait since =>
      some { w.put i .outside with
        starts := w.starts ++ [⟨i, slot, wait, w.clock - since, w.clock⟩] }
    | _ => none

-- ---------------------------------------------------------------------------
-- One access
-- ---------------------------------------------------------------------------

inductive Moves (w : Pacing τ) : PacingAct τ → Pacing τ → Prop
  | tick (hclock : w.clock ≤ now) : Moves w (.tick now) { w with clock := now }
  | enter (hi : w.callers i = .outside) (hfree : w.owner = none) :
    Moves w (.enter i) { w.put i .locked with owner := some i }
  | readClock (hi : w.callers i = .locked) : Moves w (.readClock i) (w.put i (.timed w.clock))
  | choose (hi : w.callers i = .timed now) :
    Moves w (.choose i) (w.put i (.chosen now (w.limiter.slot now)))
  | leave (hi : w.callers i = .chosen now slot) :
    Moves w (.leave i) { w.put i (.reserved slot) with
      limiter := { w.limiter with nextSlot := slot + w.limiter.interval }
      owner := none
      reservations := w.reservations ++ [⟨i, now, slot⟩] }
  | wait (hi : w.callers i = .reserved slot) (hwait : 0 < slot - w.clock) :
    Moves w (.readAgain i) (w.put i (.waits slot (slot - w.clock)))
  | start (hi : w.callers i = .reserved slot) (hwait : slot - w.clock ≤ 0) :
    Moves w (.readAgain i) { w.put i .outside with
      starts := w.starts ++ [⟨i, slot, slot - w.clock, 0, w.clock⟩] }
  | sleep (hi : w.callers i = .waits slot wait) :
    Moves w (.sleep i) (w.put i (.asleep slot wait w.clock))
  | wake (hi : w.callers i = .asleep slot wait since) :
    Moves w (.wake i) { w.put i .outside with
      starts := w.starts ++ [⟨i, slot, wait, w.clock - since, w.clock⟩] }

theorem moves_of_step {w w' : Pacing τ} (h : step w a = some w') : Moves w a w' := by
  cases a with
  | tick now =>
    rw [step] at h
    split at h
    · cases h
      exact .tick ‹_›
    · cases h
  | enter i =>
    rw [step] at h
    split at h
    · cases h
      exact .enter ‹_› ‹_›
    · cases h
  | readAgain i =>
    rw [step] at h
    split at h
    · split at h
      · cases h
        exact .wait ‹_› ‹_›
      · cases h
        exact .start ‹_› (not_lt.mp ‹_›)
    · cases h
  | readClock i =>
    rw [step] at h
    split at h
    · cases h
      exact .readClock ‹_›
    · cases h
  | choose i =>
    rw [step] at h
    split at h
    · cases h
      exact .choose ‹_›
    · cases h
  | leave i =>
    rw [step] at h
    split at h
    · cases h
      exact .leave ‹_›
    · cases h
  | sleep i =>
    rw [step] at h
    split at h
    · cases h
      exact .sleep ‹_›
    · cases h
  | wake i =>
    rw [step] at h
    split at h
    · cases h
      exact .wake ‹_›
    · cases h

theorem put_callers {w : Pacing τ} :
    (w.put i c).callers j = if j = i then c else w.callers j :=
  Function.update_apply _ _ _ _

-- ---------------------------------------------------------------------------
-- The slots
-- ---------------------------------------------------------------------------

theorem slot_spec (r : RateLimiter) (now : ℚ) :
    now ≤ r.slot now ∧ r.nextSlot ≤ r.slot now := by
  rw [RateLimiter.slot]
  split
  · exact ⟨le_of_lt ‹_›, le_refl _⟩
  · exact ⟨le_refl _, not_lt.mp ‹_›⟩

/-- The slots keep their distance. Only the owner of the lock is about to move the next
slot on, so the slot it has chosen is still free. -/
structure Paced (δ : ℚ) (w : Pacing τ) : Prop where
  interval : w.limiter.interval = δ
  exclusive : ∀ i, (w.callers i).inside = true → w.owner = some i
  chosen : ∀ i now slot, w.callers i = .chosen now slot →
    now ≤ slot ∧ w.limiter.nextSlot ≤ slot
  spaced : Spaced δ (w.reservations.map (·.slot))
  behind : ∀ r ∈ w.reservations, r.slot + δ ≤ w.limiter.nextSlot
  notEarly : ∀ r ∈ w.reservations, r.now ≤ r.slot

/-- A caller that moves on, and chooses no slot, leaves the slots as they are. -/
theorem Paced.put {w : Pacing τ} (h : w.Paced δ)
    (hinside : c.inside = true → w.owner = some i)
    (hchosen : ∀ now slot, c = .chosen now slot →
      now ≤ slot ∧ w.limiter.nextSlot ≤ slot) :
    (w.put i c).Paced δ where
  interval := h.interval
  exclusive := by
    intro j hj
    rw [put_callers] at hj
    split at hj
    · rename_i hji
      exact hji ▸ hinside hj
    · exact h.exclusive j hj
  chosen := by
    intro j now slot hj
    rw [put_callers] at hj
    split at hj
    · exact hchosen now slot hj
    · exact h.chosen j now slot hj
  spaced := h.spaced
  behind := h.behind
  notEarly := h.notEarly

theorem Paced.start {w : Pacing τ} {starts : List (Start τ)} (h : w.Paced δ) :
    Paced δ { w.put i .outside with starts := starts } := by
  have hput : (w.put i .outside).Paced δ := h.put (by rintro ⟨⟩) (by rintro _ _ ⟨⟩)
  exact { hput with }

theorem Paced.enter {w : Pacing τ} (h : w.Paced δ) (hfree : w.owner = none) :
    Paced δ { w.put i .locked with owner := some i } where
  interval := h.interval
  exclusive := by
    intro j hj
    simp only [put_callers] at hj
    split at hj
    · exact congrArg some (‹_› : j = i).symm
    · have hown := h.exclusive j hj
      rw [hfree] at hown
      cases hown
  chosen := by
    intro j now slot hj
    simp only [put_callers] at hj
    split at hj
    · cases hj
    · exact h.chosen j now slot hj
  spaced := h.spaced
  behind := h.behind
  notEarly := h.notEarly

theorem Paced.leave {w : Pacing τ} (h : w.Paced δ) (hδ : 0 < δ)
    (hi : w.callers i = .chosen now slot) :
    Paced δ { w.put i (.reserved slot) with
      limiter := { w.limiter with nextSlot := slot + w.limiter.interval }
      owner := none
      reservations := w.reservations ++ [⟨i, now, slot⟩] } := by
  have hown : w.owner = some i := h.exclusive i (by rw [hi]; rfl)
  obtain ⟨hnow, hfree⟩ := h.chosen i now slot hi
  -- Whoever else is in the body would own the lock.
  have hoff : ∀ j, j ≠ i → (w.callers j).inside = false := by
    intro j hj
    by_contra hin
    have hother := h.exclusive j (by simpa using hin)
    rw [hown] at hother
    exact hj (Option.some.inj hother).symm
  constructor
  case interval => exact h.interval
  case exclusive =>
    intro j hj
    simp only [put_callers] at hj
    split at hj
    · cases hj
    · rw [hoff j ‹_›] at hj
      cases hj
  case chosen =>
    intro j now' slot' hj
    simp only [put_callers] at hj
    split at hj
    · cases hj
    · have hin := hoff j ‹_›
      rw [hj] at hin
      cases hin
  case spaced =>
    rw [List.map_append]
    refine h.spaced.concat ?_
    simp only [List.forall_mem_map]
    intro r hr
    exact (h.behind r hr).trans hfree
  case behind =>
    intro r hr
    simp only [h.interval]
    obtain hr | hr := List.mem_append.mp hr
    · have := h.behind r hr
      linarith
    · cases List.mem_singleton.mp hr
      exact le_refl _
  case notEarly =>
    intro r hr
    obtain hr | hr := List.mem_append.mp hr
    · exact h.notEarly r hr
    · cases List.mem_singleton.mp hr
      exact hnow

theorem Paced.step {w w' : Pacing τ} (h : w.Paced δ) (hδ : 0 < δ) (hstep : step w a = some w') :
    w'.Paced δ := by
  cases moves_of_step hstep with
  | tick => exact { h with }
  | enter hi hfree => exact h.enter hfree
  | readClock hi => exact h.put (fun _ => h.exclusive _ (by rw [hi]; rfl)) (by rintro _ _ ⟨⟩)
  | choose hi =>
    refine h.put (fun _ => h.exclusive _ (by rw [hi]; rfl)) ?_
    rintro _ _ ⟨⟩
    exact slot_spec w.limiter _
  | leave hi => exact h.leave hδ hi
  | wait hi hwait => exact h.put (by rintro ⟨⟩) (by rintro _ _ ⟨⟩)
  | start hi hwait => exact h.start
  | sleep hi => exact h.put (by rintro ⟨⟩) (by rintro _ _ ⟨⟩)
  | wake hi => exact h.start

-- ---------------------------------------------------------------------------
-- The starts
-- ---------------------------------------------------------------------------

/-- Who starts has a slot of its own, and does not start before it unless its sleep was
cut short. -/
structure Patient (w : Pacing τ) : Prop where
  onTime : ∀ i, (w.callers i).OnTime w.clock
  starts : ∀ s ∈ w.starts, s.wait ≤ s.slept → s.slot ≤ s.time
  pending : ∀ i slot, (w.callers i).slot? = some slot →
    ∃ r ∈ w.reservations, r.caller = i ∧ r.slot = slot
  started : ∀ s ∈ w.starts, ∃ r ∈ w.reservations, r.caller = s.caller ∧ r.slot = s.slot

theorem Patient.put {w : Pacing τ} (h : w.Patient) (hc : c.OnTime w.clock)
    (hslot : ∀ slot, c.slot? = some slot → (w.callers i).slot? = some slot) :
    (w.put i c).Patient where
  onTime := by
    intro j
    rw [put_callers]
    split
    · exact hc
    · exact h.onTime j
  starts := h.starts
  pending := by
    intro j slot hj
    rw [put_callers] at hj
    split at hj
    · rename_i hji
      exact hji ▸ h.pending i slot (hslot slot hj)
    · exact h.pending j slot hj
  started := h.started

theorem Patient.leave {w : Pacing τ} (h : w.Patient) {limiter : RateLimiter} {owner : Option τ} :
    Patient { w.put i (.reserved slot) with
      limiter := limiter
      owner := owner
      reservations := w.reservations ++ [⟨i, now, slot⟩] } where
  onTime := by
    intro j
    simp only [put_callers]
    split
    · trivial
    · exact h.onTime j
  starts := h.starts
  pending := by
    intro j slot' hj
    simp only [put_callers] at hj
    split at hj
    · cases hj
      exact ⟨_, List.mem_append_right _ (List.mem_singleton_self _),
        (‹_› : j = i).symm, rfl⟩
    · obtain ⟨r, hr, hown⟩ := h.pending j slot' hj
      exact ⟨r, List.mem_append_left _ hr, hown⟩
  started := by
    intro s hs
    obtain ⟨r, hr, hown⟩ := h.started s hs
    exact ⟨r, List.mem_append_left _ hr, hown⟩

theorem Patient.start {w : Pacing τ} (h : w.Patient) (hslot : (w.callers i).slot? = some slot)
    (htime : wait ≤ slept → slot ≤ time) :
    Patient { w.put i .outside with starts := w.starts ++ [⟨i, slot, wait, slept, time⟩] } := by
  have hput : (w.put i .outside).Patient := h.put trivial (by rintro _ ⟨⟩)
  refine ⟨hput.onTime, ?_, hput.pending, ?_⟩
  · intro s' hs'
    obtain hs' | hs' := List.mem_append.mp hs'
    · exact h.starts s' hs'
    · cases List.mem_singleton.mp hs'
      exact htime
  · intro s' hs'
    obtain hs' | hs' := List.mem_append.mp hs'
    · exact h.started s' hs'
    · cases List.mem_singleton.mp hs'
      exact h.pending i slot hslot

theorem Patient.step {w w' : Pacing τ} (h : w.Patient) (hstep : step w a = some w') :
    w'.Patient := by
  cases moves_of_step hstep with
  | tick hclock => exact { h with onTime := fun i => (h.onTime i).later hclock }
  | @enter i hi hfree =>
    have hput : (w.put i .locked).Patient := h.put trivial (by rintro _ ⟨⟩)
    exact { hput with }
  | readClock hi => exact h.put trivial (by rintro _ ⟨⟩)
  | choose hi => exact h.put trivial (by rintro _ ⟨⟩)
  | leave hi => exact h.leave
  | wait hi hwait =>
    refine h.put ?_ (fun _ hslot => by rw [hi]; exact hslot)
    simp [Caller.OnTime]
  | start hi hwait =>
    refine h.start (by rw [hi]; rfl) fun _ => ?_
    simpa using hwait
  | @sleep i slot wait hi =>
    have htime := h.onTime i
    rw [hi] at htime
    exact h.put htime (fun _ hslot => by rw [hi]; exact hslot)
  | @wake i slot wait since hi =>
    have htime := h.onTime i
    rw [hi] at htime
    refine h.start (by rw [hi]; rfl) fun hslept => ?_
    simp only [Caller.OnTime] at htime hslept ⊢
    linarith

-- ---------------------------------------------------------------------------
-- Runs
-- ---------------------------------------------------------------------------

theorem new_eq_ok {limiter : RateLimiter} (h : RateLimiter.new rate = .ok limiter) :
    0 < rate ∧ limiter = ⟨1 / rate, 0⟩ := by
  rw [RateLimiter.new] at h
  split at h
  · cases h
  · cases h
    exact ⟨not_le.mp ‹_›, rfl⟩

theorem paced_of_run {w w' : Pacing τ} (hδ : 0 < δ) (h0 : w.Paced δ)
    (h : Machine.run step w acts = some w') : w'.Paced δ :=
  Machine.run_invariant (fun _ w => w.Paced δ) h0 (fun _ _ _ _ hinv hstep => hinv.step hδ hstep) h

theorem patient_of_run {w w' : Pacing τ} (h0 : w.Patient) (h : Machine.run step w acts = some w') :
    w'.Patient :=
  Machine.run_invariant (fun _ w => w.Patient) h0 (fun _ _ _ _ hinv hstep => hinv.step hstep) h

omit [DecidableEq τ] in
theorem paced_of_new {limiter : RateLimiter} {clock : ℚ} (hδ : limiter.interval = δ) :
    Paced (τ := τ) δ { limiter, clock := clock } where
  interval := hδ
  exclusive := by rintro _ ⟨⟩
  chosen := by rintro _ _ _ ⟨⟩
  spaced := List.Pairwise.nil
  behind := by rintro _ ⟨⟩
  notEarly := by rintro _ ⟨⟩

omit [DecidableEq τ] in
theorem patient_of_new {limiter : RateLimiter} {clock : ℚ} :
    Patient (τ := τ) { limiter, clock := clock } where
  onTime := fun _ => trivial
  starts := by rintro _ ⟨⟩
  pending := by rintro _ _ ⟨⟩
  started := by rintro _ ⟨⟩

/-- Slots are reserved at a distance and not before they are asked for, nobody starts
before its slot, and no second holds more of them than the rate, rounded up. -/
theorem acquire_paced {limiter : RateLimiter} {clock : ℚ} {w : Pacing τ}
    (hnew : RateLimiter.new rate = .ok limiter)
    (h : Machine.run step { limiter, clock := clock } acts = some w) :
    w.reservations.Pairwise (fun a b => a.slot + 1 / rate ≤ b.slot ∧ a.slot < b.slot) ∧
    (∀ r ∈ w.reservations, r.now ≤ r.slot) ∧
    (∀ s ∈ w.starts, (∃ r ∈ w.reservations, r.caller = s.caller ∧ r.slot = s.slot) ∧
      (s.wait ≤ s.slept → s.slot ≤ s.time)) ∧
    ∀ t, (w.reservations.filter fun r => t ≤ r.slot ∧ r.slot < t + 1).length ≤
      ⌈rate⌉₊ ∧
      (w.reservations.filter fun r => t < r.slot ∧ r.slot ≤ t + 1).length ≤
        ⌈rate⌉₊ := by
  obtain ⟨hrate, rfl⟩ := new_eq_ok hnew
  have hδ : 0 < 1 / rate := one_div_pos.mpr hrate
  have hpaced : w.Paced (1 / rate) := paced_of_run hδ (paced_of_new rfl) h
  have hpatient : w.Patient := patient_of_run patient_of_new h
  have hceil : 1 / (1 / rate) = rate := one_div_one_div rate
  refine ⟨?_, hpaced.notEarly,
    fun s hs => ⟨hpatient.started s hs, hpatient.starts s hs⟩, ?_⟩
  · have hincreasing := hpaced.spaced.increasing hδ
    exact (List.pairwise_map.mp hpaced.spaced).and (List.pairwise_map.mp hincreasing)
  · intro t
    have hwindow := hpaced.spaced.length_window_le hδ t 1
    have hwindow' := hpaced.spaced.length_window_le' hδ t 1
    rw [hceil, List.filter_map, List.length_map] at hwindow hwindow'
    exact ⟨hwindow, hwindow'⟩

def twoCallers : List (PacingAct Bool) :=
  [.enter true, .readClock true, .choose true, .leave true, .enter false, .readAgain true,
    .readClock false, .choose false, .leave false, .readAgain false, .sleep false,
    .tick (1 / 2), .wake false]

theorem acquire_paced_two :
    ∃ w : Pacing Bool,
      Machine.run step { limiter := ⟨1 / 2, 0⟩, clock := 0 } twoCallers = some w ∧
      w.starts.map (·.time) = [0, 1 / 2] ∧
      (∀ s ∈ w.starts, s.wait ≤ s.slept → s.slot ≤ s.time) ∧
      ∀ t, (w.reservations.filter fun r => t ≤ r.slot ∧ r.slot < t + 1).length ≤
        ⌈(2 : ℚ)⌉₊ := by
  have hstarts : (Machine.run step { limiter := ⟨1 / 2, 0⟩, clock := 0 } twoCallers).map
      (fun w => w.starts.map (·.time)) = some [0, 1 / 2] := by decide +kernel
  obtain ⟨w, h, hw⟩ := Option.map_eq_some_iff.mp hstarts
  have hnew : RateLimiter.new 2 = .ok ⟨1 / 2, 0⟩ := rfl
  obtain ⟨-, -, hpatient, hwindow⟩ := acquire_paced hnew h
  exact ⟨w, h, hw, fun s hs => (hpatient s hs).2, fun t => (hwindow t).1⟩

end Pacing
end UbkiUploader
