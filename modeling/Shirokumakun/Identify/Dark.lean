/-
What the LED shows when everything has come to rest.

Stopping cancels the timers and clears the pin, but work already queued still runs: it
toggles `blink_on`, which a stop does not touch, and writes that to the pin.  `settled`
computes what the pin will show when all such work is done.  The workqueue's own steps do
not change it, so after a stop it is decided by where the work stands at the stop.
-/
import Shirokumakun.Identify.Model

namespace Shirokumakun.Identify

/-- `blink_on` and the pin, once the handler in progress is done. -/
def afterHandler (s : State) : Bool × Bool :=
  match s.handler with
  | .idle => (s.blink_on, s.led_blue)
  | .started => (!s.blink_on, !s.blink_on)
  | .toggled => (s.blink_on, s.blink_on)
  | .writing value => (s.blink_on, value)

/-- The pin, once the work in progress and the work queued are done. -/
def settled (s : State) : Bool :=
  if s.pending then !(afterHandler s).1 else (afterHandler s).2

/-- The blink timer is stopped, and no work is queued or in progress. -/
structure AtRest (s : State) : Prop where
  stopped : s.blink_timer = none
  empty : s.pending = false
  idle : s.handler = .idle

/-- What the claim of darkness says of a state. -/
def Dark (s : State) : Prop := AtRest s → s.led_blue = false

theorem AtRest.settled_eq {s : State} (h : AtRest s) : settled s = s.led_blue := by
  unfold settled afterHandler
  rw [h.empty, h.idle]
  rfl

/-- **Work does not change where it leads.** -/
theorem settled_work {s s' : State} (h : workStep s = some s') : settled s' = settled s := by
  cases worked h with
  | takeUp hh hpending => simp [settled, afterHandler, hh, hpending]
  | toggle hh => simp [settled, afterHandler, hh]
  | read hh => simp [settled, afterHandler, hh]
  | write hh => simp [settled, afterHandler, hh]

/-! ### Stops -/

/-- Where the work stands at a stop that leaves the LED dark: a toggle still to be taken up
will switch off, and so will a handler in progress if nothing is queued behind it. -/
def StopHarmless (s : State) : Prop :=
  if s.pending then (afterHandler s).1 = true
  else match s.handler with
    | .idle => True
    | .started => s.blink_on = true
    | .toggled => s.blink_on = false
    | .writing value => value = false

/-- `OnIdentifyStop` and the expiry of the stop timer. -/
def IsStop : Act → Prop
  | .onIdentifyStop _ => True
  | .stopExpiry => True
  | _ => False

/-- Every stop finds the work so. -/
def StopsHarmless (s : State) (a : Act) : Prop := IsStop a → StopHarmless s

/-- A stop leaves the timer stopped, the pin low, and the work as it is. -/
theorem stop_cases {s s' : State} {a : Act} (ha : IsStop a) (hs : machine.step s a = some s') :
    s'.blink_timer = none ∧ s'.led_blue = false ∧ s'.pending = s.pending ∧
      s'.handler = s.handler ∧ s'.blink_on = s.blink_on := by
  cases stepped hs with
  | onIdentifyStop ep => exact ⟨rfl, rfl, rfl, rfl, rfl⟩
  | stopExpiry hdue => exact ⟨rfl, rfl, rfl, rfl, rfl⟩
  | onIdentifyStart ep => exact ha.elim
  | onTriggerEffect => exact ha.elim
  | identifyLedTrigger => exact ha.elim
  | elapse ms hguard => exact ha.elim
  | blinkExpiry hdue => exact ha.elim
  | work hwork => exact ha.elim

/-- **The condition is exact for one stop.** -/
theorem settled_stop_iff {s s' : State} {a : Act} (ha : IsStop a)
    (hs : machine.step s a = some s') : settled s' = false ↔ StopHarmless s := by
  obtain ⟨-, hled, hpending, hhandler, hon⟩ := stop_cases ha hs
  unfold settled StopHarmless afterHandler
  rw [hpending, hhandler, hon, hled]
  cases s.pending with
  | true => cases s.handler <;> simp
  | false => cases s.handler <;> simp

/-- Stopped, the LED is on its way to dark. -/
def Fading (s : State) : Prop := s.blink_timer = none → settled s = false

/-- **One step** that is not a harmful stop keeps it so. -/
theorem step_fading {s s' : State} {a : Act} (h : Fading s) (hharmless : StopsHarmless s a)
    (hs : machine.step s a = some s') : Fading s' := by
  intro hstopped
  by_cases hstop : IsStop a
  · exact (settled_stop_iff hstop hs).mpr (hharmless hstop)
  · cases stepped hs with
    | onIdentifyStart ep => exact absurd hstopped (Option.some_ne_none _)
    | onIdentifyStop ep => exact absurd trivial hstop
    | onTriggerEffect => exact absurd hstopped (Option.some_ne_none _)
    | identifyLedTrigger => exact absurd hstopped (Option.some_ne_none _)
    | elapse ms hguard => exact h hstopped
    | blinkExpiry hdue => exact absurd hstopped (Option.some_ne_none _)
    | stopExpiry hdue => exact absurd trivial hstop
    | work hwork =>
        rw [(workStep_timers hwork).1] at hstopped
        rw [settled_work hwork]
        exact h hstopped

/-! ### Coming to rest -/

/-- The handler in progress can be finished. -/
theorem finish_handler (s : State) :
    ∃ k s', machine.run s (List.replicate k .work) = some s' ∧ s'.handler = .idle ∧
      s'.pending = s.pending ∧ (s'.blink_on, s'.led_blue) = afterHandler s ∧
      s'.blink_timer = s.blink_timer := by
  cases hh : s.handler with
  | idle => exact ⟨0, s, rfl, hh, rfl, by simp [afterHandler, hh], rfl⟩
  | started =>
      refine ⟨3, { s with blink_on := !s.blink_on, handler := .idle, led_blue := !s.blink_on },
        ?_, rfl, rfl, ?_, rfl⟩
      · simp [machine, step, workStep, hh]
      · simp [afterHandler, hh]
  | toggled =>
      refine ⟨2, { s with handler := .idle, led_blue := s.blink_on }, ?_, rfl, rfl, ?_, rfl⟩
      · simp [machine, step, workStep, hh]
      · simp [afterHandler, hh]
  | writing value =>
      refine ⟨1, { s with handler := .idle, led_blue := value }, ?_, rfl, rfl, ?_, rfl⟩
      · simp [machine, step, workStep, hh]
      · simp [afterHandler, hh]

/-- The workqueue by itself brings a stopped LED to rest, showing what was settled. -/
theorem come_to_rest {s : State} (hstopped : s.blink_timer = none) :
    ∃ k t, machine.run s (List.replicate k .work) = some t ∧ AtRest t ∧
      t.led_blue = settled s := by
  obtain ⟨k, s₁, hrun, hidle, hpending, hafter, htimer⟩ := finish_handler s
  have hon : s₁.blink_on = (afterHandler s).1 := congrArg Prod.fst hafter
  have hled : s₁.led_blue = (afterHandler s).2 := congrArg Prod.snd hafter
  by_cases hp : s.pending = true
  · rw [hp] at hpending
    -- One run of the handler from its beginning.
    have htaken : machine.step s₁ .work
        = some { s₁ with pending := false, handler := .started } := by
      simp [machine, step, workStep, hidle, hpending]
    obtain ⟨k', t, hrun', hidle', hpending', hafter', htimer'⟩ :=
      finish_handler { s₁ with pending := false, handler := .started }
    refine ⟨k + (k' + 1), t, ?_, ⟨?_, hpending', hidle'⟩, ?_⟩
    · rw [← List.replicate_append_replicate, machine.run_append_of_run hrun, List.replicate_succ,
        machine.run_cons_of_step htaken, hrun']
    · rw [htimer', htimer, hstopped]
    · have hlast : t.led_blue = !s₁.blink_on := congrArg Prod.snd hafter'
      rw [hlast, hon, settled, if_pos hp]
  · rw [Bool.not_eq_true] at hp
    refine ⟨k, s₁, hrun, ⟨?_, ?_, hidle⟩, ?_⟩
    · rw [htimer, hstopped]
    · rw [hpending, hp]
    · rw [hled, settled, hp]
      rfl

/-- Wherever the workqueue stops, the same is settled. -/
theorem settled_run {k : Nat} {s t : State}
    (hrun : machine.run s (List.replicate k .work) = some t) : settled t = settled s := by
  induction k generalizing s with
  | zero =>
      obtain rfl : s = t := Option.some.inj hrun
      rfl
  | succ k ih =>
      rw [List.replicate_succ] at hrun
      obtain ⟨s', hs, hrest⟩ := Option.bind_eq_some_iff.mp hrun
      rw [ih hrest, settled_work hs]

/-- **The LED ends dark in the runs whose stops are harmless.**  Every state such a run
reaches is dark when it is at rest.  And the other stops are exactly those, at whatever state,
after which the work then outstanding, and nothing else, leaves the LED lit at rest. -/
theorem identify_ends_dark (s : State) :
    (machine.Reach StopsHarmless s → Dark s) ∧
      ∀ a s', IsStop a → machine.step s a = some s' →
        ((∃ k t, machine.run s' (List.replicate k .work) = some t ∧ AtRest t ∧
          t.led_blue = true) ↔ ¬ StopHarmless s) := by
  refine ⟨?_, ?_⟩
  · intro hreach hrest
    have hfading : Fading s := by
      refine Transition.Machine.Reach.invariant (I := Fading) (fun _ => rfl) ?_ hreach
      intro t a t' hI hC hs
      exact step_fading hI hC hs
    rw [← hrest.settled_eq]
    exact hfading hrest.stopped
  · intro a s' ha hs
    rw [← settled_stop_iff ha hs, Bool.not_eq_false]
    constructor
    · rintro ⟨k, t, hrun, hrest, hled⟩
      rw [← settled_run hrun, hrest.settled_eq, hled]
    · intro hlit
      obtain ⟨k, t, hrun, hrest, hled⟩ := come_to_rest (stop_cases ha hs).1
      exact ⟨k, t, hrun, hrest, hled.trans hlit⟩

/-- A session of endpoint 1, its first toggle held up until after the stop. -/
theorem identify_stays_lit :
    ∃ s, machine.run machine.init [.onIdentifyStart .ep1, .elapse 250, .blinkExpiry,
        .onIdentifyStop .ep1, .work, .work, .work, .work] = some s ∧
      machine.Reachable s ∧ AtRest s ∧ ¬ Dark s := by
  have hrun : ∃ s, machine.run machine.init [.onIdentifyStart .ep1, .elapse 250, .blinkExpiry,
      .onIdentifyStop .ep1, .work, .work, .work, .work] = some s ∧ AtRest s ∧
        s.led_blue = true := ⟨_, rfl, ⟨rfl, rfl, rfl⟩, rfl⟩
  obtain ⟨s, hs, hrest, hlit⟩ := hrun
  refine ⟨s, hs, Transition.Machine.reachable_of_run hs, hrest, ?_⟩
  intro hdark
  rw [hdark hrest] at hlit
  exact Bool.false_ne_true hlit

end Shirokumakun.Identify
