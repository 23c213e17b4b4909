/-
Who keeps the LED blinking, and who ends it.

The four clients count no references.  A stop from one of them stops the timer for all, so
a session or a shell window of another is cut short; and an effect starts the timer but
leaves nobody to stop it, unless a session is open anyway.
-/
import Mathlib.Tactic.ByContra
import Shirokumakun.Identify.Model

namespace Shirokumakun.Identify

/-- Some endpoint has been told to identify and not yet to stop. -/
def SessionOpen (s : State) : Prop := ∃ ep, s.session ep = true

/-! ### Sessions cut short -/

/-- Somebody is to be identified: an open session, or the window of the last trigger. -/
def Wanted (s : State) : Prop := SessionOpen s ∨ s.now < s.windowEnd

/-- What the claim of uncut sessions says of a state. -/
def Blinks (s : State) : Prop := Wanted s → s.blink_timer.isSome = true

/-- A stop comes when nobody else is to be identified: no other endpoint and no window for
`OnIdentifyStop`, no endpoint for the stop timer. -/
def StopsUnwanted (s : State) : Act → Prop
  | .onIdentifyStop ep => (∀ e, e ≠ ep → s.session e = false) ∧ s.windowEnd ≤ s.now
  | .stopExpiry => ∀ e, s.session e = false
  | _ => True

/-- The stop timer, when it is armed, expires at the end of the window. -/
def ArmedForWindow (s : State) : Prop := ∀ t, s.stop_timer = some t → t = s.windowEnd

theorem due_some {now : Nat} {timer : Option Nat} (h : due now timer = true) :
    ∃ t, timer = some t ∧ t ≤ now := by
  cases timer with
  | none => exact absurd h Bool.false_ne_true
  | some t => exact ⟨t, rfl, of_decide_eq_true h⟩

theorem session_none_iff {s : State} : ¬ SessionOpen s ↔ ∀ e, s.session e = false := by
  unfold SessionOpen
  simp

/-- After `OnIdentifyStop` the sessions left are those of the other endpoints. -/
theorem sessionOpen_stop_iff {s : State} {ep : Endpoint} :
    SessionOpen (onIdentifyStop ep s) ↔ ∃ e, e ≠ ep ∧ s.session e = true := by
  constructor
  · rintro ⟨e, he⟩
    by_cases heq : e = ep
    · exact absurd ((if_pos heq).symm.trans he) Bool.false_ne_true
    · exact ⟨e, heq, (if_neg heq).symm.trans he⟩
  · rintro ⟨e, heq, he⟩
    exact ⟨e, (if_neg heq).trans he⟩

/-- The stop timer's expiry is the end of the window. -/
theorem window_over {s : State} (harmed : ArmedForWindow s) (h : due s.now s.stop_timer = true) :
    s.windowEnd ≤ s.now := by
  obtain ⟨t, ht, hle⟩ := due_some h
  rw [harmed t ht] at hle
  exact hle

/-- **One step** keeps the LED blinking for everybody exactly when it is no unwanted stop. -/
theorem step_blinks_iff {s s' : State} {a : Act} (harmed : ArmedForWindow s) (h : Blinks s)
    (hs : machine.step s a = some s') : StopsUnwanted s a ↔ Blinks s' := by
  cases stepped hs with
  | onIdentifyStart ep => exact ⟨fun _ _ => rfl, fun _ => trivial⟩
  | onIdentifyStop ep =>
      constructor
      · rintro ⟨hothers, hwindow⟩ hwanted
        rcases hwanted with hopen | hlt
        · obtain ⟨e, heq, he⟩ := sessionOpen_stop_iff.mp hopen
          rw [hothers e heq] at he
          exact absurd he Bool.false_ne_true
        · exact absurd hlt (Nat.not_lt.mpr hwindow)
      · intro hblinks
        refine ⟨?_, ?_⟩
        · intro e heq
          by_contra he
          rw [Bool.not_eq_false] at he
          exact Bool.false_ne_true (hblinks (Or.inl (sessionOpen_stop_iff.mpr ⟨e, heq, he⟩)))
        · by_contra hlt
          exact Bool.false_ne_true (hblinks (Or.inr (Nat.not_le.mp hlt)))
  | onTriggerEffect => exact ⟨fun _ _ => rfl, fun _ => trivial⟩
  | identifyLedTrigger => exact ⟨fun _ _ => rfl, fun _ => trivial⟩
  | elapse ms hguard =>
      refine ⟨fun _ hwanted => h ?_, fun _ => trivial⟩
      rcases hwanted with hopen | hlt
      · exact Or.inl hopen
      · exact Or.inr (Nat.lt_of_le_of_lt (Nat.le_add_right s.now ms) hlt)
  | blinkExpiry hdue => exact ⟨fun _ _ => rfl, fun _ => trivial⟩
  | stopExpiry hdue =>
      have hover := window_over harmed hdue
      constructor
      · intro hnone hwanted
        rcases hwanted with hopen | hlt
        · exact absurd hopen (session_none_iff.mpr hnone)
        · exact absurd hlt (Nat.not_lt.mpr hover)
      · intro hblinks
        apply session_none_iff.mp
        intro hopen
        exact Bool.false_ne_true (hblinks (Or.inl hopen))
  | work hwork =>
      obtain ⟨hblink, -, hnow, hsession, hwindow⟩ := workStep_timers hwork
      refine ⟨fun _ => ?_, fun _ => trivial⟩
      unfold Blinks Wanted SessionOpen
      rw [hblink, hnow, hsession, hwindow]
      exact h

theorem armedForWindow_of_none {s : State} (h : s.stop_timer = none) : ArmedForWindow s := by
  intro t ht
  rw [h] at ht
  exact absurd ht.symm (Option.some_ne_none t)

theorem step_armedForWindow {s s' : State} {a : Act} (h : ArmedForWindow s)
    (hs : machine.step s a = some s') : ArmedForWindow s' := by
  cases stepped hs with
  | onIdentifyStart ep => exact armedForWindow_of_none rfl
  | onIdentifyStop ep => exact armedForWindow_of_none rfl
  | onTriggerEffect => exact armedForWindow_of_none rfl
  | identifyLedTrigger =>
      intro t ht
      exact (Option.some.inj ht).symm
  | elapse ms hguard => exact h
  | blinkExpiry hdue => exact h
  | stopExpiry hdue => exact armedForWindow_of_none rfl
  | work hwork =>
      obtain ⟨-, hstop, -, -, hwindow⟩ := workStep_timers hwork
      unfold ArmedForWindow
      rw [hstop, hwindow]
      exact h

/-- **Sessions are uncut exactly in the runs whose stops are wanted by nobody else.**  Every
state such a run reaches has the blink timer running while an endpoint or a window wants it;
and a run through such states only has no other stops. -/
theorem identify_session_uncut (acts : List Act) :
    (∀ s, machine.Reach StopsUnwanted s → Blinks s) ∧
      (machine.Always Blinks machine.init acts ↔
        machine.Obeys StopsUnwanted machine.init acts) := by
  have hinit : Blinks machine.init := by
    rintro (⟨ep, hep⟩ | hlt)
    · exact absurd hep Bool.false_ne_true
    · exact absurd hlt (Nat.not_lt_zero 0)
  have harmed : ArmedForWindow machine.init := armedForWindow_of_none rfl
  exact Transition.Machine.exact_condition (K := ArmedForWindow)
    (fun _ _ _ hK hP hs => step_blinks_iff hK hP hs)
    (fun _ _ _ hK _ _ hs => step_armedForWindow hK hs) harmed hinit acts

/-- Endpoint 2 stops identifying, and endpoint 1 goes dark with it. -/
theorem identify_session_cut :
    ∃ s, machine.run machine.init
        [.onIdentifyStart .ep1, .onIdentifyStart .ep2, .onIdentifyStop .ep2] = some s ∧
      machine.Reachable s ∧ s.session .ep1 = true ∧ s.blink_timer = none ∧ ¬ Blinks s := by
  have hrun : ∃ s, machine.run machine.init
      [.onIdentifyStart .ep1, .onIdentifyStart .ep2, .onIdentifyStop .ep2] = some s ∧
        s.session .ep1 = true ∧ s.blink_timer = none := ⟨_, rfl, rfl, rfl⟩
  obtain ⟨s, hs, hopen, hstopped⟩ := hrun
  refine ⟨s, hs, Transition.Machine.reachable_of_run hs, hopen, hstopped, ?_⟩
  intro hblinks
  have hrunning := hblinks (Or.inl ⟨_, hopen⟩)
  rw [hstopped] at hrunning
  exact Bool.false_ne_true hrunning

/-! ### Blinking without end -/

/-- What the claim of an end in sight says of a state: a running blink timer is stopped by
the stop timer or by an `OnIdentifyStop` still to come. -/
def EndInSight (s : State) : Prop :=
  s.blink_timer.isSome = true → s.stop_timer.isSome = true ∨ SessionOpen s

/-- An effect is triggered only while some session is open. -/
def EffectsInSession (s : State) : Act → Prop
  | .onTriggerEffect => SessionOpen s
  | _ => True

/-- **One step** keeps an end in sight exactly when it is no effect outside a session. -/
theorem step_endInSight_iff {s s' : State} {a : Act} (h : EndInSight s)
    (hs : machine.step s a = some s') : EffectsInSession s a ↔ EndInSight s' := by
  cases stepped hs with
  | onIdentifyStart ep => exact ⟨fun _ _ => Or.inr ⟨ep, if_pos rfl⟩, fun _ => trivial⟩
  | onIdentifyStop ep =>
      exact ⟨fun _ hrunning => absurd hrunning Bool.false_ne_true, fun _ => trivial⟩
  | onTriggerEffect =>
      constructor
      · intro hopen _
        exact Or.inr hopen
      · intro hend
        rcases hend rfl with harmed | hopen
        · exact absurd harmed Bool.false_ne_true
        · exact hopen
  | identifyLedTrigger => exact ⟨fun _ _ => Or.inl rfl, fun _ => trivial⟩
  | elapse ms hguard => exact ⟨fun _ => h, fun _ => trivial⟩
  | blinkExpiry hdue =>
      obtain ⟨t, ht, -⟩ := due_some hdue
      exact ⟨fun _ _ => h (by rw [ht]; rfl), fun _ => trivial⟩
  | stopExpiry hdue =>
      exact ⟨fun _ hrunning => absurd hrunning Bool.false_ne_true, fun _ => trivial⟩
  | work hwork =>
      obtain ⟨hblink, hstop, -, hsession, -⟩ := workStep_timers hwork
      refine ⟨fun _ => ?_, fun _ => trivial⟩
      unfold EndInSight SessionOpen
      rw [hblink, hstop, hsession]
      exact h

/-- **An end is in sight exactly in the runs whose effects fall into sessions.** -/
theorem identify_ends (acts : List Act) :
    (∀ s, machine.Reach EffectsInSession s → EndInSight s) ∧
      (machine.Always EndInSight machine.init acts ↔
        machine.Obeys EffectsInSession machine.init acts) := by
  have hinit : EndInSight machine.init := fun hrunning => absurd hrunning Bool.false_ne_true
  exact Transition.Machine.exact_condition (K := fun _ => True)
    (fun _ _ _ _ hP hs => step_endInSight_iff hP hs) (fun _ _ _ _ _ _ _ => trivial)
    trivial hinit acts

/-- An effect by itself: the timer runs, and nothing is there to stop it. -/
theorem identify_never_ends :
    ∃ s, machine.run machine.init [.onTriggerEffect] = some s ∧ machine.Reachable s ∧
      s.blink_timer = some 250 ∧ s.stop_timer = none ∧ ¬ EndInSight s := by
  have hrun : ∃ s, machine.run machine.init [.onTriggerEffect] = some s ∧
      s.blink_timer = some 250 ∧ s.stop_timer = none ∧ ¬ SessionOpen s :=
    ⟨_, rfl, rfl, rfl, session_none_iff.mpr fun _ => rfl⟩
  obtain ⟨s, hs, hblink, hstop, hclosed⟩ := hrun
  refine ⟨s, hs, Transition.Machine.reachable_of_run hs, hblink, hstop, ?_⟩
  intro hend
  rcases hend (by rw [hblink]; rfl) with harmed | hopen
  · rw [hstop] at harmed
    exact Bool.false_ne_true harmed
  · exact hclosed hopen

end Shirokumakun.Identify
