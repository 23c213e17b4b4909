/-
What the shell's `ac off` does to the cache.

`last_sent` is there so that the same frame is not transmitted twice, and skipping is
right as long as `last_sent` is what was last ordered over IR.  `ac off` orders a frame
and leaves `last_sent` alone.  So the cache stays right exactly when every `ac off` falls
where it does no harm: the state remembered, or about to be remembered, already shows on
the wire as switched off at 24 °C with the fan on auto (`ShowsOff`), or
`send_ir_if_changed` has decided to send and is about to overrule it.
-/
import Shirokumakun.Bridge.Machine

namespace Shirokumakun

open Transition

/-- The state has the frame of `ac off`. -/
def ShowsOff (state : AcState) : Prop :=
  state.power = false ∧ state.tempC = 24 ∧ state.fan = fanSpeedAuto

instance (state : AcState) : Decidable (ShowsOff state) := inferInstanceAs (Decidable (_ ∧ _))

theorem showsOff_iff (s : WireState) :
    framePulses acOff = framePulses s.toAcState ↔ ShowsOff s.toAcState := by
  have hoff : framePulses acOff = framePulses s.toAcState ↔
      false = s.power ∧ 24 = s.tempC ∧ fanSpeedAuto = s.fan ∧ (false = true → _) :=
    (framePulses_inj ⟨acOff, by decide, by decide, by decide⟩ s).trans (normalise_eq_iff _ _)
  rw [hoff]
  constructor
  · rintro ⟨hpower, htemp, hfan, -⟩
    exact ⟨hpower.symm, htemp.symm, hfan.symm⟩
  · rintro ⟨hpower, htemp, hfan⟩
    exact ⟨hpower.symm, htemp.symm, hfan.symm, fun h => absurd h (by simp)⟩

namespace Threads

/-- `state` is what was last passed to `ir_dispatch_command`, if anything was. -/
def Ordered (frames : List IrFrame) (state : AcState) : Prop :=
  ∀ f, frames.getLast? = some f → f.pulses = framePulses state

theorem ordered_append (frames : List IrFrame) (new state : AcState) :
    Ordered (frames ++ [.ofState new]) state ↔ framePulses new = framePulses state := by
  unfold Ordered
  rw [List.getLast?_append]
  constructor
  · intro h
    exact h (.ofState new) rfl
  · intro h f hf
    obtain rfl : IrFrame.ofState new = f := Option.some.inj hf
    exact h

/-- The cache agrees with what was last ordered: what is remembered, or was dispatched and
is about to be remembered, is what was ordered last.  Between the decision to send and the
dispatch nothing is asked, since the dispatch settles it. -/
def Synced (s : Threads) : Prop :=
  match s.matter with
  | .sending _ => True
  | .sent state => Ordered s.frames state
  | _ => Ordered s.frames s.lastSent

/-- Every `ac off` falls where the cache already shows the frame it orders, or a command is
about to follow. -/
def OffHarmless (s : Threads) (a : ThreadAct) : Prop :=
  a = .acOff → match s.matter with
    | .sending _ => True
    | .sent state => ShowsOff state
    | _ => ShowsOff s.lastSent

/-- Once `zcl_callbacks_ready` has returned: the statics are set, and every state in them or
on its way is a derived one. -/
structure Settled (s : Threads) : Prop where
  todo : s.todo = []
  valid : s.frame.statics.lastSentValid = true
  lastSent : ∃ store, s.lastSent = derive store
  derived : ∀ state, s.matter = .derived state → state = derive s.store
  sending : ∀ state, s.matter = .sending state → state = derive s.store
  sent : ∀ state, s.matter = .sent state → state = derive s.store

theorem settled_running (store : AttributeStore) : Settled (running store) :=
  ⟨rfl, rfl, ⟨store, rfl⟩, fun _ h => by simp [running] at h, fun _ h => by simp [running] at h,
    fun _ h => by simp [running] at h⟩

theorem synced_running (store : AttributeStore) : Synced (running store) := by
  intro f hf
  cases hf

theorem settled_step {s s' : Threads} {a : ThreadAct} (h : Settled s) (hs : Step s a s') :
    Settled s' := by
  obtain ⟨htodo, hvalid, hlast, hderived, hsending, hsent⟩ := h
  cases hs with
  | write _ => exact ⟨htodo, hvalid, hlast, by simp, by simp, by simp⟩
  | enter _ _ _ =>
      refine ⟨htodo, hvalid, hlast, ?_, by simp, by simp⟩
      intro state hstate
      simpa using hstate.symm
  | drop _ _ => exact ⟨htodo, hvalid, hlast, by simp, by simp, by simp⟩
  | skip _ _ => exact ⟨htodo, hvalid, hlast, by simp, by simp, by simp⟩
  | @differ state hm _ =>
      refine ⟨htodo, hvalid, hlast, by simp, ?_, by simp⟩
      intro state' hstate
      obtain rfl : state = state' := by simpa using hstate
      exact hderived state hm
  | @dispatch state hm =>
      refine ⟨htodo, hvalid, hlast, by simp, by simp, ?_⟩
      intro state' hstate
      obtain rfl : state = state' := by simpa using hstate
      exact hsending state hm
  | @remember state hm =>
      exact ⟨htodo, rfl, ⟨s.store, hsent state hm⟩, by simp, by simp, by simp⟩
  | acOff => exact ⟨htodo, hvalid, hlast, hderived, hsending, hsent⟩
  | ready htodo' =>
      rw [htodo] at htodo'
      cases htodo'

/-- **One step** keeps the cache right exactly when it is not a harmful `ac off`. -/
theorem synced_step {s s' : Threads} {a : ThreadAct} (hsettled : Settled s) (h : Synced s)
    (hs : Step s a s') : OffHarmless s a ↔ Synced s' := by
  have hshows : ∀ state, (∃ store, state = derive store) → ∀ frames : List IrFrame,
      ShowsOff state ↔ Ordered (frames ++ [.ofState acOff]) state := by
    rintro state ⟨store, rfl⟩ frames
    obtain ⟨wire, hwire⟩ := derive_wire store
    rw [ordered_append, ← hwire]
    exact (showsOff_iff wire).symm
  cases hs with
  | write hm =>
      unfold Synced at h
      rw [hm] at h
      exact ⟨fun _ => h, fun _ ha => by cases ha⟩
  | enter hm _ _ =>
      unfold Synced at h
      rw [hm] at h
      exact ⟨fun _ => h, fun _ ha => by cases ha⟩
  | drop hm _ =>
      unfold Synced at h
      rw [hm] at h
      exact ⟨fun _ => h, fun _ ha => by cases ha⟩
  | skip hm _ =>
      unfold Synced at h
      rw [hm] at h
      exact ⟨fun _ => h, fun _ ha => by cases ha⟩
  | differ hm _ => exact ⟨fun _ => trivial, fun _ ha => by cases ha⟩
  | @dispatch state hm =>
      exact ⟨fun _ => (ordered_append _ _ _).mpr rfl, fun _ ha => by cases ha⟩
  | remember hm =>
      unfold Synced at h
      rw [hm] at h
      exact ⟨fun _ => h, fun _ ha => by cases ha⟩
  | acOff =>
      -- The frame ordered last is now that of `ac off`.
      unfold OffHarmless Synced
      cases hm : s.matter with
      | sending state => exact imp_iff_right rfl
      | sent state =>
          exact (imp_iff_right rfl).trans (hshows state ⟨s.store, hsettled.sent state hm⟩ s.frames)
      | idle => exact (imp_iff_right rfl).trans (hshows s.lastSent hsettled.lastSent s.frames)
      | written path =>
          exact (imp_iff_right rfl).trans (hshows s.lastSent hsettled.lastSent s.frames)
      | derived state =>
          exact (imp_iff_right rfl).trans (hshows s.lastSent hsettled.lastSent s.frames)
  | ready htodo =>
      rw [hsettled.todo] at htodo
      cases htodo

theorem synced_of_reach {store : AttributeStore} {s : Threads}
    (h : (machine (running store)).Reach OffHarmless s) : Settled s ∧ Synced s :=
  h.of_exact (K := Settled)
    (fun t a _ hK hP hs => synced_step (s := t) (a := a) hK hP (step_cases hs))
    (fun t a _ hK _ _ hs => settled_step (s := t) (a := a) hK (step_cases hs))
    (settled_running store) (synced_running store)

/-- **The cache is right exactly as long as every `ac off` is harmless**, and while it is, a
transmission is skipped only if what was last ordered is the frame of the current state. -/
theorem off_keeps_cache (store : AttributeStore) :
    (∀ acts : List ThreadAct,
      (machine (running store)).Always Synced (running store) acts ↔
        (machine (running store)).Obeys OffHarmless (running store) acts) ∧
    (∀ s state, (machine (running store)).Reach OffHarmless s → s.matter = .derived state →
      s.frame.statics.unchanged state →
        ∀ f, s.frames.getLast? = some f → f.pulses = framePulses (derive s.store)) := by
  refine ⟨?_, ?_⟩
  · intro acts
    refine Machine.always_iff_obeys (K := Settled) (fun t a _ hK hP hs => ?_)
      (fun t a _ hK _ _ hs => ?_) acts _ (settled_running store) (synced_running store)
    · exact synced_step (s := t) (a := a) hK hP (step_cases hs)
    · exact settled_step (s := t) (a := a) hK (step_cases hs)
  · intro s state h hm hsame f hf
    obtain ⟨hsettled, hsynced⟩ := synced_of_reach h
    unfold Synced at hsynced
    rw [hm] at hsynced
    have hlast : state = s.lastSent := (unchanged_iff hsettled.valid state).mp hsame
    rw [← hsettled.derived state hm, hlast]
    exact hsynced f hf

/-- `ac off` on a running unit, then the client switches it on: the command is skipped, and
the last frame ordered switches the unit off. -/
theorem off_then_skip : ∃ s : Threads,
    (machine (running coolingStore)).run (running coolingStore)
      [.acOff, .write ⟨onOffAttr, .boolean true⟩, .callback] = some s ∧
    s.matter = .derived (derive s.store) ∧ s.frame.statics.unchanged (derive s.store) ∧
    ∃ f, s.frames.getLast? = some f ∧ f.pulses ≠ framePulses (derive s.store) := by
  have hpulses : framePulses acOff ≠ framePulses ⟨true, acModeCooling, 24, fanSpeedAuto⟩ := by
    intro heq
    have hoff := (showsOff_iff ⟨⟨true, acModeCooling, 24, fanSpeedAuto⟩, by decide, by decide,
      by decide⟩).mp heq
    exact absurd hoff (by decide)
  exact ⟨_, rfl, rfl, by decide, _, rfl, hpulses⟩

end Threads

end Shirokumakun
