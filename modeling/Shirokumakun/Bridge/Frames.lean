/-
Frames in a row.

The cache compares states, and a frame does not say everything about a state: the mode of a
unit that is off is not in it.  So of two different states sent in a row the frames are the
same when both are off and differ in the mode alone.
-/
import Shirokumakun.Bridge.Callback
import Shirokumakun.Bridge.Setpoint
import Shirokumakun.Lib.Transition

namespace Shirokumakun

open Dedup Transition

/-- Both off, and different in the mode alone. -/
def HiddenChange (s t : AcState) : Prop :=
  s.power = false ∧ t.power = false ∧ s.tempC = t.tempC ∧ s.fan = t.fan ∧ s.mode ≠ t.mode

instance (s t : AcState) : Decidable (HiddenChange s t) :=
  inferInstanceAs (Decidable (_ ∧ _))

theorem acState_ext {s t : AcState} (hpower : s.power = t.power) (hmode : s.mode = t.mode)
    (htemp : s.tempC = t.tempC) (hfan : s.fan = t.fan) : s = t := by
  cases s
  cases t
  simp_all

/-- **When two different derived states share a frame.** -/
theorem framePulses_derive_eq_iff {store store' : AttributeStore}
    (hne : derive store ≠ derive store') :
    framePulses (derive store) = framePulses (derive store') ↔
      HiddenChange (derive store) (derive store') := by
  obtain ⟨s, hs⟩ := derive_wire store
  obtain ⟨t, ht⟩ := derive_wire store'
  rw [← hs, ← ht] at hne ⊢
  rw [framePulses_inj, normalise_eq_iff]
  constructor
  · rintro ⟨hpower, htemp, hfan, hmode⟩
    have hdiffer : s.mode ≠ t.mode := by
      intro heq
      exact hne (acState_ext hpower heq htemp hfan)
    by_cases hon : s.power = true
    · exact absurd (hmode hon) hdiffer
    · rw [Bool.not_eq_true] at hon
      exact ⟨hon, hpower.symm.trans hon, htemp, hfan, hdiffer⟩
  · rintro ⟨hoff, hoff', htemp, hfan, -⟩
    refine ⟨hoff.trans hoff'.symm, htemp, hfan, ?_⟩
    intro hon
    rw [hoff] at hon
    exact absurd hon Bool.false_ne_true

namespace Bridge

/-- Writes, each with its callback, from `zcl_callbacks_ready` on. -/
def writesMachine (store : AttributeStore) (statics : IrStatics) :
    Machine Bridge AttributeWrite where
  init := boot store statics
  step b w := some (b.write w)

/-- Neighbours differ among the frame of the snapshot and the frames dispatched after it. -/
def FramesDiffer (snapshot : AcState) (b : Bridge) : Prop :=
  (snapshot :: b.dispatched).IsChain fun s t => framePulses s ≠ framePulses t

/-- The callback does not derive a state that differs from `last_sent` in the mode alone
while both are off. -/
def ShowsChange (b : Bridge) (w : AttributeWrite) : Prop :=
  w.path.Watched → ¬ HiddenChange b.statics.lastSent (derive (b.store.after w))

/-- Booted, with `last_sent` a derived state and the last one dispatched. -/
structure Tracks (snapshot : AcState) (b : Bridge) : Prop where
  ready : b.Ready
  derived : ∃ store, b.statics.lastSent = derive store
  follows : b.cache.FollowsFrom snapshot

theorem write_tracks {snapshot : AcState} {b : Bridge} (h : b.Tracks snapshot)
    (w : AttributeWrite) : (b.write w).Tracks snapshot := by
  obtain ⟨hready, -, hcache⟩ := cache_write h.ready w
  have hheld : (b.write w).statics.lastSent = (b.write w).cache.held := rfl
  by_cases hw : w.path.Watched
  · rw [if_pos hw] at hcache
    refine ⟨hready, ⟨b.store.after w, ?_⟩, ?_⟩
    · rw [hheld, hcache, Cache.offer_held]
    · rw [hcache]
      exact Cache.followsFrom_offer h.follows _
  · rw [if_neg hw] at hcache
    refine ⟨hready, ?_, ?_⟩
    · rw [hheld, hcache]
      exact h.derived
    · rw [hcache]
      exact h.follows

/-- **One write** keeps neighbours different exactly when the change it makes shows. -/
theorem write_framesDiffer_iff {snapshot : AcState} {b : Bridge} (h : b.Tracks snapshot)
    (hdiffer : b.FramesDiffer snapshot) (w : AttributeWrite) :
    b.ShowsChange w ↔ (b.write w).FramesDiffer snapshot := by
  obtain ⟨-, -, hcache⟩ := cache_write h.ready w
  have hpassed : (b.write w).dispatched = (b.write w).cache.passed := rfl
  unfold FramesDiffer ShowsChange
  rw [hpassed, hcache]
  by_cases hw : w.path.Watched
  · rw [if_pos hw, Cache.isChain_offer_iff h.follows]
    obtain ⟨store, hlast⟩ := h.derived
    have hheld : b.cache.held = derive store := hlast
    rw [hheld, hlast]
    constructor
    · intro hshows
      refine ⟨hdiffer, ?_⟩
      intro hne heq
      exact hshows hw ((framePulses_derive_eq_iff hne.symm).mp heq)
    · rintro ⟨-, hframes⟩ _ hhidden
      have hne : derive store ≠ derive (b.store.after w) := by
        intro heq
        exact hhidden.2.2.2.2 (congrArg AcState.mode heq)
      exact hframes hne.symm ((framePulses_derive_eq_iff hne).mpr hhidden)
  · rw [if_neg hw]
    exact ⟨fun _ => hdiffer, fun _ hw' => absurd hw' hw⟩

/-- **No frame twice in a row exactly in the runs whose changes show.**  Along such a run
every frame dispatched differs from the one before it, and the first from the frame of the
snapshot; and a run of which that is true made no other change. -/
theorem frames_differ (store : AttributeStore) (statics : IrStatics) (ws : List AttributeWrite) :
    (∀ b, (writesMachine store statics).Reach ShowsChange b → b.FramesDiffer (derive store)) ∧
      ((writesMachine store statics).Always (FramesDiffer (derive store)) (boot store statics) ws ↔
        (writesMachine store statics).Obeys ShowsChange (boot store statics) ws) := by
  have hinit : (boot store statics).FramesDiffer (derive store) := List.isChain_singleton _
  have htracks : (boot store statics).Tracks (derive store) := by
    refine ⟨ready_boot store statics, ⟨store, ?_⟩, ?_⟩
    · exact congrArg IrStatics.lastSent (zclCallbacksReady_eq store statics)
    · exact congrArg (fun s : IrStatics => some s.lastSent)
        (zclCallbacksReady_eq store statics).symm
  refine Machine.exact_condition (K := Tracks (derive store)) ?_ ?_ htracks hinit ws
  · intro b w b' hK hP hs
    obtain rfl : b.write w = b' := Option.some.inj hs
    exact write_framesDiffer_iff hK hP w
  · intro b w b' hK _ _ hs
    obtain rfl : b.write w = b' := Option.some.inj hs
    exact write_tracks hK w

/-- A unit that is off is switched from Cool to Heat: the frame sent is the snapshot's. -/
theorem frame_repeated :
    let r : Readings := ⟨false, 3, 2400, 2400, 5⟩
    let b := (boot r.store ⟨derive r.store, false, false⟩).write ⟨systemModeAttr, .enum8 4⟩
    ∃ state, b.dispatched = [state] ∧ framePulses state = framePulses (derive r.store) ∧
      ¬ b.FramesDiffer (derive r.store) := by
  intro r b
  have hdispatched : b.dispatched = [derive b.store] := by decide
  have hsame : framePulses (derive r.store) = framePulses (derive b.store) := by
    rw [framePulses_derive_eq_iff (by decide)]
    decide
  refine ⟨derive b.store, hdispatched, hsame.symm, ?_⟩
  intro hdiffer
  unfold FramesDiffer at hdiffer
  rw [hdispatched, List.isChain_pair] at hdiffer
  exact hdiffer hsame

end Bridge

end Shirokumakun
