/-
Two users of one microphone.

The dispatch thread opens and closes listen windows, the shell switches verbose output on
and off, and both start and stop the same peripheral.  It should run exactly while a
window is open or verbose output is on.  The functions look at the other user's flags in
one place only, `pdm_manager_verbose_start`, and two calls get it wrong: closing a window
stops the stream of a verbose user, and stopping a verbose user that was there first stops
the microphone inside a window.  `Undisturbing` excludes just these two, and the invariant
holds throughout a run exactly when the run does (`owned_iff`).
-/
import Shirokumakun.Pdm.Model
import Shirokumakun.Lib.Transition

namespace Shirokumakun

open Transition

/-- The manager, and whether the dispatch thread is inside a listen window. -/
structure Microphone where
  pdm : PdmManager
  listening : Bool

/-- The four calls, each with the result of the driver call it makes. -/
inductive MicAct
  | startListen (err : Int)
  | collectAck (err : Int)
  | verboseStart (err : Int)
  | verboseStop (err : Int)

namespace Microphone

/-- Whole calls.  No driver call fails, and the dispatch thread opens and closes windows in
turns. -/
def step (s : Microphone) : MicAct → Option Microphone
  | .startListen err =>
      if 0 ≤ err ∧ s.listening = false then some ⟨s.pdm.startListen err, true⟩ else none
  | .collectAck err =>
      if 0 ≤ err ∧ s.listening = true then some ⟨(s.pdm.collectAck err).1, false⟩ else none
  | .verboseStart err => if 0 ≤ err then some ⟨s.pdm.verboseStart err, s.listening⟩ else none
  | .verboseStop err => if 0 ≤ err then some ⟨s.pdm.verboseStop err, s.listening⟩ else none

def start : Microphone := ⟨.initial, false⟩

def machine : Machine Microphone MicAct := ⟨start, step⟩

/-- The peripheral runs if and only if somebody uses it. -/
def Owned (s : Microphone) : Prop :=
  s.pdm.running = true ↔ s.pdm.captureActive = true ∨ s.pdm.verbose = true

/-- A window is closed only with verbose output off, and verbose output is stopped only
outside a window or by a user that piggybacks on it. -/
def Undisturbing (s : Microphone) : MicAct → Prop
  | .collectAck _ => s.pdm.verbose = false
  | .verboseStop _ => ¬ (s.pdm.verboseOwn = true ∧ s.pdm.captureActive = true)
  | _ => True

/-! ### The four calls, flag by flag -/

section Calls

variable (m : PdmManager) {err : Int}

theorem startListen_flags (herr : 0 ≤ err) :
    (m.startListen err).captureActive = true ∧ (m.startListen err).verbose = m.verbose ∧
      (m.startListen err).verboseOwn = m.verboseOwn ∧ (m.startListen err).running = true := by
  have hok : ¬ err < 0 := Int.not_lt.mpr herr
  have hrun : m.startListen err =
      { (m.resetAck.clearAvailable).setActive with running := true } := by
    simp only [PdmManager.startListen, PdmManager.startCapture, PdmManager.nrfxPdmStart, if_neg hok]
  rw [hrun]
  exact ⟨rfl, rfl, rfl, rfl⟩

theorem takeAck_flags :
    m.takeAck.1.captureActive = m.captureActive ∧ m.takeAck.1.verbose = m.verbose ∧
      m.takeAck.1.verboseOwn = m.verboseOwn ∧ m.takeAck.1.running = m.running := by
  obtain ⟨ackSem, htake⟩ := m.takeAck_writes
  rw [htake]
  exact ⟨rfl, rfl, rfl, rfl⟩

theorem collectAck_flags (herr : 0 ≤ err) :
    (m.collectAck err).1.captureActive = false ∧ (m.collectAck err).1.verbose = m.verbose ∧
      (m.collectAck err).1.verboseOwn = m.verboseOwn ∧ (m.collectAck err).1.running = false := by
  have hok : ¬ err < 0 := Int.not_lt.mpr herr
  obtain ⟨-, hverbose, hown, -⟩ := takeAck_flags m
  have hrun : (m.collectAck err).1 = { m.takeAck.1.clearActive with running := false } := by
    simp only [PdmManager.collectAck, PdmManager.nrfxPdmStop, if_neg hok]
  rw [hrun]
  exact ⟨rfl, hverbose, hown, rfl⟩

/-- With a window open the peripheral already runs, and nobody new owns it. -/
theorem verboseStart_flags (herr : 0 ≤ err) :
    (m.verboseStart err).captureActive = m.captureActive ∧ (m.verboseStart err).verbose = true ∧
      (m.verboseStart err).verboseOwn = (m.verboseOwn || !m.captureActive) ∧
      (m.verboseStart err).running = (m.running || !m.captureActive) := by
  have hok : ¬ err < 0 := Int.not_lt.mpr herr
  by_cases hactive : m.captureActive = true
  · simp [PdmManager.verboseStart, hactive]
  · simp [PdmManager.verboseStart, PdmManager.nrfxPdmStart, hactive, hok]

theorem verboseStop_flags (herr : 0 ≤ err) :
    (m.verboseStop err).captureActive = m.captureActive ∧ (m.verboseStop err).verbose = false ∧
      (m.verboseStop err).verboseOwn = false ∧
      (m.verboseStop err).running = (m.running && !m.verboseOwn) := by
  have hok : ¬ err < 0 := Int.not_lt.mpr herr
  by_cases hown : m.verboseOwn = true
  · simp [PdmManager.verboseStop, PdmManager.nrfxPdmStop, hown, hok]
  · simp [PdmManager.verboseStop, hown]

end Calls

/-! ### Who owns the peripheral -/

/-- What goes with `Owned`: a window is open exactly when it is flagged, an owner is verbose,
and verbose output outside a window owns the peripheral. -/
structure Consistent (s : Microphone) : Prop where
  window : s.pdm.captureActive = s.listening
  own : s.pdm.verboseOwn = true → s.pdm.verbose = true
  stream : s.pdm.verbose = true → s.pdm.captureActive = false → s.pdm.verboseOwn = true

theorem consistent_start : Consistent start :=
  ⟨rfl, by simp [start, PdmManager.initial], by simp [start, PdmManager.initial]⟩

/-- What is shown of each call: it keeps the peripheral where it belongs exactly when it
disturbs nobody, and then the flags stay consistent. -/
def Keeps (undisturbing : Prop) (s' : Microphone) : Prop :=
  (undisturbing ↔ Owned s') ∧ (undisturbing → Consistent s')

section Keeps

variable {s : Microphone} {err : Int}

theorem keeps_startListen (hcons : Consistent s) (herr : 0 ≤ err) :
    Keeps True ⟨s.pdm.startListen err, true⟩ := by
  obtain ⟨hactive', hverbose', hown', hrunning'⟩ := startListen_flags s.pdm herr
  refine ⟨iff_of_true trivial ?_, fun _ => ⟨hactive', ?_, ?_⟩⟩
  · exact iff_of_true hrunning' (Or.inl hactive')
  · show (s.pdm.startListen err).verboseOwn = true → (s.pdm.startListen err).verbose = true
    rw [hown', hverbose']
    exact hcons.own
  · intro _ hclosed
    rw [show (s.pdm.startListen err).captureActive = false from hclosed] at hactive'
    cases hactive'

theorem keeps_collectAck (hcons : Consistent s) (herr : 0 ≤ err) :
    Keeps (s.pdm.verbose = false) ⟨(s.pdm.collectAck err).1, false⟩ := by
  obtain ⟨hactive', hverbose', hown', hrunning'⟩ := collectAck_flags s.pdm herr
  refine ⟨?_, fun hoff => ⟨hactive', ?_, ?_⟩⟩
  · -- The peripheral has been stopped, so nobody may be left.
    unfold Owned
    simp [hactive', hverbose', hrunning']
  · show (s.pdm.collectAck err).1.verboseOwn = true → (s.pdm.collectAck err).1.verbose = true
    rw [hown', hverbose']
    exact hcons.own
  · intro hstreaming
    rw [show (s.pdm.collectAck err).1.verbose = true from hstreaming, hoff] at hverbose'
    cases hverbose'

theorem keeps_verboseStart (hcons : Consistent s) (h : Owned s) (herr : 0 ≤ err) :
    Keeps True ⟨s.pdm.verboseStart err, s.listening⟩ := by
  obtain ⟨hactive', hverbose', hown', hrunning'⟩ := verboseStart_flags s.pdm herr
  refine ⟨iff_of_true trivial ?_, fun _ => ⟨hactive'.trans hcons.window, fun _ => hverbose', ?_⟩⟩
  · have hrunning : (s.pdm.verboseStart err).running = true := by
      rw [hrunning']
      by_cases hactive : s.pdm.captureActive = true
      · rw [h.mpr (Or.inl hactive), Bool.true_or]
      · rw [Bool.eq_false_iff.mpr hactive, Bool.not_false, Bool.or_true]
    exact iff_of_true hrunning (Or.inr hverbose')
  · intro _ hclosed
    have hclosed' : s.pdm.captureActive = false := hactive'.symm.trans hclosed
    show (s.pdm.verboseStart err).verboseOwn = true
    rw [hown', hclosed']
    simp

theorem keeps_verboseStop (hcons : Consistent s) (h : Owned s) (herr : 0 ≤ err) :
    Keeps (¬ (s.pdm.verboseOwn = true ∧ s.pdm.captureActive = true))
      ⟨s.pdm.verboseStop err, s.listening⟩ := by
  obtain ⟨hactive', hverbose', hown', hrunning'⟩ := verboseStop_flags s.pdm herr
  refine ⟨?_, fun _ => ⟨hactive'.trans hcons.window, ?_, ?_⟩⟩
  · unfold Owned at h ⊢
    simp only [hactive', hverbose', hrunning']
    by_cases hactive : s.pdm.captureActive = true
    · have hrunning : s.pdm.running = true := h.mpr (Or.inl hactive)
      simp [hactive, hrunning]
    · -- Outside a window only an owner keeps the peripheral running, and it stops it.
      have hidle : s.pdm.running = true → s.pdm.verboseOwn = true := by
        intro hrunning
        rcases h.mp hrunning with hopen | hverbose
        · exact absurd hopen hactive
        · exact hcons.stream hverbose (Bool.eq_false_iff.mpr hactive)
      simpa [hactive] using hidle
  · intro hyes
    rw [show (s.pdm.verboseStop err).verboseOwn = true from hyes] at hown'
    cases hown'
  · intro hyes
    rw [show (s.pdm.verboseStop err).verbose = true from hyes] at hverbose'
    cases hverbose'

end Keeps

/-- **One call**, whichever it is. -/
theorem owned_step {s s' : Microphone} {a : MicAct} (hcons : Consistent s) (h : Owned s)
    (hs : s.step a = some s') : Keeps (Undisturbing s a) s' := by
  cases a with
  | startListen err =>
      obtain ⟨hguard, heq⟩ := Option.ite_none_right_eq_some.mp hs
      cases heq
      exact keeps_startListen hcons hguard.1
  | collectAck err =>
      obtain ⟨hguard, heq⟩ := Option.ite_none_right_eq_some.mp hs
      cases heq
      exact keeps_collectAck hcons hguard.1
  | verboseStart err =>
      obtain ⟨herr, heq⟩ := Option.ite_none_right_eq_some.mp hs
      cases heq
      exact keeps_verboseStart hcons h herr
  | verboseStop err =>
      obtain ⟨herr, heq⟩ := Option.ite_none_right_eq_some.mp hs
      cases heq
      exact keeps_verboseStop hcons h herr

/-- **The peripheral runs exactly while somebody uses it**, in every state of a run, if and
only if no window is closed under a verbose stream and no owner of the peripheral stops
verbose output inside a window. -/
theorem owned_iff (acts : List MicAct) :
    machine.Always Owned start acts ↔ machine.Obeys Undisturbing start acts :=
  Machine.always_iff_obeys (K := Consistent)
    (fun s a _ hK hP hs => (owned_step (s := s) (a := a) hK hP hs).1)
    (fun s a _ hK hP hC hs => (owned_step (s := s) (a := a) hK hP hs).2 hC)
    acts start consistent_start (by simp [Owned, start, PdmManager.initial])

/-- Verbose output is on, a window is opened and closed: the stream is dead. -/
theorem window_kills_stream : ∃ s, machine.run start
    [.verboseStart 0, .startListen 0, .collectAck 0] = some s ∧
    s.pdm.verbose = true ∧ s.pdm.running = false ∧ ¬ Owned s :=
  ⟨_, rfl, rfl, rfl, fun howned => absurd (howned.mpr (Or.inr rfl)) (by decide)⟩

/-- Verbose output is on, a window is opened, verbose output goes off: the window is deaf. -/
example : ∃ s, machine.run start [.verboseStart 0, .startListen 0, .verboseStop 0] = some s ∧
    s.pdm.captureActive = true ∧ s.pdm.running = false :=
  ⟨_, rfl, rfl, rfl⟩

end Microphone

end Shirokumakun
