/-
The bridge with its threads taken apart.

Three threads touch the statics of `zcl_callbacks.cpp` or the command queue behind them:
the Matter thread, which writes an attribute and then runs the callback for it; the main
thread, which executes `zcl_callbacks_ready` statement by statement and takes no stack
lock; and the shell, whose `ac off` dispatches a command of its own.  A callback is cut
where another thread can see the difference: before it reads `ir_ready`, before it
compares with `last_sent`, before it dispatches, and before it remembers the state.  Only
the Matter thread writes attributes, so its five reads are one step.

`snapshot`, `passed` and `early` are not in the code: what `zcl_callbacks_ready` last left
in `last_sent`, how many callbacks went past the gate, and whether an attribute was written
before the gate opened.
-/
import Shirokumakun.Bridge.Callback
import Shirokumakun.Lib.Transition
import Shirokumakun.Mailbox.Model

namespace Shirokumakun

open Transition

/-- Where the Matter thread is. -/
inductive MatterPc
  | idle
  /-- the attribute is written, its callback has not read `ir_ready` yet -/
  | written (path : AttributePath)
  /-- before the skip test -/
  | derived (state : AcState)
  /-- before `ir_dispatch_command` -/
  | sending (state : AcState)
  /-- before `last_sent = state` -/
  | sent (state : AcState)

structure Threads where
  store : AttributeStore
  frame : ReadyFrame
  todo : List ReadyStmt
  matter : MatterPc
  /-- what was passed to `ir_dispatch_command`, by either path -/
  frames : List IrFrame
  snapshot : AcState
  passed : Nat
  early : Bool

inductive ThreadAct
  | write (w : AttributeWrite)
  | callback
  | compare
  | dispatch
  | remember
  | acOff
  | ready

namespace Threads

def lastSent (s : Threads) : AcState := s.frame.statics.lastSent

def irReady (s : Threads) : Bool := s.frame.statics.irReady

def step (s : Threads) : ThreadAct → Option Threads
  | .write w =>
      match s.matter with
      | .idle => some { s with
          store := s.store.after w
          matter := .written w.path
          early := s.early || !s.irReady }
      | _ => none
  | .callback =>
      match s.matter with
      | .written path =>
          if path.Watched ∧ s.irReady = true then
            some { s with matter := .derived (derive s.store), passed := s.passed + 1 }
          else some { s with matter := .idle }
      | _ => none
  | .compare =>
      match s.matter with
      | .derived state =>
          if s.frame.statics.unchanged state then some { s with matter := .idle }
          else some { s with matter := .sending state }
      | _ => none
  | .dispatch =>
      match s.matter with
      | .sending state => some { s with
          matter := .sent state
          frames := s.frames ++ [.ofState state] }
      | _ => none
  | .remember =>
      match s.matter with
      | .sent state => some { s with
          matter := .idle
          frame := { s.frame with
            statics := { s.frame.statics with lastSent := state, lastSentValid := true } } }
      | _ => none
  | .acOff => some { s with frames := s.frames ++ [.ofState acOff] }
  | .ready =>
      match s.todo with
      | stmt :: rest =>
          let frame := stmt.exec s.store s.frame
          some { s with frame := frame, todo := rest, snapshot := frame.statics.lastSent }
      | [] => none

/-- Static storage is zero. -/
def zeroStatics : IrStatics := ⟨⟨false, 0, 0, 0⟩, false, false⟩

/-- When `StartServer()` returns: `zcl_callbacks_ready` is still to come. -/
def booting (store : AttributeStore) : Threads where
  store := store
  frame := ⟨.initial, zeroStatics⟩
  todo := readyBody
  matter := .idle
  frames := []
  snapshot := zeroStatics.lastSent
  passed := 0
  early := false

/-- When `zcl_callbacks_ready` has returned, undisturbed. -/
def running (store : AttributeStore) : Threads where
  store := store
  frame := execAll store ⟨.initial, zeroStatics⟩ readyBody
  todo := []
  matter := .idle
  frames := []
  snapshot := derive store
  passed := 0
  early := false

def machine (init : Threads) : Machine Threads ThreadAct := ⟨init, step⟩

/-! ### What a step can do -/

inductive Step (s : Threads) : ThreadAct → Threads → Prop
  | write {w : AttributeWrite} (h : s.matter = .idle) :
      Step s (.write w) { s with
        store := s.store.after w
        matter := .written w.path
        early := s.early || !s.irReady }
  | enter {path : AttributePath} (h : s.matter = .written path) (hwatched : path.Watched)
      (hready : s.irReady = true) :
      Step s .callback { s with matter := .derived (derive s.store), passed := s.passed + 1 }
  | drop {path : AttributePath} (h : s.matter = .written path)
      (hdrop : path.Watched → s.irReady = false) :
      Step s .callback { s with matter := .idle }
  | skip {state : AcState} (h : s.matter = .derived state)
      (hsame : s.frame.statics.unchanged state) : Step s .compare { s with matter := .idle }
  | differ {state : AcState} (h : s.matter = .derived state)
      (hdiffer : ¬ s.frame.statics.unchanged state) :
      Step s .compare { s with matter := .sending state }
  | dispatch {state : AcState} (h : s.matter = .sending state) :
      Step s .dispatch { s with matter := .sent state, frames := s.frames ++ [.ofState state] }
  | remember {state : AcState} (h : s.matter = .sent state) :
      Step s .remember { s with
        matter := .idle
        frame := { s.frame with
          statics := { s.frame.statics with lastSent := state, lastSentValid := true } } }
  | acOff : Step s .acOff { s with frames := s.frames ++ [.ofState acOff] }
  | ready {stmt : ReadyStmt} {rest : List ReadyStmt} (h : s.todo = stmt :: rest) :
      Step s .ready { s with
        frame := stmt.exec s.store s.frame
        todo := rest
        snapshot := (stmt.exec s.store s.frame).statics.lastSent }

theorem step_cases {s s' : Threads} {a : ThreadAct} (hs : s.step a = some s') : Step s a s' := by
  cases a with
  | write w =>
      simp only [step] at hs
      split at hs
      · rename_i h; cases hs; exact .write h
      · cases hs
  | callback =>
      simp only [step] at hs
      split at hs
      · rename_i path h
        by_cases hgate : path.Watched ∧ s.irReady = true
        · rw [if_pos hgate] at hs; cases hs; exact .enter h hgate.1 hgate.2
        · rw [if_neg hgate] at hs
          cases hs
          refine .drop h fun hwatched => ?_
          exact Bool.eq_false_iff.mpr fun hready => hgate ⟨hwatched, hready⟩
      · cases hs
  | compare =>
      simp only [step] at hs
      split at hs
      · rename_i state h
        split at hs
        · rename_i hsame; cases hs; exact .skip h hsame
        · rename_i hdiffer; cases hs; exact .differ h hdiffer
      · cases hs
  | dispatch =>
      simp only [step] at hs
      split at hs
      · rename_i state h; cases hs; exact .dispatch h
      · cases hs
  | remember =>
      simp only [step] at hs
      split at hs
      · rename_i state h; cases hs; exact .remember h
      · cases hs
  | acOff =>
      simp only [step] at hs
      cases hs
      exact .acOff
  | ready =>
      simp only [step] at hs
      split at hs
      · rename_i stmt rest h; cases hs; exact .ready h
      · cases hs

/-! ### Undisturbed, the threads compute the functions -/

/-- `zcl_callbacks_ready` from any of its statements on, with nothing in between. -/
theorem run_ready (i : Threads) (todo : List ReadyStmt) : ∀ {s : Threads}, s.todo = todo →
    ∃ last, (machine i).run s (List.replicate todo.length .ready)
      = some { s with frame := execAll s.store s.frame todo, todo := [], snapshot := last } := by
  induction todo with
  | nil =>
      intro s htodo
      refine ⟨s.snapshot, ?_⟩
      show some s = some { s with todo := [] }
      rw [← htodo]
  | cons stmt rest ih =>
      intro s htodo
      let next : Threads := { s with
        frame := stmt.exec s.store s.frame
        todo := rest
        snapshot := (stmt.exec s.store s.frame).statics.lastSent }
      have hstep : (machine i).step s .ready = some next := by
        show s.step .ready = _
        simp only [step, htodo]
        rfl
      obtain ⟨last, hrun⟩ := ih (s := next) rfl
      refine ⟨last, ?_⟩
      rw [List.length_cons, List.replicate_succ, Machine.run_cons_of_step _ hstep]
      exact hrun

/-- Between two callbacks, the threads show the bridge of `Bridge/Callback.lean`. -/
structure Shows (s : Threads) (b : Bridge) : Prop where
  matter : s.matter = .idle
  store : s.store = b.store
  statics : s.frame.statics = b.statics
  frames : s.frames = b.dispatched.map .ofState

section Callback

variable {s : Threads} {b : Bridge} {w : AttributeWrite}

/-- A write, and the callback up to its reading of `ir_ready`. -/
theorem run_enter (i : Threads) (h : Shows s b)
    (hgate : w.path.Watched ∧ b.statics.irReady = true) (acts : List ThreadAct) :
    (machine i).run s (.write w :: .callback :: acts) = (machine i).run { s with
      store := b.store.after w
      matter := .derived (derive (b.store.after w))
      passed := s.passed + 1
      early := s.early || !s.irReady } acts := by
  have hready : s.irReady = true := (congrArg IrStatics.irReady h.statics).trans hgate.2
  simp only [Machine.run_cons, machine, step, h.matter, Option.bind_some]
  rw [if_pos ⟨hgate.1, hready⟩, ← h.store]
  rfl

/-- Stopped at the gate, the callback does nothing. -/
theorem run_dropped (i : Threads) (h : Shows s b)
    (hgate : ¬ (w.path.Watched ∧ b.statics.irReady = true)) :
    ∃ s', (machine i).run s [.write w, .callback] = some s' ∧ Shows s' (b.write w) := by
  have hready : s.irReady = b.statics.irReady := congrArg IrStatics.irReady h.statics
  have hnothing : b.write w = { b with store := b.store.after w } := by
    unfold Bridge.write
    by_cases hw : w.path.Watched
    · rw [callback_of_watched _ hw]
      exact if_pos (Bool.eq_false_iff.mpr fun hr => hgate ⟨hw, hr⟩)
    · exact callback_of_not_watched _ hw
  let written : Threads := { s with
    store := s.store.after w
    matter := .written w.path
    early := s.early || !s.irReady }
  refine ⟨{ written with matter := .idle }, ?_, ?_⟩
  · have hclosed : ¬ (w.path.Watched ∧ written.irReady = true) := by
      show ¬ (w.path.Watched ∧ s.irReady = true)
      rwa [hready]
    have hdrop : written.step .callback = some { written with matter := .idle } := if_neg hclosed
    simp only [Machine.run_cons, Machine.run_nil, machine, step, h.matter, Option.bind_some]
    exact congrArg (Option.bind · some) hdrop
  · rw [hnothing]
    exact ⟨rfl, by rw [← h.store], h.statics, h.frames⟩

/-- Past the gate with nothing new, the callback skips. -/
theorem run_skipped (i : Threads) (h : Shows s b)
    (hgate : w.path.Watched ∧ b.statics.irReady = true)
    (hsame : b.statics.unchanged (derive (b.store.after w))) :
    ∃ s', (machine i).run s [.write w, .callback, .compare] = some s' ∧
      Shows s' (b.write w) := by
  have hskip : b.write w = { b with store := b.store.after w } := by
    unfold Bridge.write
    rw [callback_of_watched _ hgate.1, sendIrIfChanged, if_neg (by simp [hgate.2])]
    exact if_pos hsame
  rw [run_enter i h hgate, hskip]
  rw [← h.statics] at hsame
  refine ⟨{ s with
    store := b.store.after w
    matter := .idle
    passed := s.passed + 1
    early := s.early || !s.irReady }, ?_, ⟨rfl, rfl, h.statics, h.frames⟩⟩
  simp only [Machine.run_cons, Machine.run_nil, machine, step]
  rw [if_pos hsame]
  rfl

/-- Past the gate with a new state, the callback dispatches and remembers it. -/
theorem run_sent (i : Threads) (h : Shows s b)
    (hgate : w.path.Watched ∧ b.statics.irReady = true)
    (hdiffer : ¬ b.statics.unchanged (derive (b.store.after w))) :
    ∃ s', (machine i).run s [.write w, .callback, .compare, .dispatch, .remember] = some s' ∧
      Shows s' (b.write w) := by
  let state := derive (b.store.after w)
  have hsend : b.write w = { b with
      store := b.store.after w
      dispatched := b.dispatched ++ [state]
      statics := { b.statics with lastSent := state, lastSentValid := true } } := by
    unfold Bridge.write
    rw [callback_of_watched _ hgate.1, sendIrIfChanged, if_neg (by simp [hgate.2])]
    exact if_neg hdiffer
  rw [run_enter i h hgate, hsend]
  rw [← h.statics] at hdiffer
  refine ⟨{ s with
    store := b.store.after w
    frame := { s.frame with
      statics := { s.frame.statics with lastSent := state, lastSentValid := true } }
    matter := .idle
    frames := s.frames ++ [.ofState state]
    passed := s.passed + 1
    early := s.early || !s.irReady }, ?_, ⟨rfl, rfl, ?_, ?_⟩⟩
  · simp only [Machine.run_cons, Machine.run_nil, machine, step]
    rw [if_neg hdiffer]
    rfl
  · rw [← h.statics]
  · rw [h.frames, List.map_append]
    rfl

end Callback

/-- **A write and its callback** with nothing in between are `Bridge.write`. -/
theorem run_write (i : Threads) {s : Threads} {b : Bridge} (h : Shows s b) (w : AttributeWrite) :
    ∃ acts s', (machine i).run s (.write w :: .callback :: acts) = some s' ∧
      Shows s' (b.write w) := by
  by_cases hgate : w.path.Watched ∧ b.statics.irReady = true
  · by_cases hsame : b.statics.unchanged (derive (b.store.after w))
    · obtain ⟨s', hrun, hshows⟩ := run_skipped i h hgate hsame
      exact ⟨[.compare], s', hrun, hshows⟩
    · obtain ⟨s', hrun, hshows⟩ := run_sent i h hgate hsame
      exact ⟨[.compare, .dispatch, .remember], s', hrun, hshows⟩
  · obtain ⟨s', hrun, hshows⟩ := run_dropped i h hgate
    exact ⟨[], s', hrun, hshows⟩

end Threads

/-- A unit that cools at 24 °C, fan on auto. -/
def coolingStore : AttributeStore := fun path =>
  if path = onOffAttr then some (.boolean true)
  else if path = systemModeAttr then some (.enum8 3)
  else if path = occupiedCoolingSetpointAttr then some (.int16s 2400)
  else if path = fanModeAttr then some (.enum8 5)
  else none

end Shirokumakun
