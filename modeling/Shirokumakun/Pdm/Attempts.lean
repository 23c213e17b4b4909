/-
`ir_send_command` and everything that runs beside it.

The dispatch thread transmits, opens a listen window, waits for the semaphore, closes the
window, and tries again.  Meanwhile the PDM interrupt fires between any two statements,
the work handler picks released buffers up and signals, and the shell switches verbose
output.  The handler runs in a cooperative work queue: it may start arbitrarily late, and
once it runs the dispatch thread stands still until it is done, while interrupts and the
shell go on.  What the transform makes of a buffer is left open: `workCompute` decides
whether the cell under test is above the threshold.

The rest of the state is bookkeeping that no step looks at.  `epoch` counts how often
`pdm_manager_start_listen` executed `buf_available = false`, `released` notes for each
buffer the epoch of its last release, `heard` lists the handler's verdicts since that
statement was last executed, and `log` and `returned` record the calls.
-/
import Shirokumakun.IrProtocol
import Shirokumakun.Lib.Transition
import Shirokumakun.Pdm.Model
import Mathlib.Logic.Function.Basic

namespace Shirokumakun

open Transition

/-- `IR_RETRY_COUNT`. -/
def irRetryCount : Nat := 10

/-- Where the dispatch thread is in attempt `k`: the statement that comes next. -/
inductive SendPc
  | outside
  | transmit (k : Nat)
  | resetAck (k : Nat)
  | clearAvailable (k : Nat)
  | setActive (k : Nat)
  | startCapture (k : Nat)
  | waiting (k : Nat)
  | clearActive (k : Nat) (rc : Int)
  | stopCapture (k : Nat) (rc : Int)
deriving DecidableEq

/-- Where the work handler is; `released` is the epoch in which its buffer was released. -/
inductive WorkPc
  | idle
  | started
  | picking
  | computing (idx : PdmBuf) (released : Nat)
  | judging (idx : PdmBuf) (released : Nat) (above : Bool)
deriving DecidableEq

/-- The last `if` of the handler: the buffer, the epoch in which it was released, and the
two conditions as they were found. -/
structure Verdict where
  idx : PdmBuf
  released : Nat
  active : Bool
  above : Bool

/-- Some verdict gave the semaphore. -/
def Signalled (heard : List Verdict) : Prop := ∃ v ∈ heard, v.active = true ∧ v.above = true

/-- An attempt whose wait has ended: its epoch, what `pdm_manager_collect_ack` is going to
return, and the verdicts heard before. -/
structure Attempt where
  no : Nat
  epoch : Nat
  ack : Bool
  heard : List Verdict

structure SendLog where
  transmitted : List (List IrPulse)
  attempts : List Attempt

/-- A call that returned: its arguments, its log, its result, and `pdm_capture_active`. -/
structure SendResult where
  frame : List IrPulse
  log : SendLog
  result : Bool
  captureActive : Bool

structure AckSystem where
  pdm : PdmManager
  send : SendPc
  /-- the arguments of the call in progress -/
  frame : List IrPulse
  work : WorkPc
  epoch : Nat
  released : PdmBuf → Nat
  heard : List Verdict
  log : SendLog
  returned : List SendResult

/-- The steps: one for each statement of the dispatch thread and of the handler. -/
inductive AckAct
  | isr (evt : PdmEvent)
  | verboseStart (err : Int)
  | verboseStop (err : Int)
  | workStart
  | workCheck
  | workPick
  | workCompute (above : Bool)
  | workSignal
  | call (frame : List IrPulse)
  | transmit
  | resetAck
  | clearAvailable
  | setActive
  | startCapture (err : Int)
  | endWait
  | clearActive
  | stopCapture (err : Int)

/-- A statement of the handler. -/
def AckAct.Handler : AckAct → Prop
  | .workStart => True
  | .workCheck => True
  | .workPick => True
  | .workCompute _ => True
  | .workSignal => True
  | _ => False

namespace AckSystem

def start : AckSystem where
  pdm := .initial
  send := .outside
  frame := []
  work := .idle
  epoch := 0
  released := fun _ => 0
  heard := []
  log := ⟨[], []⟩
  returned := []

/-- The interrupt, and the epoch it notes. -/
def isr (s : AckSystem) (evt : PdmEvent) : AckSystem :=
  { s with
    pdm := s.pdm.eventHandler evt
    released :=
      match evt.bufferReleased with
      | some idx => Function.update s.released idx s.epoch
      | none => s.released }

/-- The steps of the work handler. -/
def workStep (s : AckSystem) : AckAct → Option AckSystem
  | .workStart =>
      if s.work = .idle ∧ s.pdm.workPending = true then
        some { s with pdm := { s.pdm with workPending := false }, work := .started }
      else none
  | .workCheck =>
      if s.work = .started then
        some { s with work := if s.pdm.bufAvailable = true then .picking else .idle }
      else none
  | .workPick =>
      if s.work = .picking then
        let (pdm, idx) := s.pdm.pickUp
        some { s with pdm := pdm, work := .computing idx (s.released idx) }
      else none
  | .workCompute above =>
      match s.work with
      | .computing idx released => some { s with work := .judging idx released above }
      | _ => none
  | .workSignal =>
      match s.work with
      | .judging idx released above => some { s with
          pdm := s.pdm.signal above
          work := .idle
          heard := s.heard ++ [⟨idx, released, s.pdm.captureActive, above⟩] }
      | _ => none
  | _ => none

/-- `return` from `ir_send_command`. -/
def ret (s : AckSystem) (result : Bool) : AckSystem :=
  { s with
    send := .outside
    returned := s.returned ++ [⟨s.frame, s.log, result, s.pdm.captureActive⟩] }

/-- The steps of the dispatch thread. -/
def sendStep (s : AckSystem) : AckAct → Option AckSystem
  | .call frame =>
      if s.send = .outside then
        some { s with frame := frame, send := .transmit 1, log := ⟨[], []⟩ }
      else none
  | .transmit =>
      match s.send with
      | .transmit k => some { s with
          send := .resetAck k
          log := { s.log with transmitted := s.log.transmitted ++ [s.frame] } }
      | _ => none
  | .resetAck =>
      match s.send with
      | .resetAck k => some { s with pdm := s.pdm.resetAck, send := .clearAvailable k }
      | _ => none
  | .clearAvailable =>
      match s.send with
      | .clearAvailable k => some { s with
          pdm := s.pdm.clearAvailable
          send := .setActive k
          epoch := s.epoch + 1
          heard := [] }
      | _ => none
  | .setActive =>
      match s.send with
      | .setActive k => some { s with pdm := s.pdm.setActive, send := .startCapture k }
      | _ => none
  | .startCapture err =>
      match s.send with
      | .startCapture k => some { s with pdm := s.pdm.startCapture err, send := .waiting k }
      | _ => none
  | .endWait =>
      match s.send with
      | .waiting k =>
          let (pdm, rc) := s.pdm.takeAck
          some { s with
            pdm := pdm
            send := .clearActive k rc
            log := { s.log with
              attempts := s.log.attempts ++ [⟨k, s.epoch, rc == 0, s.heard⟩] } }
      | _ => none
  | .clearActive =>
      match s.send with
      | .clearActive k rc => some { s with pdm := s.pdm.clearActive, send := .stopCapture k rc }
      | _ => none
  | .stopCapture err =>
      match s.send with
      | .stopCapture k rc =>
          let s := { s with pdm := s.pdm.nrfxPdmStop err }
          if rc = 0 then some (s.ret true)
          else if k < irRetryCount then some { s with send := .transmit (k + 1) }
          else some (s.ret false)
      | _ => none
  | _ => none

/-- While the handler runs, the dispatch thread does not. -/
def step (s : AckSystem) : AckAct → Option AckSystem
  | .isr evt => some (s.isr evt)
  | .verboseStart err => some { s with pdm := s.pdm.verboseStart err }
  | .verboseStop err => some { s with pdm := s.pdm.verboseStop err }
  | a => (s.workStep a).or (if s.work = .idle then s.sendStep a else none)

def machine : Machine AckSystem AckAct := ⟨start, step⟩

/-! ### What a step can do -/

/-- The handler. -/
inductive WorkStep (s : AckSystem) : AckAct → AckSystem → Prop
  | workStart (h : s.work = .idle) (hpending : s.pdm.workPending = true) :
      WorkStep s .workStart
        { s with pdm := { s.pdm with workPending := false }, work := .started }
  | workPick (h : s.work = .started) (havail : s.pdm.bufAvailable = true) :
      WorkStep s .workCheck { s with work := .picking }
  | workNone (h : s.work = .started) : WorkStep s .workCheck { s with work := .idle }
  | workClear (h : s.work = .picking) :
      WorkStep s .workPick { s with
        pdm := s.pdm.clearAvailable
        work := .computing s.pdm.bufReadyIdx (s.released s.pdm.bufReadyIdx) }
  | workCompute {idx : PdmBuf} {released : Nat} {above : Bool}
      (h : s.work = .computing idx released) :
      WorkStep s (.workCompute above) { s with work := .judging idx released above }
  | workSignal {idx : PdmBuf} {released : Nat} {above : Bool}
      (h : s.work = .judging idx released above) :
      WorkStep s .workSignal { s with
        pdm := s.pdm.signal above
        work := .idle
        heard := s.heard ++ [⟨idx, released, s.pdm.captureActive, above⟩] }

/-- The dispatch thread. -/
inductive SendStep (s : AckSystem) : AckAct → AckSystem → Prop
  | call {frame : List IrPulse} (h : s.send = .outside) :
      SendStep s (.call frame) { s with frame := frame, send := .transmit 1, log := ⟨[], []⟩ }
  | transmit {k : Nat} (h : s.send = .transmit k) :
      SendStep s .transmit { s with
        send := .resetAck k
        log := { s.log with transmitted := s.log.transmitted ++ [s.frame] } }
  | resetAck {k : Nat} (h : s.send = .resetAck k) :
      SendStep s .resetAck { s with pdm := s.pdm.resetAck, send := .clearAvailable k }
  | clearAvailable {k : Nat} (h : s.send = .clearAvailable k) :
      SendStep s .clearAvailable { s with
        pdm := s.pdm.clearAvailable
        send := .setActive k
        epoch := s.epoch + 1
        heard := [] }
  | setActive {k : Nat} (h : s.send = .setActive k) :
      SendStep s .setActive { s with pdm := s.pdm.setActive, send := .startCapture k }
  | startCapture {k : Nat} {err : Int} (h : s.send = .startCapture k) :
      SendStep s (.startCapture err) { s with
        pdm := s.pdm.startCapture err
        send := .waiting k }
  | endWait {k : Nat} (h : s.send = .waiting k) :
      SendStep s .endWait { s with
        pdm := s.pdm.takeAck.1
        send := .clearActive k s.pdm.takeAck.2
        log := { s.log with
          attempts := s.log.attempts ++ [⟨k, s.epoch, s.pdm.takeAck.2 == 0, s.heard⟩] } }
  | clearActive {k : Nat} {rc : Int} (h : s.send = .clearActive k rc) :
      SendStep s .clearActive { s with pdm := s.pdm.clearActive, send := .stopCapture k rc }
  | acked {k : Nat} {err : Int} (h : s.send = .stopCapture k 0) :
      SendStep s (.stopCapture err) (ret { s with pdm := s.pdm.nrfxPdmStop err } true)
  | again {k : Nat} {rc err : Int} (h : s.send = .stopCapture k rc) (hrc : rc ≠ 0)
      (hk : k < irRetryCount) :
      SendStep s (.stopCapture err) { s with
        pdm := s.pdm.nrfxPdmStop err
        send := .transmit (k + 1) }
  | exhausted {k : Nat} {rc err : Int} (h : s.send = .stopCapture k rc) (hrc : rc ≠ 0)
      (hk : ¬ k < irRetryCount) :
      SendStep s (.stopCapture err) (ret { s with pdm := s.pdm.nrfxPdmStop err } false)

inductive Step (s : AckSystem) : AckAct → AckSystem → Prop
  | isr {evt : PdmEvent} : Step s (.isr evt) (s.isr evt)
  | verboseStart {err : Int} : Step s (.verboseStart err) { s with pdm := s.pdm.verboseStart err }
  | verboseStop {err : Int} : Step s (.verboseStop err) { s with pdm := s.pdm.verboseStop err }
  | work {a : AckAct} {s' : AckSystem} (h : WorkStep s a s') : Step s a s'
  | send {a : AckAct} {s' : AckSystem} (hidle : s.work = .idle) (h : SendStep s a s') : Step s a s'

theorem workStep_cases {s s' : AckSystem} {a : AckAct} (hs : s.workStep a = some s') :
    WorkStep s a s' := by
  cases a with
  | workStart =>
      simp only [workStep] at hs
      split at hs
      · rename_i h; cases hs; exact .workStart h.1 h.2
      · cases hs
  | workCheck =>
      simp only [workStep] at hs
      split at hs
      · rename_i h
        by_cases havail : s.pdm.bufAvailable = true
        · rw [if_pos havail] at hs; cases hs; exact .workPick h havail
        · rw [if_neg havail] at hs; cases hs; exact .workNone h
      · cases hs
  | workPick =>
      simp only [workStep] at hs
      split at hs
      · rename_i h; cases hs; exact .workClear h
      · cases hs
  | workCompute above =>
      simp only [workStep] at hs
      split at hs
      · rename_i idx released h; cases hs; exact .workCompute h
      · cases hs
  | workSignal =>
      simp only [workStep] at hs
      split at hs
      · rename_i idx released above h; cases hs; exact .workSignal h
      · cases hs
  | _ => cases hs

theorem sendStep_cases {s s' : AckSystem} {a : AckAct} (hs : s.sendStep a = some s') :
    SendStep s a s' := by
  cases a with
  | call frame =>
      simp only [sendStep] at hs
      split at hs
      · rename_i h; cases hs; exact .call h
      · cases hs
  | transmit =>
      simp only [sendStep] at hs
      split at hs
      · rename_i k h; cases hs; exact .transmit h
      · cases hs
  | resetAck =>
      simp only [sendStep] at hs
      split at hs
      · rename_i k h; cases hs; exact .resetAck h
      · cases hs
  | clearAvailable =>
      simp only [sendStep] at hs
      split at hs
      · rename_i k h; cases hs; exact .clearAvailable h
      · cases hs
  | setActive =>
      simp only [sendStep] at hs
      split at hs
      · rename_i k h; cases hs; exact .setActive h
      · cases hs
  | startCapture err =>
      simp only [sendStep] at hs
      split at hs
      · rename_i k h; cases hs; exact .startCapture h
      · cases hs
  | endWait =>
      simp only [sendStep] at hs
      split at hs
      · rename_i k h; cases hs; exact .endWait h
      · cases hs
  | clearActive =>
      simp only [sendStep] at hs
      split at hs
      · rename_i k rc h; cases hs; exact .clearActive h
      · cases hs
  | stopCapture err =>
      simp only [sendStep] at hs
      split at hs
      · rename_i k rc h
        by_cases hrc : rc = 0
        · subst hrc
          rw [if_pos rfl] at hs; cases hs; exact .acked h
        · rw [if_neg hrc] at hs
          by_cases hk : k < irRetryCount
          · rw [if_pos hk] at hs; cases hs; exact .again h hrc hk
          · rw [if_neg hk] at hs; cases hs; exact .exhausted h hrc hk
      · cases hs
  | _ => cases hs

theorem step_cases {s s' : AckSystem} {a : AckAct} (hs : s.step a = some s') : Step s a s' := by
  have hthreads : (s.workStep a).or (if s.work = .idle then s.sendStep a else none) = some s' →
      Step s a s' := by
    intro h
    rcases Option.or_eq_some_iff.mp h with hwork | ⟨-, hsend⟩
    · exact .work (workStep_cases hwork)
    · by_cases hidle : s.work = .idle
      · rw [if_pos hidle] at hsend
        exact .send hidle (sendStep_cases hsend)
      · rw [if_neg hidle] at hsend
        cases hsend
  cases a with
  | isr evt => cases hs; exact .isr
  | verboseStart err => cases hs; exact .verboseStart
  | verboseStop err => cases hs; exact .verboseStop
  | _ => exact hthreads hs

end AckSystem

end Shirokumakun
