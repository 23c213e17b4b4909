/-
The IR mailbox, `ir_dispatch_command` and `ir_dispatch_thread_fn`.

Any number of threads hand commands to one dispatch thread through a buffer guarded by
`ir_dispatch_mutex` and a semaphore that saturates at one.  The steps below are the
statements of the two functions, with both `memcpy` calls broken into single pulses, so
that an interleaving can cut a copy anywhere; only the mutex keeps a command whole.

`enqueued` records the commands in the order in which their callers took the mutex, and
numbers them from 1.  `activeNo` is the number of the command in the active buffer,
`replaced` lists the commands overwritten before the dispatch thread copied them, and
`sent` pairs every command passed to `ir_send_command` with its number.  The code has
none of the four; no step looks at them.

`Step` says once what each successful step does; no later proof looks into `step`.
-/
import Shirokumakun.Lib.Slot
import Shirokumakun.IrProtocol
import Mathlib.Logic.Function.Basic
import Mathlib.Data.List.Basic

namespace Shirokumakun

open Transition

/-- The arguments of `ir_dispatch_command`: the pulses, whose number is `count`.  Every
caller passes what `ac_encode_pulses` wrote into a buffer of `IR_MAX_PULSES`. -/
structure IrFrame where
  pulses : List IrPulse
  fits : pulses.length ≤ irMaxPulses

/-- The arguments that encode a state. -/
def IrFrame.ofState (state : AcState) : IrFrame :=
  ⟨framePulses state, by rw [length_framePulses]; decide⟩

/-- What `cmd_off`, the shell's `ac off`, encodes and dispatches. -/
def acOff : AcState := ⟨false, acModeCooling, 24, fanSpeedAuto⟩

/-- Where a thread is in `ir_dispatch_command`. -/
inductive CallerPc
  | outside
  /-- before `k_mutex_lock` -/
  | called (f : IrFrame)
  /-- before `ir_pending_count = count` -/
  | locked (f : IrFrame)
  /-- in the `memcpy`, `i` pulses copied -/
  | copying (f : IrFrame) (i : Nat)
  /-- before `k_sem_give` -/
  | unlocked

/-- Where the dispatch thread is in its loop. -/
inductive DispatchPc
  /-- at `k_sem_take` -/
  | waiting
  /-- before `k_mutex_lock` -/
  | taken
  /-- before `ir_active_count = ir_pending_count` -/
  | locked
  /-- in the `memcpy`, `i` pulses copied -/
  | copying (i : Nat)
  /-- before `ir_send_command` -/
  | unlocked
  /-- inside `ir_send_command` -/
  | sending
deriving DecidableEq

/-- Who holds `ir_dispatch_mutex`. -/
inductive Holder (ι : Type)
  | caller (t : ι)
  | dispatch

structure Mailbox (ι : Type) where
  sem : Nat
  mutex : Option (Holder ι)
  pendingCount : Nat
  pendingBuf : Nat → IrPulse
  activeCount : Nat
  activeBuf : Nat → IrPulse
  caller : ι → CallerPc
  dispatch : DispatchPc
  enqueued : List IrFrame
  activeNo : Nat
  replaced : List Nat
  sent : List (Nat × List IrPulse)

/-- The steps, named after the statement they execute. -/
inductive MailAct (ι : Type)
  | call (t : ι) (f : IrFrame)
  | lock (t : ι)
  | writeCount (t : ι)
  | writePulse (t : ι)
  | unlock (t : ι)
  | give (t : ι)
  | take
  | dispatchLock
  | readCount
  | readPulse
  | dispatchUnlock
  | send
  | sendDone

namespace Mailbox

variable {ι : Type}

/-- Static storage: everything zero, nobody inside, the dispatch thread at its semaphore. -/
def start : Mailbox ι where
  sem := 0
  mutex := none
  pendingCount := 0
  pendingBuf := fun _ => ⟨0, 0⟩
  activeCount := 0
  activeBuf := fun _ => ⟨0, 0⟩
  caller := fun _ => .outside
  dispatch := .waiting
  enqueued := []
  activeNo := 0
  replaced := []
  sent := []

/-- What the dispatch thread passes to `ir_send_command`. -/
def activePulses (m : Mailbox ι) : List IrPulse := (List.range m.activeCount).map m.activeBuf

variable [DecidableEq ι]

/-- Where the callers are after thread `t` moved to `pc`. -/
def moved (m : Mailbox ι) (t : ι) (pc : CallerPc) : ι → CallerPc := Function.update m.caller t pc

def step (m : Mailbox ι) : MailAct ι → Option (Mailbox ι)
  | .call t f =>
      match m.caller t with
      | .outside => some { m with caller := m.moved t (.called f) }
      | _ => none
  | .lock t =>
      match m.caller t, m.mutex with
      | .called f, none => some { m with
          mutex := some (.caller t)
          caller := m.moved t (.locked f)
          enqueued := m.enqueued ++ [f]
          replaced := m.replaced ++ Slot.Box.overwritten m.enqueued.length m.activeNo }
      | _, _ => none
  | .writeCount t =>
      match m.caller t with
      | .locked f => some { m with
          pendingCount := f.pulses.length
          caller := m.moved t (.copying f 0) }
      | _ => none
  | .writePulse t =>
      match m.caller t with
      | .copying f i =>
          match f.pulses[i]? with
          | some p => some { m with
              pendingBuf := Function.update m.pendingBuf i p
              caller := m.moved t (.copying f (i + 1)) }
          | none => none
      | _ => none
  | .unlock t =>
      match m.caller t with
      | .copying f i =>
          if i = f.pulses.length then
            some { m with mutex := none, caller := m.moved t .unlocked }
          else none
      | _ => none
  | .give t =>
      match m.caller t with
      | .unlocked => some { m with sem := min (m.sem + 1) 1, caller := m.moved t .outside }
      | _ => none
  | .take =>
      if m.dispatch = .waiting ∧ 0 < m.sem then
        some { m with sem := m.sem - 1, dispatch := .taken }
      else none
  | .dispatchLock =>
      match m.dispatch, m.mutex with
      | .taken, none => some { m with mutex := some .dispatch, dispatch := .locked }
      | _, _ => none
  | .readCount =>
      if m.dispatch = .locked then
        some { m with
          activeCount := m.pendingCount
          activeNo := m.enqueued.length
          dispatch := .copying 0 }
      else none
  | .readPulse =>
      match m.dispatch with
      | .copying i =>
          if i < m.pendingCount then
            some { m with
              activeBuf := Function.update m.activeBuf i (m.pendingBuf i)
              dispatch := .copying (i + 1) }
          else none
      | _ => none
  | .dispatchUnlock =>
      match m.dispatch with
      | .copying i =>
          if i = m.pendingCount then some { m with mutex := none, dispatch := .unlocked }
          else none
      | _ => none
  | .send =>
      if m.dispatch = .unlocked then
        some { m with
          sent := m.sent ++ [(m.activeNo, m.activePulses)]
          dispatch := .sending }
      else none
  | .sendDone =>
      if m.dispatch = .sending then some { m with dispatch := .waiting } else none

def machine (ι : Type) [DecidableEq ι] : Machine (Mailbox ι) (MailAct ι) := ⟨start, step⟩

/-! ### What a step can do -/

/-- The successful branches of `step`, one each. -/
inductive Step (m : Mailbox ι) : MailAct ι → Mailbox ι → Prop
  | call {t : ι} {f : IrFrame} (h : m.caller t = .outside) :
      Step m (.call t f) { m with caller := m.moved t (.called f) }
  | lock {t : ι} {f : IrFrame} (h : m.caller t = .called f) (hfree : m.mutex = none) :
      Step m (.lock t) { m with
        mutex := some (.caller t)
        caller := m.moved t (.locked f)
        enqueued := m.enqueued ++ [f]
        replaced := m.replaced ++ Slot.Box.overwritten m.enqueued.length m.activeNo }
  | writeCount {t : ι} {f : IrFrame} (h : m.caller t = .locked f) :
      Step m (.writeCount t) { m with
        pendingCount := f.pulses.length
        caller := m.moved t (.copying f 0) }
  | writePulse {t : ι} {f : IrFrame} {i : Nat} {p : IrPulse} (h : m.caller t = .copying f i)
      (hp : f.pulses[i]? = some p) :
      Step m (.writePulse t) { m with
        pendingBuf := Function.update m.pendingBuf i p
        caller := m.moved t (.copying f (i + 1)) }
  | unlock {t : ι} {f : IrFrame} (h : m.caller t = .copying f f.pulses.length) :
      Step m (.unlock t) { m with mutex := none, caller := m.moved t .unlocked }
  | give {t : ι} (h : m.caller t = .unlocked) :
      Step m (.give t) { m with sem := min (m.sem + 1) 1, caller := m.moved t .outside }
  | take (h : m.dispatch = .waiting) (hsem : 0 < m.sem) :
      Step m .take { m with sem := m.sem - 1, dispatch := .taken }
  | dispatchLock (h : m.dispatch = .taken) (hfree : m.mutex = none) :
      Step m .dispatchLock { m with mutex := some .dispatch, dispatch := .locked }
  | readCount (h : m.dispatch = .locked) :
      Step m .readCount { m with
        activeCount := m.pendingCount
        activeNo := m.enqueued.length
        dispatch := .copying 0 }
  | readPulse {i : Nat} (h : m.dispatch = .copying i) (hi : i < m.pendingCount) :
      Step m .readPulse { m with
        activeBuf := Function.update m.activeBuf i (m.pendingBuf i)
        dispatch := .copying (i + 1) }
  | dispatchUnlock (h : m.dispatch = .copying m.pendingCount) :
      Step m .dispatchUnlock { m with mutex := none, dispatch := .unlocked }
  | send (h : m.dispatch = .unlocked) :
      Step m .send { m with
        sent := m.sent ++ [(m.activeNo, m.activePulses)]
        dispatch := .sending }
  | sendDone (h : m.dispatch = .sending) : Step m .sendDone { m with dispatch := .waiting }

theorem step_cases {m m' : Mailbox ι} {a : MailAct ι} (hs : m.step a = some m') :
    Step m a m' := by
  cases a with
  | call t f =>
      simp only [step] at hs
      split at hs
      · rename_i hpc; cases hs; exact .call hpc
      · cases hs
  | lock t =>
      simp only [step] at hs
      split at hs
      · rename_i f hpc hfree; cases hs; exact .lock hpc hfree
      · cases hs
  | writeCount t =>
      simp only [step] at hs
      split at hs
      · rename_i f hpc; cases hs; exact .writeCount hpc
      · cases hs
  | writePulse t =>
      simp only [step] at hs
      split at hs
      · rename_i f i hpc
        split at hs
        · rename_i p hp; cases hs; exact .writePulse hpc hp
        · cases hs
      · cases hs
  | unlock t =>
      simp only [step] at hs
      split at hs
      · rename_i f i hpc
        split at hs
        · rename_i hi; cases hs; exact .unlock (hi ▸ hpc)
        · cases hs
      · cases hs
  | give t =>
      simp only [step] at hs
      split at hs
      · rename_i hpc; cases hs; exact .give hpc
      · cases hs
  | take =>
      simp only [step] at hs
      split at hs
      · rename_i h; cases hs; exact .take h.1 h.2
      · cases hs
  | dispatchLock =>
      simp only [step] at hs
      split at hs
      · rename_i h hfree; cases hs; exact .dispatchLock h hfree
      · cases hs
  | readCount =>
      simp only [step] at hs
      split at hs
      · rename_i h; cases hs; exact .readCount h
      · cases hs
  | readPulse =>
      simp only [step] at hs
      split at hs
      · rename_i i h
        split at hs
        · rename_i hi; cases hs; exact .readPulse h hi
        · cases hs
      · cases hs
  | dispatchUnlock =>
      simp only [step] at hs
      split at hs
      · rename_i i h
        split at hs
        · rename_i hi; cases hs; exact .dispatchUnlock (hi ▸ h)
        · cases hs
      · cases hs
  | send =>
      simp only [step] at hs
      split at hs
      · rename_i h; cases hs; exact .send h
      · cases hs
  | sendDone =>
      simp only [step] at hs
      split at hs
      · rename_i h; cases hs; exact .sendDone h
      · cases hs

@[simp] theorem moved_self (m : Mailbox ι) (t : ι) (pc : CallerPc) : m.moved t pc t = pc :=
  Function.update_self ..

theorem moved_of_ne (m : Mailbox ι) {t u : ι} (pc : CallerPc) (h : u ≠ t) :
    m.moved t pc u = m.caller u :=
  Function.update_of_ne h ..

/-- Where a thread stands after `t` moved: it is `t`, or it stands where it stood. -/
theorem moved_eq {m : Mailbox ι} {t u : ι} {pc pc' : CallerPc} (h : m.moved t pc u = pc') :
    (u = t ∧ pc = pc') ∨ (u ≠ t ∧ m.caller u = pc') := by
  by_cases hu : u = t
  · subst hu
    exact Or.inl ⟨rfl, (moved_self m u pc).symm.trans h⟩
  · exact Or.inr ⟨hu, (moved_of_ne m pc hu).symm.trans h⟩

end Mailbox

end Shirokumakun
