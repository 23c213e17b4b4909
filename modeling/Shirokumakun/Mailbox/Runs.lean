/-
Undisturbed runs of the IR mailbox.

`ir_dispatch_command` called while nobody else moves, and one turn of the dispatch loop
while nobody else moves, each as one list of steps with the state it leads to.  They tie
the steps to the two C functions read from top to bottom, and concrete runs are put
together from them without executing 427 copies one by one.
-/
import Shirokumakun.Mailbox.Model

namespace Shirokumakun

open Transition

namespace Mailbox

variable {ι : Type}

/-- `ir_dispatch_command` up to its `k_sem_give`. -/
def callSteps (t : ι) (f : IrFrame) : List (MailAct ι) :=
  [.call t f, .lock t, .writeCount t] ++
    (List.replicate f.pulses.length (.writePulse t) ++ [.unlock t])

/-- The copy of the dispatch loop, under the mutex. -/
def copySteps (count : Nat) : List (MailAct ι) :=
  .readCount :: (List.replicate count .readPulse ++ [.dispatchUnlock])

/-- The body of the dispatch loop, from the copy to the return of `ir_send_command`. -/
def turnSteps (count : Nat) : List (MailAct ι) := copySteps count ++ [.send, .sendDone]

/-- After an undisturbed copy that left `buf` in the active buffer. -/
def copied (m : Mailbox ι) (buf : Nat → IrPulse) : Mailbox ι := { m with
  mutex := none
  activeCount := m.pendingCount
  activeBuf := buf
  activeNo := m.enqueued.length
  dispatch := .unlocked }

/-- After an undisturbed turn that left `buf` in the active buffer. -/
def turned (m : Mailbox ι) (buf : Nat → IrPulse) : Mailbox ι := { m with
  mutex := none
  activeCount := m.pendingCount
  activeBuf := buf
  activeNo := m.enqueued.length
  dispatch := .waiting
  sent := m.sent ++ [(m.enqueued.length, (List.range m.pendingCount).map buf)] }

@[simp] theorem map_fst_sent_turned (m : Mailbox ι) (buf : Nat → IrPulse) :
    (m.turned buf).sent.map Prod.fst = m.sent.map Prod.fst ++ [m.enqueued.length] := by
  simp [turned]

variable [DecidableEq ι]

/-- After an undisturbed call that left `buf` in the pending buffer and gave nothing yet. -/
def called (m : Mailbox ι) (t : ι) (f : IrFrame) (buf : Nat → IrPulse) : Mailbox ι := { m with
  mutex := none
  pendingCount := f.pulses.length
  pendingBuf := buf
  caller := m.moved t .unlocked
  enqueued := m.enqueued ++ [f]
  replaced := m.replaced ++ Slot.Box.overwritten m.enqueued.length m.activeNo }

/-! ### The two copies -/

/-- The `memcpy` into the pending buffer, run to its end. -/
theorem run_writePulses (t : ι) (f : IrFrame) (k : Nat) : ∀ {m : Mailbox ι} {i : Nat},
    m.caller t = .copying f i → i + k = f.pulses.length →
      ∃ buf, (machine ι).run m (List.replicate k (.writePulse t)) = some { m with
        pendingBuf := buf
        caller := m.moved t (.copying f f.pulses.length) } := by
  induction k with
  | zero =>
      intro m i hpc hik
      obtain rfl : i = f.pulses.length := hik
      refine ⟨m.pendingBuf, ?_⟩
      rw [List.replicate_zero, Machine.run_nil, moved, ← hpc, Function.update_eq_self]
  | succ k ih =>
      intro m i hpc hik
      have hget : f.pulses[i]? = some f.pulses[i] := List.getElem?_eq_getElem (by omega)
      let next : Mailbox ι := { m with
        pendingBuf := Function.update m.pendingBuf i f.pulses[i]
        caller := m.moved t (.copying f (i + 1)) }
      have hstep : (machine ι).step m (.writePulse t) = some next := by
        show m.step (.writePulse t) = _
        simp only [step, hpc, hget]
        rfl
      obtain ⟨buf, hrun⟩ := ih (m := next) (i := i + 1) (moved_self m t _) (by omega)
      refine ⟨buf, ?_⟩
      rw [List.replicate_succ, Machine.run_cons_of_step _ hstep, hrun]
      simp [next, moved]

/-- The `memcpy` into the active buffer, run to its end. -/
theorem run_readPulses (k : Nat) : ∀ {m : Mailbox ι} {i : Nat}, m.dispatch = .copying i →
    i + k = m.pendingCount → ∃ buf, (machine ι).run m (List.replicate k .readPulse)
      = some { m with activeBuf := buf, dispatch := .copying m.pendingCount } := by
  induction k with
  | zero =>
      intro m i hpc hik
      obtain rfl : i = m.pendingCount := hik
      refine ⟨m.activeBuf, ?_⟩
      rw [List.replicate_zero, Machine.run_nil, ← hpc]
  | succ k ih =>
      intro m i hpc hik
      have hstep : (machine ι).step m .readPulse = some { m with
          activeBuf := Function.update m.activeBuf i (m.pendingBuf i)
          dispatch := .copying (i + 1) } := by
        show m.step .readPulse = _
        simp only [step, hpc]
        rw [if_pos (by omega)]
      rw [List.replicate_succ, Machine.run_cons_of_step _ hstep]
      exact ih (i := i + 1) rfl (by show i + 1 + k = m.pendingCount; omega)

/-! ### A call, and a turn -/

theorem run_call {m : Mailbox ι} {t : ι} (hout : m.caller t = .outside) (hfree : m.mutex = none)
    (f : IrFrame) : ∃ buf, (machine ι).run m (callSteps t f) = some (called m t f buf) := by
  let entered : Mailbox ι := { m with
    mutex := some (.caller t)
    pendingCount := f.pulses.length
    caller := m.moved t (.copying f 0)
    enqueued := m.enqueued ++ [f]
    replaced := m.replaced ++ Slot.Box.overwritten m.enqueued.length m.activeNo }
  have henter : (machine ι).run m [.call t f, .lock t, .writeCount t] = some entered := by
    simp [machine, step, hout, hfree, moved, entered]
  obtain ⟨buf, hcopy⟩ := run_writePulses t f f.pulses.length (m := entered) (moved_self m t _)
    (Nat.zero_add _)
  refine ⟨buf, ?_⟩
  rw [callSteps, Machine.run_append_of_run _ henter, Machine.run_append_of_run _ hcopy]
  simp [machine, step, moved, entered, called]

theorem run_copy {m : Mailbox ι} (hpc : m.dispatch = .locked) :
    ∃ buf, (machine ι).run m (copySteps m.pendingCount) = some (copied m buf) := by
  let loaded : Mailbox ι := { m with
    activeCount := m.pendingCount
    activeNo := m.enqueued.length
    dispatch := .copying 0 }
  have hcount : (machine ι).step m .readCount = some loaded := by
    show m.step .readCount = _
    simp only [step, hpc, if_true]
    rfl
  obtain ⟨buf, hcopy⟩ := run_readPulses m.pendingCount (m := loaded) rfl (Nat.zero_add _)
  refine ⟨buf, ?_⟩
  rw [copySteps, Machine.run_cons_of_step _ hcount, Machine.run_append_of_run _ hcopy]
  simp [machine, step, loaded, copied]

theorem run_turn {m : Mailbox ι} (hpc : m.dispatch = .locked) :
    ∃ buf, (machine ι).run m (turnSteps m.pendingCount) = some (turned m buf) := by
  obtain ⟨buf, hcopy⟩ := run_copy hpc
  refine ⟨buf, ?_⟩
  rw [turnSteps, Machine.run_append_of_run _ hcopy]
  simp [machine, step, activePulses, copied, turned]

/-- A call and all that follows from it up to the call of `ir_send_command`. -/
def requestSteps (t : ι) (f : IrFrame) : List (MailAct ι) :=
  [.lock t, .writeCount t] ++ (List.replicate f.pulses.length (.writePulse t) ++ [.unlock t]) ++
    ([.give t, .take, .dispatchLock] ++ copySteps f.pulses.length)

theorem run_request {m : Mailbox ι} {t : ι} (hout : m.caller t = .outside)
    (hfree : m.mutex = none) (hwaiting : m.dispatch = .waiting) (f : IrFrame) :
    ∃ m', (machine ι).run m (.call t f :: requestSteps t f) = some m' ∧
      m'.dispatch = .unlocked := by
  obtain ⟨buf, hcall⟩ := run_call hout hfree f
  let woken : Mailbox ι := { called m t f buf with
    sem := 0
    mutex := some .dispatch
    caller := (called m t f buf).moved t .outside
    dispatch := .locked }
  have hwake : (machine ι).run (called m t f buf) [.give t, .take, .dispatchLock] = some woken := by
    simp [machine, step, called, moved, woken, hwaiting]
  obtain ⟨buf', hcopy⟩ := run_copy (m := woken) rfl
  refine ⟨copied woken buf', ?_, rfl⟩
  have hsteps : .call t f :: requestSteps t f
      = callSteps t f ++ ([.give t, .take, .dispatchLock] ++ copySteps f.pulses.length) := by
    rw [requestSteps, callSteps]
    rfl
  rw [hsteps, Machine.run_append_of_run _ hcall, Machine.run_append_of_run _ hwake]
  exact hcopy

end Mailbox

end Shirokumakun
