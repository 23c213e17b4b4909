/-
Every request can be served.

Two callers and the dispatch thread share a mutex, the dispatch thread waits for a
semaphore and then for `ir_send_command`, and that waits for a handler that may be running.
None of this can lock up: as long as anything is under way, some thread can take a step
that brings the work left down (`serve`), without another request, an interrupt or the
main thread.  So from every state of every run the program can be brought to rest
(`run_to_rest`).

The measure counts statements.  A call still to come wakes the dispatch thread once, so it
weighs as much as a whole turn of that thread and more; a turn weighs as much as a call of
`ir_send_command` with all its attempts.
-/
import Shirokumakun.Boot.FirstUse
import Shirokumakun.Mailbox.Invariant

namespace Shirokumakun

open Transition

/-! ### What is left to do -/

/-- What a turn of the dispatch thread weighs, from where it is. -/
def DispatchPc.load : DispatchPc → Nat
  | .waiting => 0
  | .taken => irMaxPulses + 85
  | .locked => irMaxPulses + 84
  | .copying i => irMaxPulses - i + 83
  | .unlocked => 82
  | .sending => 1

/-- What a call weighs, with the turn it is going to wake. -/
def CallerPc.load : CallerPc → Nat
  | .outside => 0
  | .called _ => 2 * irMaxPulses + 90
  | .locked _ => 2 * irMaxPulses + 89
  | .copying _ i => irMaxPulses - i + irMaxPulses + 88
  | .unlocked => irMaxPulses + 87

namespace Mailbox

def callersLoad (caller : Source → CallerPc) : Nat := (caller .matter).load + (caller .shell).load

theorem callersLoad_update (caller : Source → CallerPc) (t : Source) (pc : CallerPc) :
    callersLoad (Function.update caller t pc) + (caller t).load = callersLoad caller + pc.load := by
  cases t with
  | matter =>
      have hother : Function.update caller .matter pc .shell = caller .shell :=
        Function.update_of_ne (by simp) _ _
      rw [callersLoad, callersLoad, Function.update_self, hother]
      omega
  | shell =>
      have hother : Function.update caller .shell pc .matter = caller .matter :=
        Function.update_of_ne (by simp) _ _
      rw [callersLoad, callersLoad, Function.update_self, hother]
      omega

def load (m : Mailbox Source) : Nat :=
  callersLoad m.caller + m.sem * (irMaxPulses + 86) + m.dispatch.load

/-- No copy goes past its end. -/
structure InBounds (m : Mailbox Source) : Prop where
  callers : ∀ t f i, m.caller t = .copying f i → i ≤ f.pulses.length
  dispatch : ∀ i, m.dispatch = .copying i → i ≤ m.pendingCount

/-- A caller that moves, but not inside its copy. -/
theorem InBounds.moved {m : Mailbox Source} (h : InBounds m) {t : Source} {pc : CallerPc}
    (hpc : ∀ f i, pc = .copying f i → i ≤ f.pulses.length) :
    ∀ u f i, m.moved t pc u = .copying f i → i ≤ f.pulses.length := by
  intro u f i hu
  rcases moved_eq hu with ⟨-, heq⟩ | ⟨-, hold⟩
  · exact hpc f i heq
  · exact h.callers u f i hold

theorem inBounds_step {m m' : Mailbox Source} {a : MailAct Source}
    (hlock : LockOk m.mutex m.caller m.dispatch) (h : InBounds m) (hs : Step m a m') :
    InBounds m' := by
  cases hs with
  | call _ => exact ⟨h.moved (by simp), h.dispatch⟩
  | lock _ _ => exact ⟨h.moved (by simp), h.dispatch⟩
  | @writeCount t f hpc =>
      refine ⟨h.moved fun g i heq => ?_, fun i hi => ?_⟩
      · obtain ⟨-, rfl⟩ := CallerPc.copying.inj heq
        exact Nat.zero_le _
      · exact absurd hi (hlock.not_copying (t := t) (by rw [hpc]; trivial) i)
  | @writePulse t f i p hpc hp =>
      refine ⟨h.moved fun g j heq => ?_, h.dispatch⟩
      obtain ⟨rfl, rfl⟩ := CallerPc.copying.inj heq
      exact (List.getElem?_eq_some_iff.mp hp).1
  | unlock _ => exact ⟨h.moved (by simp), h.dispatch⟩
  | give _ => exact ⟨h.moved (by simp), h.dispatch⟩
  | readCount _ =>
      refine ⟨h.callers, fun i hi => ?_⟩
      rw [← DispatchPc.copying.inj hi]
      exact Nat.zero_le _
  | @readPulse i _ hi =>
      refine ⟨h.callers, fun j hj => ?_⟩
      rw [← DispatchPc.copying.inj hj]
      exact hi
  | take _ _ => exact ⟨h.callers, by simp⟩
  | dispatchLock _ _ => exact ⟨h.callers, by simp⟩
  | dispatchUnlock _ => exact ⟨h.callers, by simp⟩
  | send _ => exact ⟨h.callers, by simp⟩
  | sendDone _ => exact ⟨h.callers, by simp⟩

theorem inBounds_of_reach {m : Mailbox Source} (h : (machine Source).Reachable m) : InBounds m :=
  h.invariant_from (fun _ hr => (inv_of_reach hr).lock)
    ⟨by simp [machine, start], by simp [machine, start]⟩
    fun t a _ hlock hI _ hs => inBounds_step (m := t) (a := a) hlock hI (step_cases hs)

/-! ### The mailbox alone -/

/-- A caller that moves on. -/
theorem load_moved {m m' : Mailbox Source} {t : Source} {pc : CallerPc}
    (hcaller : m'.caller = m.moved t pc) (hsem : m'.sem = m.sem)
    (hdispatch : m'.dispatch = m.dispatch) (hless : pc.load < (m.caller t).load) :
    m'.load < m.load := by
  have hsum := callersLoad_update m.caller t pc
  rw [load, load, hcaller, hsem, hdispatch, moved]
  omega

/-- The dispatch thread moves on. -/
theorem load_dispatch {m m' : Mailbox Source} {pc : DispatchPc} (hcaller : m'.caller = m.caller)
    (hsem : m'.sem = m.sem) (hdispatch : m'.dispatch = pc) (hless : pc.load < m.dispatch.load) :
    m'.load < m.load := by
  rw [load, load, hcaller, hsem, hdispatch]
  omega

/-- The caller that holds the mutex is never stopped. -/
theorem serve_holder {m : Mailbox Source} (h : InBounds m) {t : Source}
    (ht : (m.caller t).Holding) :
    ∃ a m', a.Inner ∧ m.step a = some m' ∧ m'.load < m.load := by
  cases hpc : m.caller t with
  | outside => rw [hpc] at ht; exact absurd ht id
  | called f => rw [hpc] at ht; exact absurd ht id
  | unlocked => rw [hpc] at ht; exact absurd ht id
  | locked f =>
      refine ⟨.writeCount t, { m with
        pendingCount := f.pulses.length
        caller := m.moved t (.copying f 0) }, trivial, by simp [step, hpc],
        load_moved rfl rfl rfl ?_⟩
      rw [hpc, CallerPc.load, CallerPc.load]
      omega
  | copying f i =>
      have hle := h.callers t f i hpc
      have hfits := f.fits
      by_cases hi : i = f.pulses.length
      · refine ⟨.unlock t, { m with mutex := none, caller := m.moved t .unlocked }, trivial,
          by simp [step, hpc, hi], load_moved rfl rfl rfl ?_⟩
        rw [hpc, CallerPc.load, CallerPc.load]
        omega
      · have hlt : i < f.pulses.length := by omega
        refine ⟨.writePulse t, { m with
          pendingBuf := Function.update m.pendingBuf i (f.pulses.get ⟨i, hlt⟩)
          caller := m.moved t (.copying f (i + 1)) }, trivial, by simp [step, hpc, hlt],
          load_moved rfl rfl rfl ?_⟩
        rw [hpc, CallerPc.load, CallerPc.load]
        omega

/-- Somebody wants the mutex: whoever holds it moves, or else it is free. -/
theorem serve_mutex {m : Mailbox Source} (hlock : LockOk m.mutex m.caller m.dispatch)
    (h : InBounds m) (hnot : ¬ m.dispatch.Holding)
    (hfree : m.mutex = none → ∃ a m', a.Inner ∧ m.step a = some m' ∧ m'.load < m.load) :
    ∃ a m', a.Inner ∧ m.step a = some m' ∧ m'.load < m.load := by
  cases hm : m.mutex with
  | none => exact hfree hm
  | some holder =>
      cases holder with
      | caller t => exact serve_holder h ((hlock.callers t).mpr hm)
      | dispatch => exact absurd (hlock.dispatcher.mpr hm) hnot

/-- A caller still inside, while the dispatch thread waits. -/
theorem serve_caller {m : Mailbox Source} (hlock : LockOk m.mutex m.caller m.dispatch)
    (h : InBounds m) (hwaiting : m.dispatch = .waiting) {t : Source}
    (ht : m.caller t ≠ .outside) :
    ∃ a m', a.Inner ∧ m.step a = some m' ∧ m'.load < m.load := by
  cases hpc : m.caller t with
  | outside => exact absurd hpc ht
  | called f =>
      refine serve_mutex hlock h (by rw [hwaiting]; exact id) fun hfree => ?_
      refine ⟨.lock t, { m with
        mutex := some (.caller t)
        caller := m.moved t (.locked f)
        enqueued := m.enqueued ++ [f]
        replaced := m.replaced ++ Slot.Box.overwritten m.enqueued.length m.activeNo }, trivial,
        by simp [step, hpc, hfree], load_moved rfl rfl rfl ?_⟩
      rw [hpc, CallerPc.load, CallerPc.load]
      omega
  | locked f => exact serve_holder h (t := t) (by rw [hpc]; trivial)
  | copying f i => exact serve_holder h (t := t) (by rw [hpc]; trivial)
  | unlocked =>
      -- The wake-up it gives is paid for by the rest of its load.
      have hsum := callersLoad_update m.caller t .outside
      rw [hpc, CallerPc.load, CallerPc.load] at hsum
      refine ⟨.give t, { m with sem := min (m.sem + 1) 1, caller := m.moved t .outside }, trivial,
        by simp [step, hpc], ?_⟩
      have hgive : min (m.sem + 1) 1 * (irMaxPulses + 86) ≤
          m.sem * (irMaxPulses + 86) + (irMaxPulses + 86) := by
        rw [← Nat.succ_mul]
        exact Nat.mul_le_mul_right _ (Nat.min_le_left _ _)
      rw [load, load, moved]
      dsimp only
      omega

/-- **The mailbox never locks up**: unless it is at rest, or the dispatch thread is about to
call `ir_send_command` or in it, one of the three threads moves on. -/
theorem serve_mail {m : Mailbox Source} (hlock : LockOk m.mutex m.caller m.dispatch)
    (h : InBounds m) (hroom : m.pendingCount ≤ irMaxPulses) (hunlocked : m.dispatch ≠ .unlocked)
    (hsending : m.dispatch ≠ .sending)
    (hrest : ¬ ((∀ t, m.caller t = .outside) ∧ m.dispatch = .waiting ∧ m.sem = 0)) :
    ∃ a m', a.Inner ∧ m.step a = some m' ∧ m'.load < m.load := by
  cases hpc : m.dispatch with
  | unlocked => exact absurd hpc hunlocked
  | sending => exact absurd hpc hsending
  | waiting =>
      by_cases hsem : 0 < m.sem
      · refine ⟨.take, { m with sem := m.sem - 1, dispatch := .taken }, trivial,
          by simp [step, hpc, hsem], ?_⟩
        obtain ⟨k, hk⟩ := Nat.exists_eq_succ_of_ne_zero (Nat.ne_of_gt hsem)
        rw [load, load, hpc, hk, Nat.succ_sub_one, Nat.succ_mul, DispatchPc.load, DispatchPc.load]
        dsimp only
        omega
      · have hcaller : ∃ t, m.caller t ≠ .outside := by
          by_contra hnone
          refine hrest ⟨fun t => ?_, hpc, by omega⟩
          by_contra ht
          exact hnone ⟨t, ht⟩
        obtain ⟨t, ht⟩ := hcaller
        exact serve_caller hlock h hpc ht
  | taken =>
      refine serve_mutex hlock h (by rw [hpc]; exact id) fun hfree => ?_
      refine ⟨.dispatchLock, { m with mutex := some .dispatch, dispatch := .locked }, trivial,
        by simp [step, hpc, hfree], load_dispatch rfl rfl rfl ?_⟩
      rw [hpc, DispatchPc.load, DispatchPc.load]
      omega
  | locked =>
      refine ⟨.readCount, { m with
        activeCount := m.pendingCount
        activeNo := m.enqueued.length
        dispatch := .copying 0 }, trivial, by simp [step, hpc], load_dispatch rfl rfl rfl ?_⟩
      rw [hpc, DispatchPc.load, DispatchPc.load]
      omega
  | copying i =>
      have hle := h.dispatch i hpc
      by_cases hi : i = m.pendingCount
      · refine ⟨.dispatchUnlock, { m with mutex := none, dispatch := .unlocked }, trivial,
          by simp [step, hpc, hi], load_dispatch rfl rfl rfl ?_⟩
        rw [hpc, DispatchPc.load, DispatchPc.load]
        omega
      · have hlt : i < m.pendingCount := by omega
        refine ⟨.readPulse, { m with
          activeBuf := Function.update m.activeBuf i (m.pendingBuf i)
          dispatch := .copying (i + 1) }, trivial, by simp [step, hpc, hlt],
          load_dispatch rfl rfl rfl ?_⟩
        rw [hpc, DispatchPc.load, DispatchPc.load]
        omega

end Mailbox

/-! ### The whole program -/

namespace System

/-- Nobody is in `ir_dispatch_command`, and the dispatch thread waits on an empty semaphore. -/
structure AtRest (s : System) : Prop where
  callers : ∀ t, s.mail.caller t = .outside
  dispatch : s.mail.dispatch = .waiting
  sem : s.mail.sem = 0

def load (s : System) : Nat := s.mail.load + s.ack.send.left + s.ack.work.left

theorem serve_handler {s : System} (hwork : s.ack.work ≠ .idle) :
    ∃ a s', a.Service ∧ s.step a = some s' ∧ s'.load < s.load := by
  obtain ⟨a, ack, hs⟩ := AckSystem.work_enabled hwork
  have hleft := AckSystem.work_left hwork (AckSystem.workStep_cases hs)
  have hkeep : ack.send = s.ack.send ∧ a.Inner := by
    cases AckSystem.workStep_cases hs <;> exact ⟨rfl, trivial⟩
  refine ⟨.ack a, { s with ack := ack }, hkeep.2, ?_, ?_⟩
  · show s.stepAck a = _
    rw [stepAck_inner s hkeep.2, AckSystem.step_of_workStep hs]
    rfl
  · rw [load, load, hkeep.1]
    exact Nat.add_lt_add_left hleft _

theorem serve_send {s : System} (hidle : s.ack.work = .idle) (hsend : s.ack.send ≠ .outside) :
    ∃ a s', a.Service ∧ s.step a = some s' ∧ s'.load < s.load := by
  obtain ⟨a, ack, hs⟩ := AckSystem.send_enabled hsend
  have hleft := AckSystem.send_left hsend (AckSystem.sendStep_cases hs)
  have hkeep : ack.work = s.ack.work ∧ a.Inner := by
    cases AckSystem.sendStep_cases hs with
    | call hpc => exact absurd hpc hsend
    | _ => exact ⟨rfl, trivial⟩
  refine ⟨.ack a, { s with ack := ack }, hkeep.2, ?_, ?_⟩
  · show s.stepAck a = _
    rw [stepAck_inner s hkeep.2, AckSystem.step_of_sendStep hidle hs]
    rfl
  · rw [load, load, hkeep.1]
    dsimp only
    omega

/-- **Something can be done** about everything that is under way. -/
theorem serve {s : System} (hmail : Mailbox.Inv s.mail)
    (hbounds : Mailbox.InBounds s.mail) (hrest : ¬ AtRest s) :
    ∃ a s', a.Service ∧ s.step a = some s' ∧ s'.load < s.load := by
  by_cases hwork : s.ack.work = .idle
  · by_cases hsend : s.ack.send = .outside
    · by_cases hunlocked : s.mail.dispatch = .unlocked
      · refine ⟨.mail .send, { s with
          mail := { s.mail with
            sent := s.mail.sent ++ [(s.mail.activeNo, s.mail.activePulses)]
            dispatch := .sending }
          ack := { s.ack with
            frame := s.mail.activePulses
            send := .transmit 1
            log := ⟨[], []⟩ } }, trivial, ?_, ?_⟩
        · simp [step, stepMail, Mailbox.step, AckSystem.step, AckSystem.workStep,
            AckSystem.sendStep, hunlocked, hwork, hsend]
        · have hcall : SendPc.left (.transmit 1) = 80 := rfl
          rw [load, load, Mailbox.load, Mailbox.load, hsend, hunlocked, hcall, DispatchPc.load,
            DispatchPc.load, SendPc.left]
          dsimp only
          omega
      · by_cases hsending : s.mail.dispatch = .sending
        · refine ⟨.mail .sendDone, { s with mail := { s.mail with dispatch := .waiting } }, trivial,
            by simp [step, stepMail, Mailbox.step, hsending, hsend], ?_⟩
          have hless : Mailbox.load { s.mail with dispatch := .waiting } < s.mail.load :=
            Mailbox.load_dispatch rfl rfl rfl (by rw [hsending]; exact Nat.one_pos)
          rw [load, load]
          exact Nat.add_lt_add_right (Nat.add_lt_add_right hless _) _
        · obtain ⟨a, mail, ha, hs, hless⟩ := Mailbox.serve_mail hmail.lock hbounds
            hmail.pending.room hunlocked hsending fun h => hrest ⟨h.1, h.2.1, h.2.2⟩
          refine ⟨.mail a, { s with mail := mail }, trivial, ?_, ?_⟩
          · show s.stepMail a = _
            rw [stepMail_inner s ha, hs]
            rfl
          · rw [load, load]
            exact Nat.add_lt_add_right (Nat.add_lt_add_right hless _) _
    · exact serve_send hwork hsend
  · exact serve_handler hwork

/-- A service step is no request. -/
theorem threads_of_service {s s' : System} {a : SysAct} (ha : a.Service) (hs : Step s a s') :
    s'.threads = s.threads := by
  cases hs with
  | init _ => exact absurd ha id
  | request _ _ _ => exact absurd ha id
  | thread _ _ _ => exact absurd ha id
  | cfarOn => exact absurd ha id
  | cfarOff => exact absurd ha id
  | _ => rfl

/-- **From every state of every run** the program can be brought to rest. -/
theorem run_to_rest {store : AttributeStore} {s : System} (h : (machine store).Reachable s) :
    ∃ acts t, (∀ a ∈ acts, a.Service) ∧ (machine store).run s acts = some t ∧
      AtRest t ∧ t.threads = s.threads := by
  refine Machine.exists_run_to (m := machine store)
    (I := fun t => (machine store).Reachable t ∧ t.threads = s.threads)
    (G := fun t => AtRest t ∧ t.threads = s.threads) load ?_ ?_ s ⟨h, rfl⟩
  · intro t a t' hI ha hs
    exact ⟨hI.1.step trivial hs, (threads_of_service ha (step_cases hs)).trans hI.2⟩
  · intro t hI hG
    have hmail := mail_of_reach hI.1
    exact serve (Mailbox.inv_of_reach hmail) (Mailbox.inBounds_of_reach hmail)
      fun hrest => hG ⟨hrest, hI.2⟩

end System

end Shirokumakun
