/-
How the machines of the whole program are wired.

Each machine keeps a record of its own: the threads of what they passed to
`ir_dispatch_command`, the mailbox of what it enqueued and sent, `ir_send_command` of its
calls and of what it transmitted.  `Wired` says that the records agree, at every point of
every run.  A request is in the mailbox or on its way into it, the mailbox is sending
while `ir_send_command` runs, and what was sent is what `ir_send_command` was called with.
-/
import Shirokumakun.Boot.Model

namespace Shirokumakun

open Transition

/-! ### What is requested -/

/-- The command of a caller that has not got the mutex yet. -/
def CallerPc.waiting : CallerPc → List IrFrame
  | .called f => [f]
  | _ => []

/-- What a step of the mailbox is called with. -/
def MailAct.requested : MailAct Source → List IrFrame
  | .call _ f => [f]
  | _ => []

namespace Mailbox

/-- The commands on their way into the mailbox. -/
def outstanding (caller : Source → CallerPc) : List IrFrame :=
  (caller .matter).waiting ++ (caller .shell).waiting

theorem outstanding_update (caller : Source → CallerPc) (t : Source) (pc : CallerPc) :
    ((caller t).waiting ++ outstanding (Function.update caller t pc)).Perm
      (pc.waiting ++ outstanding caller) := by
  cases t with
  | matter =>
      have hother : Function.update caller .matter pc .shell = caller .shell :=
        Function.update_of_ne (by simp) _ _
      rw [outstanding, Function.update_self, hother]
      exact List.perm_append_comm_assoc _ _ _
  | shell =>
      have hother : Function.update caller .shell pc .matter = caller .matter :=
        Function.update_of_ne (by simp) _ _
      rw [outstanding, Function.update_self, hother]
      refine List.perm_append_comm.trans ?_
      rw [List.append_assoc]
      exact List.perm_append_comm_assoc _ _ _

/-- The commands that were requested, whether enqueued yet or not. -/
def requests (m : Mailbox Source) : List IrFrame := m.enqueued ++ outstanding m.caller

/-- A caller that has nothing on its way before and after. -/
theorem outstanding_moved {m : Mailbox Source} {t : Source} {pc : CallerPc}
    (hbefore : (m.caller t).waiting = []) (hafter : pc.waiting = []) :
    (outstanding (m.moved t pc)).Perm (outstanding m.caller) := by
  have hperm := outstanding_update m.caller t pc
  rwa [hbefore, hafter, List.nil_append, List.nil_append] at hperm

/-- **A step of the mailbox** loses no request and makes none up. -/
theorem requests_step {m m' : Mailbox Source} {a : MailAct Source} (h : Step m a m') :
    m'.requests.Perm (m.requests ++ a.requested) := by
  have hsame : ∀ {t : Source} {pc : CallerPc}, (m.caller t).waiting = [] → pc.waiting = [] →
      (m.enqueued ++ outstanding (m.moved t pc)).Perm (m.requests ++ []) := by
    intro t pc hbefore hafter
    rw [List.append_nil]
    exact (outstanding_moved hbefore hafter).append_left _
  cases h with
  | @call t f hpc =>
      have hperm := outstanding_update m.caller t (.called f)
      rw [hpc] at hperm
      show (m.enqueued ++ outstanding (m.moved t (.called f))).Perm (m.requests ++ [f])
      rw [requests, List.append_assoc]
      exact (hperm.trans List.perm_append_comm).append_left _
  | @lock t f hpc _ =>
      have hperm := outstanding_update m.caller t (.locked f)
      rw [hpc] at hperm
      show (m.enqueued ++ [f] ++ outstanding (m.moved t (.locked f))).Perm (m.requests ++ [])
      rw [requests, List.append_assoc, List.append_nil]
      exact hperm.append_left _
  | writeCount hpc => exact hsame (by rw [hpc]; rfl) rfl
  | writePulse hpc _ => exact hsame (by rw [hpc]; rfl) rfl
  | unlock hpc => exact hsame (by rw [hpc]; rfl) rfl
  | give hpc => exact hsame (by rw [hpc]; rfl) rfl
  | _ => exact (List.append_nil _).symm ▸ List.Perm.refl _

theorem sent_step {m m' : Mailbox Source} {a : MailAct Source} (h : Step m a m')
    (ha : a ≠ .send) : m'.sent = m.sent := by
  cases h with
  | send _ => exact absurd rfl ha
  | _ => rfl

/-- The dispatch thread stays in `ir_send_command` until it returns. -/
theorem sending_step {m m' : Mailbox Source} {a : MailAct Source} (h : Step m a m')
    (ha : a ≠ .sendDone) (hm : m.dispatch = .sending) : m'.dispatch = .sending := by
  cases h with
  | take hpc _ => rw [hpc] at hm; cases hm
  | dispatchLock hpc _ => rw [hpc] at hm; cases hm
  | readCount hpc => rw [hpc] at hm; cases hm
  | readPulse hpc _ => rw [hpc] at hm; cases hm
  | dispatchUnlock hpc => rw [hpc] at hm; cases hm
  | send hpc => rfl
  | sendDone _ => exact absurd rfl ha
  | _ => exact hm

end Mailbox

namespace Threads

/-- What a step requests is what it adds to the commands passed on. -/
theorem frames_step {s s' : Threads} {a : ThreadAct} (h : Step s a s') :
    s'.frames = s.frames ++ ((s.requested a).map fun r => IrFrame.ofState r.2).toList := by
  cases h with
  | dispatch hm => simp [requested, hm]
  | acOff => rfl
  | _ => simp [requested]

end Threads

/-! ### What is transmitted -/

def AckAct.called : AckAct → List (List IrPulse)
  | .call frame => [frame]
  | _ => []

namespace AckSystem

/-- The frames `ir_send_command` was called with, the call in progress included. -/
def calls (s : AckSystem) : List (List IrPulse) :=
  s.returned.map SendResult.frame ++ if s.send = .outside then [] else [s.frame]

/-- The frames `ir_transmit` was called with. -/
def onAir (s : AckSystem) : List (List IrPulse) :=
  (s.returned.flatMap fun c => c.log.transmitted) ++ s.log.transmitted

theorem calls_of_inside {s : AckSystem} (h : s.send ≠ .outside) :
    s.calls = s.returned.map SendResult.frame ++ [s.frame] := by rw [calls, if_neg h]

theorem calls_of_outside {s : AckSystem} (h : s.send = .outside) :
    s.calls = s.returned.map SendResult.frame := by rw [calls, if_pos h, List.append_nil]

/-- Every statement of `ir_send_command` is executed inside it. -/
theorem inside_of_send {s s' : AckSystem} {a : AckAct} (h : SendStep s a s')
    (ha : a.called = []) : s.send ≠ .outside := by
  cases h with
  | call _ => cases ha
  | transmit hpc => rw [hpc]; simp
  | resetAck hpc => rw [hpc]; simp
  | clearAvailable hpc => rw [hpc]; simp
  | setActive hpc => rw [hpc]; simp
  | startCapture hpc => rw [hpc]; simp
  | endWait hpc => rw [hpc]; simp
  | clearActive hpc => rw [hpc]; simp
  | acked hpc => rw [hpc]; simp
  | again hpc _ _ => rw [hpc]; simp
  | exhausted hpc _ _ => rw [hpc]; simp

/-- **A call is recorded once**, with its frame. -/
theorem calls_step {s s' : AckSystem} {a : AckAct} (h : Step s a s') :
    s'.calls = s.calls ++ a.called := by
  cases h with
  | isr => exact (List.append_nil _).symm
  | verboseStart => exact (List.append_nil _).symm
  | verboseStop => exact (List.append_nil _).symm
  | work hwork => cases hwork <;> exact (List.append_nil _).symm
  | send _ hsend =>
      have hstay : ∀ {t : AckSystem}, a.called = [] → t.send ≠ .outside → t.frame = s.frame →
          t.returned = s.returned → t.calls = s.calls ++ [] := by
        intro t ha ht hframe hreturned
        rw [List.append_nil, calls_of_inside (inside_of_send hsend ha), calls_of_inside ht, hframe,
          hreturned]
      have hret : ∀ (pdm : PdmManager) (result : Bool), a.called = [] →
          (ret { s with pdm := pdm } result).calls = s.calls ++ [] := by
        intro pdm result ha
        rw [List.append_nil, calls_of_outside rfl, calls_of_inside (inside_of_send hsend ha), ret,
          List.map_append]
        rfl
      cases hsend with
      | call hpc => rw [calls_of_outside hpc, calls_of_inside (by simp)]; rfl
      | acked _ => exact hret _ _ rfl
      | exhausted _ _ _ => exact hret _ _ rfl
      | _ => exact hstay rfl (by simp) rfl rfl

/-- Nothing is transmitted but the frame of a call. -/
theorem onAir_step {s s' : AckSystem} {a : AckAct} (h : Step s a s')
    (hs : ∀ ps ∈ s.onAir, ps ∈ s.calls) : ∀ ps ∈ s'.onAir, ps ∈ s'.calls := by
  have hkeep : ∀ ps, ps ∈ s.onAir → ps ∈ s'.calls := by
    intro ps hps
    rw [calls_step h]
    exact List.mem_append_left _ (hs ps hps)
  have hret : ∀ (pdm : PdmManager) (result : Bool), ∀ ps ∈ (ret { s with pdm := pdm } result).onAir,
      ps ∈ s.onAir := by
    intro pdm result ps hps
    rw [onAir, ret] at hps
    simp only [List.flatMap_append, List.mem_append, List.flatMap_singleton] at hps
    rw [onAir, List.mem_append]
    tauto
  cases h with
  | isr => exact hkeep
  | verboseStart => exact hkeep
  | verboseStop => exact hkeep
  | work hwork => cases hwork <;> exact hkeep
  | send _ hsend =>
      cases hsend with
      | call _ =>
          intro ps hps
          exact hkeep ps (List.mem_append_left _ (by simpa [onAir] using hps))
      | transmit hpc =>
          intro ps hps
          have hnew : ps ∈ s.onAir ∨ ps = s.frame := by
            simpa [onAir, or_assoc] using hps
          rcases hnew with hold | rfl
          · exact hkeep ps hold
          · rw [calls_of_inside (by simp)]
            exact List.mem_append_right _ (List.mem_singleton.mpr rfl)
      | acked _ => exact fun ps hps => hkeep ps (hret _ _ ps hps)
      | exhausted _ _ _ => exact fun ps hps => hkeep ps (hret _ _ ps hps)
      | _ => exact hkeep

/-- The dispatch thread enters `ir_send_command` by a call only. -/
theorem inside_step {s s' : AckSystem} {a : AckAct} (h : Step s a s') (ha : a.called = [])
    (hs' : s'.send ≠ .outside) : s.send ≠ .outside := by
  cases h with
  | isr => exact hs'
  | verboseStart => exact hs'
  | verboseStop => exact hs'
  | work hwork => cases hwork <;> exact hs'
  | send _ hsend => exact inside_of_send hsend ha

end AckSystem

namespace System

/-! ### The wiring -/

/-- The mailbox is sending while `ir_send_command` runs, what was sent is what it was called
with, and what was requested is what the mailbox got. -/
structure Wired (s : System) : Prop where
  busy : s.ack.send ≠ .outside → s.mail.dispatch = .sending
  sent : s.mail.sent.map Prod.snd = s.ack.calls
  onAir : ∀ ps ∈ s.ack.onAir, ps ∈ s.ack.calls
  requests : s.mail.requests.Perm s.threads.frames

theorem wired_start (store : AttributeStore) : Wired (start store) where
  busy := fun h => absurd rfl h
  sent := rfl
  onAir := by simp [start, AckSystem.onAir, AckSystem.start]
  requests := List.Perm.refl _

/-- `AppTask::Init` does not touch what was sent. -/
theorem exec_calls (s : System) (rest : List InitStmt) (err : Int) (stmt : InitStmt) :
    (s.exec rest err stmt).ack.calls = s.ack.calls ∧
      (s.exec rest err stmt).ack.onAir = s.ack.onAir := by
  cases stmt with
  | hwPairingInit | prepareServer | startServer | deviceIsReady | gpioPinConfigure | nrfxPdmInit =>
      simp only [exec]
      split
      · exact ⟨rfl, rfl⟩
      · exact ⟨rfl, rfl⟩
  | _ => exact ⟨rfl, rfl⟩

/-- A step of `ir_send_command` or beside it, without a call. -/
theorem Wired.stepAck {s : System} (h : Wired s) {a : AckAct} {ack : AckSystem}
    (hs : s.ack.Step a ack) (ha : a.called = []) : Wired { s with ack := ack } where
  busy := fun hinside => h.busy (AckSystem.inside_step hs ha hinside)
  sent := by
    rw [AckSystem.calls_step hs, ha, List.append_nil]
    exact h.sent
  onAir := AckSystem.onAir_step hs h.onAir
  requests := h.requests

theorem called_of_inner {a : AckAct} (ha : a.Inner) : a.called = [] := by
  cases a with
  | call frame => exact absurd ha id
  | _ => rfl

theorem requested_of_inner {a : MailAct Source} (ha : a.Inner) :
    a.requested = [] ∧ a ≠ .send ∧ a ≠ .sendDone := by
  cases a with
  | call t f => exact absurd ha id
  | send => exact absurd ha id
  | sendDone => exact absurd ha id
  | _ => simp [MailAct.requested]

theorem wired_step {s s' : System} {a : SysAct} (h : Wired s) (hs : Step s a s') : Wired s' := by
  cases hs with
  | @init stmt rest err _ =>
      obtain ⟨hthreads, hmail, hsend, -⟩ := exec_same s rest err stmt
      obtain ⟨hcalls, honAir⟩ := exec_calls s rest err stmt
      refine ⟨?_, ?_, ?_, ?_⟩
      · rw [hmail, hsend]
        exact h.busy
      · rw [hmail, hcalls]
        exact h.sent
      · rw [honAir, hcalls]
        exact h.onAir
      · rw [hmail, hthreads]
        exact h.requests
  | @request _ t state threads mail hreq hthreads hmail =>
      have hstep := Mailbox.step_cases hmail
      refine ⟨fun hinside => Mailbox.sending_step hstep (by simp) (h.busy hinside), ?_, h.onAir, ?_⟩
      · rw [Mailbox.sent_step hstep (by simp)]
        exact h.sent
      · rw [Threads.frames_step (Threads.step_cases hthreads), hreq]
        exact (Mailbox.requests_step hstep).trans (h.requests.append_right _)
  | thread hreq _ hthreads =>
      refine ⟨h.busy, h.sent, h.onAir, ?_⟩
      rw [Threads.frames_step (Threads.step_cases hthreads), hreq]
      exact h.requests.trans (by simp)
  | cfarOn => exact h.stepAck .verboseStart rfl
  | cfarOff => exact h.stepAck .verboseStop rfl
  | mail ha hmail =>
      obtain ⟨hreq, hsend, hdone⟩ := requested_of_inner ha
      have hstep := Mailbox.step_cases hmail
      refine ⟨fun hinside => Mailbox.sending_step hstep hdone (h.busy hinside), ?_, h.onAir, ?_⟩
      · rw [Mailbox.sent_step hstep hsend]
        exact h.sent
      · have hperm := Mailbox.requests_step hstep
        rw [hreq, List.append_nil] at hperm
        exact hperm.trans h.requests
  | send hmail hack =>
      have hperm := Mailbox.requests_step (Mailbox.step_cases hmail)
      have hcall := AckSystem.step_cases hack
      cases Mailbox.step_cases hmail with
      | send hpc =>
          refine ⟨fun _ => rfl, ?_, AckSystem.onAir_step hcall h.onAir, ?_⟩
          · rw [AckSystem.calls_step hcall, List.map_append, h.sent]
            rfl
          · exact (hperm.trans (by simp [MailAct.requested])).trans h.requests
  | sendDone hret hmail =>
      have hstep := Mailbox.step_cases hmail
      refine ⟨fun hinside => absurd hret hinside, ?_, h.onAir, ?_⟩
      · rw [Mailbox.sent_step hstep (by simp)]
        exact h.sent
      · have hperm := Mailbox.requests_step hstep
        exact (hperm.trans (by simp [MailAct.requested])).trans h.requests
  | isr _ => exact h.stepAck .isr rfl
  | ack ha hack => exact h.stepAck (AckSystem.step_cases hack) (called_of_inner ha)

theorem wired_of_reach {store : AttributeStore} {s : System} (h : (machine store).Reachable s) :
    Wired s :=
  h.invariant (wired_start store) fun t a _ hI _ hs =>
    wired_step (s := t) (a := a) hI (step_cases hs)

end System

end Shirokumakun
