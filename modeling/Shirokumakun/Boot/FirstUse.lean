/-
Initialisation before use.

Only one of the three ways to the IR LED and the microphone asks whether the boot is over:
the Matter callback reads `ir_ready`.  The shell's `ac off` and `ac cfar on` do not, and
`ir_ready` is raised even when `pdm_manager_init` gave up.  `Safe` says which steps may be
taken when; `Prepared` says at which time a request has to come.  Before that time nothing
moves behind the requests (`Quiet`), after it everything is initialised (`Ordered`).

A request is not itself a use; what it asks for is done later, by other threads.  `Exposes`
follows it there and nowhere else: the steps after it only serve what is under way.  That
comes to a use that is too early exactly when the request was.
-/
import Shirokumakun.Boot.Model
import Shirokumakun.Pdm.Ack
import Mathlib.Data.List.Infix

namespace Shirokumakun

open Transition

namespace System

/-- `ir_transmit` is entered after `ir_driver_init` has returned; `nrfx_pdm_start` and the
semaphore are reached after `pdm_manager_init` has initialised them. -/
def Safe (s : System) : SysAct → Prop
  | .ack .transmit => s.inited.irDriver = true
  | .ack .resetAck => s.inited.Pdm
  | .ack (.startCapture _) => s.inited.Pdm
  | .ack .endWait => s.inited.Pdm
  | .cfarOn _ => s.ack.pdm.captureActive = false → s.inited.Pdm
  | _ => True

/-- A command is dispatched, and verbose output switched on, only when the microphone is
initialised. -/
def Prepared (s : System) : SysAct → Prop
  | .thread .acOff => s.inited.Pdm
  | .thread .dispatch => s.inited.Pdm
  | .cfarOn _ => s.inited.Pdm
  | _ => True

theorem Prepared.of_request {s : System} {a : ThreadAct} {r : Source × AcState}
    (h : s.Prepared (.thread a)) (hreq : s.threads.requested a = some r) : s.inited.Pdm := by
  cases a with
  | acOff => exact h
  | dispatch => exact h
  | _ => cases hreq

/-! ### The order of the initialisations -/

/-- Where `AppTask::Init` is and what it has initialised by then. -/
structure Ordered (todo : List InitStmt) (ir pdm : Bool) : Prop where
  suffix : todo <:+ initBody
  irDriver : ir = false → todo = [] ∨ InitStmt.irDriverInit ∈ todo
  nrfxPdm : pdm = true → ir = true

theorem irDriver_first {rest : List InitStmt} (h : .nrfxPdmInit :: rest <:+ initBody) :
    InitStmt.irDriverInit ∉ .nrfxPdmInit :: rest := by
  have htails : ∀ todo ∈ initBody.tails, todo.head? = some .nrfxPdmInit →
      InitStmt.irDriverInit ∉ todo := by
    decide
  exact htails _ ((List.mem_tails _ _).mpr h) rfl

section Ordered

variable {stmt : InitStmt} {rest : List InitStmt} {ir pdm : Bool}

theorem Ordered.advance (h : Ordered (stmt :: rest) ir pdm)
    (hne : stmt ≠ .irDriverInit) : Ordered rest ir pdm := by
  refine ⟨(List.suffix_cons stmt rest).trans h.suffix, ?_, h.nrfxPdm⟩
  intro hoff
  rcases h.irDriver hoff with hnil | hmem
  · cases hnil
  · exact Or.inr ((List.mem_cons.mp hmem).resolve_left fun heq => hne heq.symm)

theorem Ordered.stop (h : Ordered (stmt :: rest) ir pdm) :
    Ordered [] ir pdm :=
  ⟨List.nil_suffix, fun _ => Or.inl rfl, h.nrfxPdm⟩

theorem Ordered.irDriver_of_nrfxPdmInit (h : Ordered (.nrfxPdmInit :: rest) ir pdm) :
    ir = true := by
  by_cases hoff : ir = false
  · rcases h.irDriver hoff with hnil | hmem
    · cases hnil
    · exact absurd hmem (irDriver_first h.suffix)
  · exact Bool.eq_true_of_not_eq_false hoff

end Ordered

theorem ordered_exec {s : System} {stmt : InitStmt} {rest : List InitStmt} (err : Int)
    (htodo : s.todo = stmt :: rest)
    (h : Ordered s.todo s.inited.irDriver s.inited.nrfxPdm) :
    Ordered (s.exec rest err stmt).todo (s.exec rest err stmt).inited.irDriver
      (s.exec rest err stmt).inited.nrfxPdm := by
  rw [htodo] at h
  cases stmt with
  | hwPairingInit | prepareServer | startServer | deviceIsReady | gpioPinConfigure =>
      simp only [exec]
      split
      · exact h.advance (by simp)
      · exact h.stop
  | irDriverInit =>
      refine ⟨(List.suffix_cons _ rest).trans h.suffix, ?_, fun _ => rfl⟩
      intro hoff
      cases hoff
  | nrfxPdmInit =>
      simp only [exec]
      split
      · exact h.stop
      · have hrest := h.advance (by simp)
        exact ⟨hrest.suffix, hrest.irDriver, fun _ => h.irDriver_of_nrfxPdmInit⟩
  | _ => exact h.advance (by simp)

/-- What is initialised stays so. -/
theorem exec_pdm {s : System} (rest : List InitStmt) (err : Int) (stmt : InitStmt)
    (h : s.inited.Pdm) : (s.exec rest err stmt).inited.Pdm := by
  obtain ⟨hpdm, hwork, hsem⟩ := h
  cases stmt with
  | hwPairingInit | prepareServer | startServer | deviceIsReady | gpioPinConfigure | nrfxPdmInit =>
      simp only [exec]
      split
      · exact ⟨hpdm, hwork, hsem⟩
      · first
          | exact ⟨hpdm, hwork, hsem⟩
          | exact ⟨rfl, hwork, hsem⟩
  | workInit => exact ⟨hpdm, rfl, hsem⟩
  | semInit => exact ⟨hpdm, hwork, rfl⟩
  | _ => exact ⟨hpdm, hwork, hsem⟩

/-! ### Nothing moves without a request -/

/-- No command is on its way, and no window is open. -/
structure Quiet (s : System) : Prop where
  sem : s.mail.sem = 0
  mutex : s.mail.mutex = none
  callers : ∀ t, s.mail.caller t = .outside
  dispatch : s.mail.dispatch = .waiting
  send : s.ack.send = .outside
  captureActive : s.ack.pdm.captureActive = false

/-- With nobody inside, only a call can come next. -/
theorem Quiet.mail_stuck {s : System} (h : Quiet s) {a : MailAct Source} {mail : Mailbox Source}
    (hs : s.mail.step a = some mail) : ∃ t f, a = .call t f := by
  cases Mailbox.step_cases hs with
  | @call t f _ => exact ⟨t, f, rfl⟩
  | lock hpc _ => rw [h.callers] at hpc; cases hpc
  | writeCount hpc => rw [h.callers] at hpc; cases hpc
  | writePulse hpc _ => rw [h.callers] at hpc; cases hpc
  | unlock hpc => rw [h.callers] at hpc; cases hpc
  | give hpc => rw [h.callers] at hpc; cases hpc
  | take _ hsem => rw [h.sem] at hsem; cases hsem
  | dispatchLock hpc _ => rw [h.dispatch] at hpc; cases hpc
  | readCount hpc => rw [h.dispatch] at hpc; cases hpc
  | readPulse hpc _ => rw [h.dispatch] at hpc; cases hpc
  | dispatchUnlock hpc => rw [h.dispatch] at hpc; cases hpc
  | send hpc => rw [h.dispatch] at hpc; cases hpc
  | sendDone hpc => rw [h.dispatch] at hpc; cases hpc

/-- Outside a call, only the handler has statements to execute. -/
theorem handler_of_outside {s s' : AckSystem} {a : AckAct} (ha : a.Inner)
    (hout : s.send = .outside) (hs : s.step a = some s') :
    a.Handler ∧ s'.send = .outside ∧ s'.pdm.captureActive = s.pdm.captureActive := by
  cases AckSystem.step_cases hs with
  | isr => exact absurd ha id
  | verboseStart => exact absurd ha id
  | verboseStop => exact absurd ha id
  | work hwork =>
      cases hwork with
      | workSignal _ => exact ⟨trivial, hout, (PdmManager.signal_spec s.pdm _).2.2.1⟩
      | _ => exact ⟨trivial, hout, rfl⟩
  | send _ hsend =>
      cases hsend with
      | call _ => exact absurd ha id
      | transmit hpc => rw [hout] at hpc; cases hpc
      | resetAck hpc => rw [hout] at hpc; cases hpc
      | clearAvailable hpc => rw [hout] at hpc; cases hpc
      | setActive hpc => rw [hout] at hpc; cases hpc
      | startCapture hpc => rw [hout] at hpc; cases hpc
      | endWait hpc => rw [hout] at hpc; cases hpc
      | clearActive hpc => rw [hout] at hpc; cases hpc
      | acked hpc => rw [hout] at hpc; cases hpc
      | again hpc _ _ => rw [hout] at hpc; cases hpc
      | exhausted hpc _ _ => rw [hout] at hpc; cases hpc

theorem quiet_step {s s' : System} {a : SysAct} (h : Quiet s) (hno : ¬ s.inited.Pdm)
    (hC : s.Prepared a) (hs : Step s a s') : Quiet s' := by
  cases hs with
  | @init stmt rest err htodo =>
      obtain ⟨-, hmail, hsend, hactive⟩ := exec_same s rest err stmt
      refine ⟨?_, ?_, ?_, ?_, hsend.trans h.send, hactive.trans h.captureActive⟩
      · rw [hmail]; exact h.sem
      · rw [hmail]; exact h.mutex
      · rw [hmail]; exact h.callers
      · rw [hmail]; exact h.dispatch
  | request hreq _ _ => exact absurd (hC.of_request hreq) hno
  | thread => exact ⟨h.sem, h.mutex, h.callers, h.dispatch, h.send, h.captureActive⟩
  | cfarOn => exact absurd hC hno
  | @cfarOff err =>
      have hactive := (PdmManager.sameAck_verboseStop s.ack.pdm err).captureActive
      exact ⟨h.sem, h.mutex, h.callers, h.dispatch, h.send, hactive.trans h.captureActive⟩
  | mail ha hmail =>
      obtain ⟨t, f, rfl⟩ := h.mail_stuck hmail
      exact absurd ha id
  | send hmail _ =>
      obtain ⟨t, f, heq⟩ := h.mail_stuck hmail
      cases heq
  | sendDone _ hmail =>
      obtain ⟨t, f, heq⟩ := h.mail_stuck hmail
      cases heq
  | @isr evt _ =>
      have hactive := (PdmManager.eventHandler_spec s.ack.pdm evt).2.1
      exact ⟨h.sem, h.mutex, h.callers, h.dispatch, h.send, hactive.trans h.captureActive⟩
  | ack ha hack =>
      obtain ⟨-, hsend, hactive⟩ := handler_of_outside ha h.send hack
      exact ⟨h.sem, h.mutex, h.callers, h.dispatch, hsend, hactive.trans h.captureActive⟩

/-! ### Together -/

structure Inv (s : System) : Prop where
  ordered : Ordered s.todo s.inited.irDriver s.inited.nrfxPdm
  quiet : ¬ s.inited.Pdm → Quiet s

theorem quiet_start (store : AttributeStore) : Quiet (start store) :=
  ⟨rfl, rfl, fun _ => rfl, rfl, rfl, rfl⟩

theorem inv_start (store : AttributeStore) : Inv (start store) where
  ordered := ⟨List.suffix_refl _, fun _ => Or.inr (show _ ∈ initBody by decide),
    fun h => (by cases h)⟩
  quiet := fun _ => quiet_start store

theorem inv_step {s s' : System} {a : SysAct} (h : Inv s) (hC : s.Prepared a)
    (hs : Step s a s') : Inv s' := by
  have hpdm : s.inited.Pdm → s'.inited.Pdm := by
    intro hpdm
    cases hs with
    | init _ => exact exec_pdm _ _ _ hpdm
    | _ => exact hpdm
  refine ⟨?_, ?_⟩
  · cases hs with
    | init htodo => exact ordered_exec _ htodo h.ordered
    | _ => exact h.ordered
  · intro hno
    have hno' : ¬ s.inited.Pdm := fun hyes => hno (hpdm hyes)
    exact quiet_step (h.quiet hno') hno' hC hs

theorem inv_of_reach {store : AttributeStore} {s : System}
    (h : (machine store).Reach Prepared s) : Inv s :=
  h.invariant (inv_start store) fun t a _ hI hC hs =>
    inv_step (s := t) (a := a) hI hC (step_cases hs)

/-- **A step that is prepared is safe**: everything is initialised, or the step touches
nothing that has to be. -/
theorem safe_of_prepared {s s' : System} {a : SysAct} (h : Inv s) (hC : s.Prepared a)
    (hs : Step s a s') : s.Safe a := by
  by_cases hpdm : s.inited.Pdm
  · have hdriver := h.ordered.nrfxPdm hpdm.1
    unfold Safe
    split
    · exact hdriver
    · exact hpdm
    · exact hpdm
    · exact hpdm
    · exact fun _ => hpdm
    · trivial
  · cases hs with
    | cfarOn => exact absurd hC hpdm
    | @ack a _ ha hack =>
        have hhandler := (handler_of_outside ha (h.quiet hpdm).send hack).1
        cases a with
        | transmit => exact absurd hhandler id
        | resetAck => exact absurd hhandler id
        | startCapture _ => exact absurd hhandler id
        | endWait => exact absurd hhandler id
        | _ => trivial
    | _ => trivial

/-! ### The condition is exact -/

/-- Some run from `s` that begins with `a`, and from then on only serves what is under way,
comes to a step that is not safe. -/
def Exposes (store : AttributeStore) (s : System) (a : SysAct) : Prop :=
  ∃ acts t b u, (acts ++ [b]).head? = some a ∧ (∀ c ∈ (acts ++ [b]).tail, c.Service) ∧
    (machine store).run s acts = some t ∧ t.step b = some u ∧ ¬ t.Safe b

section Exposes

variable {store : AttributeStore}

theorem run_mail {acts : List (MailAct Source)} {s : System} {mail : Mailbox Source}
    (hinner : ∀ a ∈ acts, a.Inner) (hrun : (Mailbox.machine Source).run s.mail acts = some mail) :
    (machine store).run s (acts.map .mail) = some { s with mail := mail } := by
  have hstep : ∀ (s : System) (a : MailAct Source) (mail : Mailbox Source), a.Inner →
      (Mailbox.machine Source).step s.mail a = some mail →
        (machine store).step s (.mail a) = some { s with mail := mail } := by
    intro s a mail ha hs
    show s.stepMail a = _
    rw [stepMail_inner s ha, show s.mail.step a = some mail from hs]
    rfl
  exact (machine store).run_component System.mail (fun s mail => { s with mail := mail })
    SysAct.mail (fun _ _ => rfl) (fun _ _ _ => rfl) (fun _ => rfl) hstep hinner hrun

theorem run_ack {acts : List AckAct} {s : System} {ack : AckSystem}
    (hinner : ∀ a ∈ acts, a.Inner) (hrun : AckSystem.machine.run s.ack acts = some ack) :
    (machine store).run s (acts.map .ack) = some { s with ack := ack } := by
  have hstep : ∀ (s : System) (a : AckAct) (ack : AckSystem), a.Inner →
      AckSystem.machine.step s.ack a = some ack →
        (machine store).step s (.ack a) = some { s with ack := ack } := by
    intro s a ack ha hs
    show s.stepAck a = _
    rw [stepAck_inner s ha, show s.ack.step a = some ack from hs]
    rfl
  exact (machine store).run_component System.ack (fun s ack => { s with ack := ack })
    SysAct.ack (fun _ _ => rfl) (fun _ _ _ => rfl) (fun _ => rfl) hstep hinner hrun

theorem inner_requestSteps (t : Source) (f : IrFrame) :
    ∀ a ∈ Mailbox.requestSteps t f, a.Inner := by
  intro a ha
  simp only [Mailbox.requestSteps, Mailbox.copySteps, List.mem_append, List.mem_cons,
    List.mem_replicate, List.not_mem_nil, or_false] at ha
  rcases ha with ((rfl | rfl) | ⟨-, rfl⟩ | rfl) | (rfl | rfl | rfl) | rfl | ⟨-, rfl⟩ | rfl
  all_goals trivial

theorem inner_of_handler {a : AckAct} (ha : a.Handler) : a.Inner := by
  cases a with
  | isr => exact absurd ha id
  | verboseStart => exact absurd ha id
  | verboseStop => exact absurd ha id
  | call => exact absurd ha id
  | _ => trivial

variable (store) in
/-- A request that finds nobody inside can be followed to the first `ir_transmit`. -/
theorem run_to_transmit {s s' : System} {a : ThreadAct} {r : Source × AcState} (h : Quiet s)
    (hs : s.step (.thread a) = some s') (hreq : s.threads.requested a = some r) :
    ∃ acts t, (∀ c ∈ acts, c.Service) ∧ (machine store).run s (.thread a :: acts) = some t ∧
      t.inited = s.inited ∧ t.ack.send = .transmit 1 ∧ t.ack.work = .idle := by
  cases step_cases hs with
  | thread hnone _ _ => rw [hreq] at hnone; cases hnone
  | @request _ t state threads mail _ _ hmail =>
      -- The command reaches the dispatch thread, and the handler finishes what it is at.
      obtain ⟨mail₁, hrun, hunlocked⟩ :=
        Mailbox.run_request (h.callers t) h.mutex h.dispatch (.ofState state)
      rw [Machine.run_cons_of_step (Mailbox.machine Source)
        (show (Mailbox.machine Source).step s.mail (.call t _) = some mail from hmail)] at hrun
      obtain ⟨handler, ack₁, hhandler, hidle, hsend, hacts⟩ := AckSystem.handler_done s.ack
      have hout : ack₁.send = .outside := hsend.trans h.send
      let requested : System := { s with threads := threads, mail := mail }
      let copied : System := { requested with mail := mail₁ }
      let idle : System := { copied with ack := ack₁ }
      have hrun₁ : (machine store).run requested _ = some copied :=
        run_mail (inner_requestSteps t _) hrun
      have hrun₂ : (machine store).run copied _ = some idle :=
        run_ack (fun b hb => inner_of_handler (hacts b hb)) hhandler
      have hstep : ∃ mail₂ ack₂, idle.step (.mail .send)
          = some { idle with mail := mail₂, ack := ack₂ } ∧ ack₂.send = .transmit 1 ∧
            ack₂.work = .idle := by
        refine ⟨{ mail₁ with
            sent := mail₁.sent ++ [(mail₁.activeNo, mail₁.activePulses)], dispatch := .sending },
          { ack₁ with frame := mail₁.activePulses, send := .transmit 1, log := ⟨[], []⟩ },
          ?_, rfl, hidle⟩
        simp [step, stepMail, Mailbox.step, AckSystem.step, AckSystem.workStep,
          AckSystem.sendStep, idle, copied, hunlocked, hidle, hout]
      obtain ⟨mail₂, ack₂, hcall, htransmit, hidle₂⟩ := hstep
      refine ⟨(Mailbox.requestSteps t (.ofState state)).map .mail ++
        (handler.map .ack ++ [.mail .send]), { idle with mail := mail₂, ack := ack₂ }, ?_, ?_, rfl,
        htransmit, hidle₂⟩
      · intro c hc
        simp only [List.mem_append, List.mem_map, List.mem_singleton] at hc
        rcases hc with ⟨b, -, rfl⟩ | ⟨b, hb, rfl⟩ | rfl
        · trivial
        · exact inner_of_handler (hacts b hb)
        · trivial
      · rw [Machine.run_cons_of_step _ hs, Machine.run_append_of_run _ hrun₁,
          Machine.run_append_of_run _ hrun₂]
        exact Machine.run_cons_of_step _ hcall []

/-- **A request that comes too early** can be followed to a step that is not safe: to
`ir_transmit` itself, or else to the semaphore right after it. -/
theorem exposes_request {s s' : System} {a : ThreadAct} {r : Source × AcState} (h : Quiet s)
    (hno : ¬ s.inited.Pdm) (hs : s.step (.thread a) = some s')
    (hreq : s.threads.requested a = some r) : Exposes store s (.thread a) := by
  obtain ⟨acts, t, hservice, hrun, hinited, hsend, hidle⟩ := run_to_transmit store h hs hreq
  have hstep : ∃ ack, t.step (.ack .transmit) = some { t with ack := ack } ∧
      ack.send = .resetAck 1 ∧ ack.work = .idle := by
    refine ⟨{ t.ack with
      send := .resetAck 1
      log := { t.ack.log with transmitted := t.ack.log.transmitted ++ [t.ack.frame] } },
      ?_, rfl, hidle⟩
    simp [step, stepAck, AckSystem.step, AckSystem.workStep, AckSystem.sendStep, hsend, hidle]
  obtain ⟨ack, htransmit, hreset, hidle'⟩ := hstep
  by_cases hdriver : s.inited.irDriver = true
  · let sent : System := { t with ack := ack }
    have hstep' : ∃ u, sent.step (.ack .resetAck) = some u := by
      refine Option.isSome_iff_exists.mp ?_
      simp [step, stepAck, AckSystem.step, AckSystem.workStep, AckSystem.sendStep, sent, hreset,
        hidle']
    obtain ⟨u, hu⟩ := hstep'
    refine ⟨.thread a :: acts ++ [.ack .transmit], sent, .ack .resetAck, u, rfl, ?_, ?_, hu, ?_⟩
    · intro c hc
      simp only [List.cons_append, List.tail_cons, List.mem_append, List.mem_singleton] at hc
      rcases hc with (hc | rfl) | rfl
      · exact hservice c hc
      · trivial
      · trivial
    · rw [Machine.run_append_of_run _ hrun]
      exact Machine.run_cons_of_step _ htransmit []
    · intro hsafe
      have hpdm : t.inited.Pdm := hsafe
      rw [hinited] at hpdm
      exact hno hpdm
  · refine ⟨.thread a :: acts, t, .ack .transmit, _, rfl, ?_, hrun, htransmit, ?_⟩
    · intro c hc
      simp only [List.cons_append, List.tail_cons, List.mem_append, List.mem_singleton] at hc
      rcases hc with hc | rfl
      · exact hservice c hc
      · trivial
    · intro hsafe
      have hon : t.inited.irDriver = true := hsafe
      rw [hinited] at hon
      exact hdriver hon

theorem exposes_of_not_prepared {s s' : System} {a : SysAct} (h : Inv s)
    (hs : s.step a = some s') (hnot : ¬ s.Prepared a) : Exposes store s a := by
  cases a with
  | thread a =>
      cases a with
      | acOff => exact exposes_request (h.quiet hnot) hnot hs rfl
      | dispatch =>
          cases step_cases hs with
          | request hreq _ _ => exact exposes_request (h.quiet hnot) hnot hs hreq
          | thread hreq _ hthreads =>
              cases Threads.step_cases hthreads with
              | dispatch hpc =>
                  simp only [Threads.requested, hpc] at hreq
                  cases hreq
      | _ => exact absurd trivial hnot
  | cfarOn err =>
      have hclosed := (h.quiet hnot).captureActive
      exact ⟨[], s, .cfarOn err, s', rfl, by simp, rfl, hs, fun hsafe => hnot (hsafe hclosed)⟩
  | _ => exact absurd trivial hnot

theorem Prepared.of_service {s : System} {a : SysAct} (ha : a.Service) : s.Prepared a := by
  cases a with
  | mail _ => trivial
  | ack _ => trivial
  | init _ => exact absurd ha id
  | thread _ => exact absurd ha id
  | cfarOn _ => exact absurd ha id
  | cfarOff _ => exact absurd ha id

/-- What follows from a step that is prepared is safe as well. -/
theorem not_exposes_of_prepared {s : System} {a : SysAct} (h : (machine store).Reach Prepared s)
    (hC : s.Prepared a) : ¬ Exposes store s a := by
  rintro ⟨acts, t, b, u, hhead, hservice, hrun, hs, hunsafe⟩
  cases acts with
  | nil =>
      obtain rfl : b = a := Option.some.inj hhead
      obtain rfl : s = t := Option.some.inj hrun
      exact hunsafe (safe_of_prepared (inv_of_reach h) hC (step_cases hs))
  | cons c rest =>
      obtain rfl : c = a := Option.some.inj hhead
      obtain ⟨s', hfirst, hrest⟩ := Option.bind_eq_some_iff.mp hrun
      have hprepared : ∀ c ∈ rest ++ [b], ∀ v, Prepared v c :=
        fun c hc v => Prepared.of_service (hservice c hc)
      have ht : (machine store).Reach Prepared t :=
        (h.step hC hfirst).run (fun c hc => hprepared c (List.mem_append_left _ hc)) hrest
      have hb := hprepared b (List.mem_append_right _ List.mem_cons_self) t
      exact hunsafe (safe_of_prepared (inv_of_reach ht) hb (step_cases hs))

end Exposes

/-! ### The result -/

/-- **Nothing is used before it is initialised**, in every run in which each command is
dispatched and verbose output is switched on only after `pdm_manager_init` has initialised the
driver, the work item and the semaphore.  The condition is exact: the first request that comes
before that, and no other step, is followed to a use that is too early by merely serving it. -/
theorem init_before_use {store : AttributeStore} {s s' : System} {a : SysAct}
    (h : (machine store).Reach Prepared s) (hs : s.step a = some s') :
    (s.Prepared a → s.Safe a) ∧ (Exposes store s a ↔ ¬ s.Prepared a) := by
  have hinv := inv_of_reach h
  refine ⟨?_, ?_, ?_⟩
  · intro hC
    exact safe_of_prepared hinv hC (step_cases hs)
  · intro hexposes hC
    exact not_exposes_of_prepared h hC hexposes
  · intro hnot
    exact exposes_of_not_prepared hinv hs hnot

/-- Verbose output, switched on after a boot without errors. -/
theorem init_before_use_cfar : ∃ s, (machine coolingStore).run (start coolingStore)
      (List.replicate 14 (.init 0)) = some s ∧
    s.ack.pdm.captureActive = false ∧ s.Prepared (.cfarOn 0) ∧ s.Safe (.cfarOn 0) := by
  obtain ⟨s, hrun, hactive, hprepared, s', hs⟩ : ∃ s, (machine coolingStore).run
      (start coolingStore) (List.replicate 14 (.init 0)) = some s ∧
      s.ack.pdm.captureActive = false ∧ s.Prepared (.cfarOn 0) ∧
      ∃ s', s.step (.cfarOn 0) = some s' :=
    ⟨_, rfl, rfl, ⟨rfl, rfl, rfl⟩, _, rfl⟩
  have hreach : (machine coolingStore).Reach Prepared s := by
    refine Machine.Reach.run Machine.Reach.init (fun a ha u => ?_) hrun
    rw [List.eq_of_mem_replicate ha]
    trivial
  exact ⟨s, hrun, hactive, hprepared, (init_before_use hreach hs).1 hprepared⟩

/-- A boot in which `pdm_manager_init` gives up at once, and a write after it. -/
def failedBoot : List SysAct :=
  List.replicate 6 (.init 0) ++ [.init (-19)] ++ List.replicate 12 (.thread .ready) ++
    [.thread (.write ⟨fanModeAttr, .enum8 1⟩), .thread .callback, .thread .compare]

/-- The shell's `ac off` at kernel start comes to `ir_transmit` before `ir_driver_init`; and
after a failed boot the gate is up, so that a Matter callback comes to the semaphore. -/
theorem off_before_init :
    (∃ acts s s', (∀ c ∈ acts, c.Service) ∧
      (machine coolingStore).run (start coolingStore) (.thread .acOff :: acts) = some s ∧
      s.step (.ack .transmit) = some s' ∧ ¬ s.Safe (.ack .transmit)) ∧
    ∃ s, (machine coolingStore).run (start coolingStore) failedBoot = some s ∧
      s.threads.irReady = true ∧ Exposes coolingStore s (.thread .dispatch) := by
  constructor
  · obtain ⟨t, ht⟩ : ∃ t, (start coolingStore).step (.thread .acOff) = some t := ⟨_, rfl⟩
    obtain ⟨acts, s, hservice, hrun, hinited, hsend, hidle⟩ :=
      run_to_transmit coolingStore (quiet_start coolingStore) ht rfl
    have hstep : ∃ s', s.step (.ack .transmit) = some s' := by
      refine Option.isSome_iff_exists.mp ?_
      simp [step, stepAck, AckSystem.step, AckSystem.workStep, AckSystem.sendStep, hsend, hidle]
    obtain ⟨s', hs⟩ := hstep
    refine ⟨acts, s, s', hservice, hrun, hs, ?_⟩
    intro hsafe
    have hon : s.inited.irDriver = true := hsafe
    rw [hinited] at hon
    cases hon
  · obtain ⟨s, s', state, hrun, hready, hs, hreq, hno, hsend, hactive, hmail⟩ :
        ∃ s s' state, (machine coolingStore).run (start coolingStore) failedBoot = some s ∧
          s.threads.irReady = true ∧ s.step (.thread .dispatch) = some s' ∧
          s.threads.requested .dispatch = some (.matter, state) ∧ s.inited.nrfxPdm = false ∧
          s.ack.send = .outside ∧ s.ack.pdm.captureActive = false ∧ s.mail = .start :=
      ⟨_, _, _, rfl, rfl, rfl, rfl, rfl, rfl, rfl, rfl⟩
    have hquiet : Quiet s := by
      refine ⟨?_, ?_, ?_, ?_, hsend, hactive⟩
      all_goals rw [hmail]
      · rfl
      · rfl
      · exact fun _ => rfl
      · rfl
    refine ⟨s, hrun, hready, exposes_request hquiet ?_ hs hreq⟩
    intro hpdm
    rw [Inited.Pdm, hno] at hpdm
    cases hpdm.1

end System

end Shirokumakun
