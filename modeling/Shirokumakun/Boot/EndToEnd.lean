/-
From a client's write to the frame on the air.

The other files look at one machine each.  Here they are put together along the way of a
command: the bridge or the shell requests it, the mailbox enqueues and sends it, and
`ir_send_command` transmits it until it is acknowledged.

  * Nothing else is ever on the air: every frame transmitted was requested, and a receiver
    reads it as the state that was meant (`transmitted_requested`).
  * Every request can be served, and when everything has come to rest all of them were
    enqueued, and the last call of `ir_send_command` was for the one enqueued last
    (`requests_served`).
  * So the unit follows the attributes: without `ac off`, at rest, the last frame on the air
    is that of the current state, unless nothing had to be sent (`unit_follows`).

The last two are about runs in which nothing is requested before the microphone is
initialised, which is when the acknowledgements mean something.
-/
import Shirokumakun.Boot.Progress
import Shirokumakun.Boot.Wiring
import Shirokumakun.Bridge.BootWindow
import Shirokumakun.IrCodec
import Shirokumakun.Mailbox.Delivery

namespace Shirokumakun

open Transition

/-! ### What is requested -/

/-- A command that is requested says what it says: it is `ac off`, or derived from some
attributes. -/
def Meant (f : IrFrame) : Prop :=
  ∃ state, f = .ofState state ∧ (state = acOff ∨ ∃ store, state = derive store)

namespace Threads

/-- Everything requested, or about to be, is meant. -/
structure AllMeant (s : Threads) : Prop where
  frames : ∀ f ∈ s.frames, Meant f
  derived : ∀ state, s.matter = .derived state → ∃ store, state = derive store
  sending : ∀ state, s.matter = .sending state → ∃ store, state = derive store

theorem allMeant_step {s s' : Threads} {a : ThreadAct} (h : AllMeant s) (hs : Step s a s') :
    AllMeant s' := by
  have hnew : ∀ {frames : List IrFrame} {state : AcState}, (∀ f ∈ frames, Meant f) →
      (state = acOff ∨ ∃ store, state = derive store) →
      ∀ f ∈ frames ++ [.ofState state], Meant f := by
    intro frames state hframes hstate f hf
    rcases List.mem_append.mp hf with hold | hlast
    · exact hframes f hold
    · exact ⟨state, List.mem_singleton.mp hlast, hstate⟩
  cases hs with
  | write _ => exact ⟨h.frames, by simp, by simp⟩
  | enter _ _ _ =>
      refine ⟨h.frames, ?_, by simp⟩
      intro state hstate
      exact ⟨s.store, (MatterPc.derived.inj hstate).symm⟩
  | drop _ _ => exact ⟨h.frames, by simp, by simp⟩
  | skip _ _ => exact ⟨h.frames, by simp, by simp⟩
  | @differ state hm _ =>
      refine ⟨h.frames, by simp, ?_⟩
      intro state' hstate
      rw [← MatterPc.sending.inj hstate]
      exact h.derived state hm
  | @dispatch state hm =>
      exact ⟨hnew h.frames (Or.inr (h.sending state hm)), by simp, by simp⟩
  | remember _ => exact ⟨h.frames, by simp, by simp⟩
  | acOff => exact ⟨hnew h.frames (Or.inl rfl), h.derived, h.sending⟩
  | ready _ => exact ⟨h.frames, h.derived, h.sending⟩

theorem allMeant_of_reach {store : AttributeStore} {s : Threads}
    (h : (machine (booting store)).Reachable s) : AllMeant s :=
  h.invariant ⟨by simp [machine, booting], by simp [machine, booting], by simp [machine, booting]⟩
    fun t a _ hI _ hs => allMeant_step (s := t) (a := a) hI (step_cases hs)

end Threads

/-- A frame that is meant is read as what was meant. -/
theorem Meant.reads {f : IrFrame} (h : Meant f) : ∃ w : WireState, f = .ofState w.toAcState ∧
    16 ≤ w.tempC ∧ w.tempC ≤ 30 ∧ decodeFrame f.pulses = some (normalise w.toAcState) := by
  obtain ⟨state, rfl, hstate⟩ := h
  obtain ⟨w, rfl, hlow, hhigh⟩ : ∃ w : WireState, w.toAcState = state ∧
      16 ≤ w.tempC ∧ w.tempC ≤ 30 := by
    rcases hstate with rfl | ⟨store, rfl⟩
    · exact ⟨⟨acOff, by decide, by decide, by decide⟩, rfl, by decide, by decide⟩
    · obtain ⟨w, hw⟩ := derive_wire store
      have htemp := derive_tempC store
      rw [← hw] at htemp
      exact ⟨w, hw, htemp⟩
  exact ⟨w, rfl, hlow, hhigh, decodeFrame_framePulses w⟩

/-! ### At rest, in the mailbox -/

namespace Mailbox

/-- The last command sent is the one that was copied last. -/
theorem sent_last {m : Mailbox Source} (h : (machine Source).Reachable m)
    (hloaded : m.dispatch.loaded = false) (hno : m.activeNo ≠ 0) :
    ∃ ps, m.sent.getLast? = some (m.activeNo, ps) := by
  have hlast := (Slot.Box.inv_of_reach (box_reachable h)).last hloaded hno
  have hnumbers : m.box.delivered = m.sent.map Prod.fst := rfl
  rw [hnumbers, List.getLast?_map] at hlast
  obtain ⟨e, he, hfst⟩ := Option.map_eq_some_iff.mp hlast
  have hno' : e.1 = m.activeNo := hfst
  refine ⟨e.2, ?_⟩
  rw [he, ← hno']

/-- With nobody inside and no wake-up left, the command sent last is the one enqueued last. -/
theorem sent_of_rest {m : Mailbox Source} (h : (machine Source).Reachable m)
    (hcallers : ∀ t, m.caller t = .outside) (hdispatch : m.dispatch = .waiting) (hsem : m.sem = 0)
    {f : IrFrame} (hf : m.enqueued.getLast? = some f) :
    (m.sent.map Prod.snd).getLast? = some f.pulses := by
  have hinv := inv_of_reach h
  have hno := newest_copied hinv hcallers hdispatch hsem
  have hpos : m.activeNo ≠ 0 := by
    intro hzero
    rw [hno] at hzero
    rw [List.length_eq_zero_iff.mp hzero] at hf
    cases hf
  obtain ⟨ps, hps⟩ := sent_last h (by rw [hdispatch]; rfl) hpos
  obtain ⟨-, g, hg, hpulses⟩ := hinv.sent _ (List.mem_of_getLast? hps)
  dsimp only at hg hpulses
  rw [hno, ← List.getLast?_eq_getElem?, hf] at hg
  obtain rfl := Option.some.inj hg
  rw [List.getLast?_map, hps, Option.map_some, hpulses]

end Mailbox

namespace System

/-! ### Where the frames come from -/

/-- What is requested of the whole program is meant. -/
theorem meant_of_reach {store : AttributeStore} {s : System} (h : (machine store).Reachable s)
    {ps : List IrPulse} (hps : ps ∈ s.ack.calls) :
    ∃ f ∈ s.threads.frames, f.pulses = ps ∧ Meant f := by
  have hwired := wired_of_reach h
  rw [← hwired.sent] at hps
  obtain ⟨e, he, rfl⟩ := List.mem_map.mp hps
  obtain ⟨-, f, hf, hpulses⟩ := (Mailbox.inv_of_reach (mail_of_reach h)).sent e he
  have hmem : f ∈ s.threads.frames := by
    refine hwired.requests.subset ?_
    exact List.mem_append_left _ (List.mem_of_getElem? hf)
  exact ⟨f, hmem, hpulses.symm, (Threads.allMeant_of_reach (threads_of_reach h)).frames f hmem⟩

/-! ### The acknowledgements, from kernel start on -/

/-- The semaphore is initialised once. -/
theorem ackSem_exec {s : System} {stmt : InitStmt} {rest : List InitStmt} (err : Int)
    (htodo : s.todo = stmt :: rest) (hsuffix : s.todo <:+ initBody)
    (h : InitStmt.semInit ∈ s.todo → s.inited.ackSem = false) :
    InitStmt.semInit ∈ (s.exec rest err stmt).todo →
      (s.exec rest err stmt).inited.ackSem = false := by
  have htails : ∀ todo ∈ initBody.tails, todo.head? = some .semInit →
      InitStmt.semInit ∉ todo.tail := by
    decide
  rw [htodo] at hsuffix h
  have hrest : InitStmt.semInit ∈ rest → s.inited.ackSem = false :=
    fun hmem => h (List.mem_cons_of_mem _ hmem)
  cases stmt with
  | hwPairingInit | prepareServer | startServer | deviceIsReady | gpioPinConfigure | nrfxPdmInit =>
      simp only [exec]
      split
      · first
          | exact hrest
          | exact fun hmem => absurd hmem List.not_mem_nil
      · first
          | exact hrest
          | exact fun hmem => absurd hmem List.not_mem_nil
  | semInit => exact fun hmem => absurd hmem (htails _ ((List.mem_tails _ _).mpr hsuffix) rfl)
  | _ => exact hrest

/-- `AppTask::Init` keeps what the acknowledgements rest on, if no command is on its way
when it initialises the semaphore. -/
theorem ackInv_exec {s : System} {rest : List InitStmt} (err : Int) {stmt : InitStmt}
    (h : AckSystem.Inv s.ack) (hquiet : stmt = .semInit → s.ack.send = .outside) :
    AckSystem.Inv (s.exec rest err stmt).ack := by
  cases stmt with
  | hwPairingInit | prepareServer | startServer | deviceIsReady | gpioPinConfigure | nrfxPdmInit =>
      simp only [exec]
      split
      · exact h
      · exact h
  | workInit => exact h.of_sameAck ⟨rfl, rfl, rfl, rfl⟩
  | semInit =>
      have hsend := hquiet rfl
      refine ⟨h.fresh.of_same rfl rfl rfl rfl rfl rfl, h.capture, ?_, h.log, h.returned⟩
      exact .of_closed (by simp [exec, hsend]) (by simp [exec, hsend, SendPc.Counting])
  | _ => exact h

/-- **The acknowledgements are sound from kernel start on**, as long as nothing is requested
before the microphone is initialised. -/
theorem ackInv_of_reach {store : AttributeStore} {s : System}
    (h : (machine store).Reach Prepared s) : AckSystem.Inv s.ack := by
  refine (h.invariant_from (I := fun t => AckSystem.Inv t.ack ∧
    (InitStmt.semInit ∈ t.todo → t.inited.ackSem = false)) (fun _ hr => inv_of_reach hr)
    ⟨AckSystem.inv_start, fun _ => rfl⟩ ?_).1
  intro t a t' hinv hI _ hs
  obtain ⟨hack, hsem⟩ := hI
  cases step_cases (s := t) (a := a) hs with
  | @init stmt rest err htodo =>
      refine ⟨ackInv_exec err hack ?_, ackSem_exec err htodo hinv.ordered.suffix hsem⟩
      rintro rfl
      refine (hinv.quiet fun hpdm => ?_).send
      have hoff := hsem (by rw [htodo]; exact List.mem_cons_self)
      rw [hpdm.2.2] at hoff
      cases hoff
  | request _ _ _ => exact ⟨hack, hsem⟩
  | thread _ _ _ => exact ⟨hack, hsem⟩
  | cfarOn => exact ⟨AckSystem.inv_step hack .verboseStart, hsem⟩
  | cfarOff => exact ⟨AckSystem.inv_step hack .verboseStop, hsem⟩
  | mail _ _ => exact ⟨hack, hsem⟩
  | send _ hcall => exact ⟨AckSystem.inv_step hack (AckSystem.step_cases hcall), hsem⟩
  | sendDone _ _ => exact ⟨hack, hsem⟩
  | isr _ => exact ⟨AckSystem.inv_step hack .isr, hsem⟩
  | ack _ hstep => exact ⟨AckSystem.inv_step hack (AckSystem.step_cases hstep), hsem⟩

/-! ### At rest, in the whole program -/

theorem outside_of_rest {s : System} (hwired : Wired s) (h : AtRest s) :
    s.ack.send = .outside := by
  by_contra hinside
  have hsending := hwired.busy hinside
  rw [h.dispatch] at hsending
  cases hsending

/-- At rest every request is enqueued. -/
theorem enqueued_of_rest {s : System} (hwired : Wired s) (h : AtRest s) :
    s.mail.enqueued.Perm s.threads.frames := by
  have hperm := hwired.requests
  rw [Mailbox.requests, Mailbox.outstanding, h.callers, h.callers] at hperm
  simpa [CallerPc.waiting] using hperm

/-- At rest the last call of `ir_send_command` was for the command enqueued last. -/
theorem returned_of_rest {store : AttributeStore} {s : System}
    (h : (machine store).Reach Prepared s) (hrest : AtRest s) {f : IrFrame}
    (hf : s.mail.enqueued.getLast? = some f) :
    ∃ c, s.ack.returned.getLast? = some c ∧ c.frame = f.pulses ∧ AckSystem.ResultOk c := by
  have hreach := h.mono fun _ _ _ => trivial
  have hwired := wired_of_reach hreach
  have hlast := Mailbox.sent_of_rest (mail_of_reach hreach) hrest.callers hrest.dispatch
    hrest.sem hf
  rw [hwired.sent, AckSystem.calls_of_outside (outside_of_rest hwired hrest), List.getLast?_map]
    at hlast
  obtain ⟨c, hc, hframe⟩ := Option.map_eq_some_iff.mp hlast
  exact ⟨c, hc, hframe, (ackInv_of_reach h).returned c (List.mem_of_getLast? hc)⟩

theorem rest_of_reach {store : AttributeStore} {C : System → SysAct → Prop} {s : System}
    (h : (machine store).Reach C s) (hC : ∀ t a, a.Service → C t a) :
    ∃ t, (machine store).Reach C t ∧ AtRest t ∧ t.threads = s.threads := by
  obtain ⟨acts, t, hservice, hrun, hrest, hthreads⟩ := run_to_rest (h.mono fun _ _ _ => trivial)
  exact ⟨t, h.run (fun a ha u => hC u a (hservice a ha)) hrun, hrest, hthreads⟩

/-- `ac off` after a boot without errors, served. -/
theorem served_off : ∃ s, (machine coolingStore).Reach Prepared s ∧ AtRest s ∧
    s.threads.frames = [offFrame] := by
  obtain ⟨s, s', hrun, hprepared, hs, hframes⟩ : ∃ s s', (machine coolingStore).run
      (start coolingStore) (List.replicate 14 (.init 0)) = some s ∧
      s.Prepared (.thread .acOff) ∧ s.step (.thread .acOff) = some s' ∧
      s'.threads.frames = [offFrame] :=
    ⟨_, _, rfl, ⟨rfl, rfl, rfl⟩, rfl, rfl⟩
  have hreach : (machine coolingStore).Reach Prepared s := by
    refine Machine.Reach.init.run (fun a ha u => ?_) hrun
    rw [List.eq_of_mem_replicate ha]
    trivial
  obtain ⟨t, ht, hrest, hthreads⟩ :=
    rest_of_reach (hreach.step hprepared hs) fun _ _ => Prepared.of_service
  exact ⟨t, ht, hrest, by rw [hthreads, hframes]⟩

/-! ### What is on the air, and what is served -/

/-- **Nothing else is on the air**: whatever is transmitted in any run was requested by the
bridge or the shell, and is read as the state that was meant. -/
theorem transmitted_requested {store : AttributeStore} {s : System}
    (h : (machine store).Reachable s) {ps : List IrPulse} (hps : ps ∈ s.ack.onAir) :
    ∃ w : WireState, IrFrame.ofState w.toAcState ∈ s.threads.frames ∧
      decodeFrame ps = some (normalise w.toAcState) ∧ 16 ≤ w.tempC ∧ w.tempC ≤ 30 := by
  obtain ⟨f, hf, rfl, hmeant⟩ := meant_of_reach h ((wired_of_reach h).onAir ps hps)
  obtain ⟨w, rfl, hlow, hhigh, hreads⟩ := hmeant.reads
  exact ⟨w, hf, hreads, hlow, hhigh⟩

/-- The `ac off` on the air is read as what it says. -/
theorem transmitted_requested_off : ∃ (s : System) (ps : List IrPulse), ps ∈ s.ack.onAir ∧
    s.threads.frames = [offFrame] ∧
    ∃ w : WireState, IrFrame.ofState w.toAcState ∈ s.threads.frames ∧
      decodeFrame ps = some (normalise w.toAcState) ∧ 16 ≤ w.tempC ∧ w.tempC ≤ 30 := by
  obtain ⟨s, h, hrest, hframes⟩ := served_off
  have hreach := h.mono fun _ _ _ => trivial
  have hperm := enqueued_of_rest (wired_of_reach hreach) hrest
  rw [hframes, List.perm_singleton] at hperm
  obtain ⟨c, hc, -, hok⟩ := returned_of_rest h hrest (f := offFrame) (by rw [hperm]; rfl)
  have hair : c.frame ∈ s.ack.onAir := by
    refine List.mem_append_left _ (List.mem_flatMap.mpr ⟨c, List.mem_of_getLast? hc, ?_⟩)
    rw [hok.transmitted]
    exact List.mem_replicate.mpr ⟨Nat.ne_of_gt hok.lower, rfl⟩
  exact ⟨s, c.frame, hair, hframes, transmitted_requested hreach hair⟩

/-- **Every request is served**: from every state the program can be brought to rest without
another request, and in every state at rest all that was requested is enqueued, and the last
call of `ir_send_command` was for the command enqueued last, transmitted until the first
acknowledgement or ten times. -/
theorem requests_served {store : AttributeStore} {s : System}
    (h : (machine store).Reach Prepared s) :
    (∃ acts t, (∀ a ∈ acts, a.Service) ∧ (machine store).run s acts = some t ∧
      AtRest t ∧ t.threads = s.threads) ∧
    (AtRest s → s.mail.enqueued.Perm s.threads.frames ∧
      ∀ f, s.mail.enqueued.getLast? = some f →
        ∃ c, s.ack.returned.getLast? = some c ∧ c.frame = f.pulses ∧
          AckSystem.ResultOk c) := by
  have hreach := h.mono fun _ _ _ => trivial
  refine ⟨run_to_rest hreach, fun hrest => ⟨?_, fun f hf => returned_of_rest h hrest hf⟩⟩
  exact enqueued_of_rest (wired_of_reach hreach) hrest

/-- Served, the `ac off` is what `ir_send_command` was called with. -/
theorem requests_served_off : ∃ s c, (machine coolingStore).Reach Prepared s ∧
    s.threads.frames = [offFrame] ∧ s.ack.returned.getLast? = some c ∧
    c.frame = offFrame.pulses ∧ AckSystem.ResultOk c := by
  obtain ⟨s, h, hrest, hframes⟩ := served_off
  obtain ⟨hperm, hlast⟩ := (requests_served h).2 hrest
  rw [hframes, List.perm_singleton] at hperm
  obtain ⟨c, hc, hframe, hok⟩ := hlast offFrame (by rw [hperm]; rfl)
  exact ⟨s, c, h, hframes, hc, hframe, hok⟩

/-! ### The unit follows the attributes -/

/-- Nothing is requested too early, and the shell's `ac off` is not issued. -/
def Calm (s : System) (a : SysAct) : Prop := s.Prepared a ∧ a ≠ .thread .acOff

theorem noOff_of_reach {store : AttributeStore} {s : System} (h : (machine store).Reach Calm s) :
    (Threads.machine (.booting store)).Reach Threads.NoOff s.threads :=
  h.simulate (J := fun _ => True) threads (fun _ _ => trivial) rfl fun s a s' _ hC hs => by
    have hne : ∀ {b : ThreadAct}, a = .thread b → Threads.NoOff s.threads b := by
      rintro b rfl rfl
      exact hC.2 rfl
    cases step_cases (s := s) (a := a) hs with
    | init h => exact Or.inl (exec_same s _ _ _).1
    | request _ hthreads _ => exact Or.inr ⟨_, hne rfl, hthreads⟩
    | thread _ _ hthreads => exact Or.inr ⟨_, hne rfl, hthreads⟩
    | _ => exact Or.inl rfl

end System

/-- Without the shell the mailbox gets the requests in their order. -/
structure Mailbox.InOrder (caller : Source → CallerPc) (enqueued frames : List IrFrame) :
    Prop where
  shell : caller .shell = .outside
  frames : frames = enqueued ++ (caller .matter).waiting

theorem Mailbox.inOrder_step {m m' : Mailbox Source} {a : MailAct Source}
    {frames : List IrFrame} (h : InOrder m.caller m.enqueued frames) (hs : Step m a m')
    (hcall : ∀ f, a ≠ .call .shell f) :
    InOrder m'.caller m'.enqueued (frames ++ a.requested) := by
  obtain ⟨hshell, hframes⟩ := h
  have hmatter : ∀ {t : Source}, m.caller t ≠ .outside → t = .matter := by
    intro t ht
    cases t with
    | matter => rfl
    | shell => exact absurd hshell ht
  have hmoved : ∀ pc : CallerPc, m.moved .matter pc .shell = .outside := by
    intro pc
    rw [moved_of_ne m pc (by simp)]
    exact hshell
  -- Between enqueueing and returning the bridge has nothing on its way.
  have hstay : ∀ {t : Source} {pc : CallerPc}, m.caller t ≠ .outside →
      (m.caller t).waiting = [] → pc.waiting = [] →
        InOrder (m.moved t pc) m.enqueued (frames ++ []) := by
    intro t pc ht hbefore hafter
    obtain rfl := hmatter ht
    rw [hbefore] at hframes
    exact ⟨hmoved _, by rw [moved_self, hafter, hframes, List.append_nil]⟩
  cases hs with
  | @call t f hpc =>
      cases t with
      | shell => exact absurd rfl (hcall f)
      | matter =>
          rw [hpc] at hframes
          exact ⟨hmoved (.called f), by simp [hframes, CallerPc.waiting, MailAct.requested]⟩
  | @lock t f hpc _ =>
      obtain rfl := hmatter (t := t) (by simp [hpc])
      rw [hpc] at hframes
      exact ⟨hmoved (.locked f), by simp [hframes, CallerPc.waiting, MailAct.requested]⟩
  | writeCount hpc => exact hstay (by simp [hpc]) (by rw [hpc]; rfl) rfl
  | writePulse hpc _ => exact hstay (by simp [hpc]) (by rw [hpc]; rfl) rfl
  | unlock hpc => exact hstay (by simp [hpc]) (by rw [hpc]; rfl) rfl
  | give hpc => exact hstay (by simp [hpc]) (by rw [hpc]; rfl) rfl
  | _ => exact ⟨hshell, by simpa [MailAct.requested] using hframes⟩

namespace System

theorem inOrder_of_reach {store : AttributeStore} {s : System}
    (h : (machine store).Reach Calm s) :
    Mailbox.InOrder s.mail.caller s.mail.enqueued s.threads.frames := by
  refine h.invariant (I := fun t => Mailbox.InOrder t.mail.caller t.mail.enqueued t.threads.frames)
    ⟨rfl, rfl⟩ ?_
  intro t a t' hI hC hs
  have hmail : ∀ {b : MailAct Source} {mail : Mailbox Source}, t.mail.step b = some mail →
      b.requested = [] → Mailbox.InOrder mail.caller mail.enqueued t.threads.frames := by
    intro b mail hb hreq
    have hstep := Mailbox.inOrder_step hI (Mailbox.step_cases hb) (by
      rintro f rfl
      cases hreq)
    rwa [hreq, List.append_nil] at hstep
  cases step_cases (s := t) (a := a) hs with
  | @init stmt rest err _ =>
      obtain ⟨hthreads, hsame, -⟩ := exec_same t rest err stmt
      rw [hthreads, hsame]
      exact hI
  | @request b source state threads mail hreq hthreads hcall =>
      rw [Threads.frames_step (Threads.step_cases hthreads), hreq]
      refine Mailbox.inOrder_step hI (Mailbox.step_cases hcall) ?_
      rintro f heq
      obtain ⟨rfl, -⟩ := MailAct.call.inj heq
      -- Only `ac off` comes from the shell.
      cases b with
      | acOff => exact hC.2 rfl
      | dispatch =>
          simp only [Threads.requested] at hreq
          split at hreq <;> cases hreq
      | _ => cases hreq
  | thread hreq _ hthreads =>
      rw [Threads.frames_step (Threads.step_cases hthreads), hreq, Option.map_none,
        Option.toList_none, List.append_nil]
      exact hI
  | mail ha hb => exact hmail hb (requested_of_inner ha).1
  | send hb _ => exact hmail hb rfl
  | sendDone _ hb => exact hmail hb rfl
  | _ => exact hI

/-- **The unit follows the attributes**: with the gate open, no callback in progress and
everything at rest, the last call of `ir_send_command` was for the frame of the current
state, unless nothing was ever transmitted and the current state is the one recorded at
boot.  This is so once a callback has gone past the gate, or from the start if no attribute
was written before the gate opened. -/
theorem unit_follows {store : AttributeStore} {s : System} (h : (machine store).Reach Calm s)
    (hready : s.threads.irReady = true) (hidle : s.threads.matter = .idle) (hrest : AtRest s)
    (hcurrent : 0 < s.threads.passed ∨ s.threads.early = false) :
    (s.ack.onAir = [] ∧ derive s.threads.store = s.threads.snapshot) ∨
      ∃ c, s.ack.returned.getLast? = some c ∧ AckSystem.ResultOk c ∧
        c.frame = framePulses (derive s.threads.store) ∧
        ∃ w : WireState, w.toAcState = derive s.threads.store ∧
          decodeFrame c.frame = some (normalise w.toAcState) := by
  have hprepared := h.mono fun _ _ hC => hC.1
  have hwired := wired_of_reach (hprepared.mono fun _ _ _ => trivial)
  have hwindow := Threads.window_of_reach (noOff_of_reach h)
  have hframes : s.threads.frames = s.mail.enqueued := by
    have horder := (inOrder_of_reach h).frames
    rw [hrest.callers] at horder
    exact horder.trans (List.append_nil _)
  have htold := Threads.told_of_current hwindow hidle
    (hcurrent.imp_right fun hearly => ⟨hearly, hready⟩)
  rcases htold with ⟨hnone, hsame⟩ | hlast
  · left
    refine ⟨List.eq_nil_iff_forall_not_mem.mpr fun ps hps => ?_, hsame⟩
    obtain ⟨f, hf, -⟩ := meant_of_reach (hprepared.mono fun _ _ _ => trivial) (hwired.onAir ps hps)
    rw [hnone] at hf
    exact absurd hf List.not_mem_nil
  · right
    rw [hframes] at hlast
    obtain ⟨c, hc, hframe, hok⟩ := returned_of_rest hprepared hrest hlast
    obtain ⟨w, hw⟩ := derive_wire s.threads.store
    have hpulses : c.frame = framePulses (derive s.threads.store) := hframe
    refine ⟨c, hc, hok, hpulses, w, hw, ?_⟩
    rw [hpulses, ← hw]
    exact decodeFrame_framePulses w

/-- After an undisturbed boot the client switches the unit off. -/
theorem unit_follows_off : ∃ s c, (machine coolingStore).Reach Calm s ∧
    (derive s.threads.store).power = false ∧ s.ack.returned.getLast? = some c ∧
    c.frame = framePulses (derive s.threads.store) := by
  obtain ⟨s, s', state, hrun, hpdm, hs, hmatter, hready, hpassed, hpower, hne⟩ :
      ∃ s s' state, (machine coolingStore).run (start coolingStore)
        (List.replicate 14 (.init 0) ++ (List.replicate 12 (.thread .ready) ++
          [.thread (.write ⟨onOffAttr, .boolean false⟩), .thread .callback, .thread .compare])) =
            some s ∧
        s.inited.Pdm ∧ s.step (.thread .dispatch) = some s' ∧ s'.threads.matter = .sent state ∧
        s'.threads.irReady = true ∧ 0 < s'.threads.passed ∧
        (derive s'.threads.store).power = false ∧
        derive s'.threads.store ≠ s'.threads.snapshot :=
    ⟨_, _, _, rfl, ⟨rfl, rfl, rfl⟩, rfl, rfl, rfl, by decide, rfl, by decide⟩
  have hreach : (machine coolingStore).Reach Calm s := by
    refine Machine.Reach.init.run (fun a ha u => ?_) hrun
    simp only [List.mem_append, List.mem_replicate, List.mem_cons, List.not_mem_nil, or_false] at ha
    rcases ha with ⟨-, rfl⟩ | ⟨-, rfl⟩ | rfl | rfl | rfl
    all_goals exact ⟨trivial, by simp⟩
  have hdispatched : (machine coolingStore).Reach Calm s' :=
    hreach.step (a := .thread .dispatch) ⟨hpdm, by simp⟩ hs
  obtain ⟨t, ht, hrest, hthreads⟩ := rest_of_reach hdispatched fun _ a ha =>
    ⟨Prepared.of_service ha, by rintro rfl; exact ha⟩
  rw [← hthreads] at hmatter hready hpassed hpower hne
  -- The callback remembers the state, once its call has returned.
  let u : System := { t with threads := { t.threads with
    matter := .idle
    frame := { t.threads.frame with
      statics := { t.threads.frame.statics with lastSent := state, lastSentValid := true } } } }
  have hremember : t.step (.thread .remember) = some u := by
    simp [step, stepThread, Threads.step, Threads.requested, mayMove, hmatter, hrest.callers,
      CallerPc.isOutside, u]
  have hu : (machine coolingStore).Reach Calm u :=
    ht.step (a := .thread .remember) ⟨trivial, by simp⟩ hremember
  have hrest' : AtRest u := ⟨hrest.callers, hrest.dispatch, hrest.sem⟩
  rcases unit_follows hu hready rfl hrest' (Or.inl hpassed) with ⟨-, hsame⟩ | ⟨c, hc, -, hframe, -⟩
  · exact absurd hsame hne
  · exact ⟨u, c, hu, hpower, hc, hframe⟩

end System

end Shirokumakun
