/-
The whole program from kernel start on.

The main thread executes `AppTask::Init`, `pdm_manager_init` included, one statement after
the other, and `zcl_callbacks_ready` at its end.  A statement that fails may end
`AppTask::Init` or only `pdm_manager_init`; `err` is what it returns.  Beside it run the
machines of the other files: the Matter thread and the shell (`Bridge/Machine.lean`), the
mailbox (`Mailbox/Model.lean`), and the dispatch thread's `ir_send_command` with the
interrupt and the work handler (`Pdm/Attempts.lean`).  Here they are wired together: what
the Matter thread or the shell dispatches is a call of the mailbox, and what the mailbox
sends is a call of `ir_send_command`.

No thread waits for the main thread, so every step of the others may come at any time.
Only the interrupt cannot come before `nrfx_pdm_init` has registered its handler.
-/
import Shirokumakun.Bridge.Machine
import Shirokumakun.Mailbox.Runs
import Shirokumakun.Pdm.Attempts

namespace Shirokumakun

open Transition

/-- The statements of `AppTask::Init` before `zcl_callbacks_ready`, the last eight being
`pdm_manager_init`. -/
inductive InitStmt
  | hwPairingInit
  | prepareServer
  | startServer
  | registerIdentify
  | irDriverInit
  | scd40ManagerInit
  | deviceIsReady
  | gpioPinConfigure
  | irqConnect
  | nrfxPdmInit
  | fftInit
  | workInit
  | semInit
  | settingsLoad
deriving DecidableEq

def initBody : List InitStmt :=
  [.hwPairingInit, .prepareServer, .startServer, .registerIdentify, .irDriverInit,
    .scd40ManagerInit, .deviceIsReady, .gpioPinConfigure, .irqConnect, .nrfxPdmInit, .fftInit,
    .workInit, .semInit, .settingsLoad]

/-- What has been initialised. -/
structure Inited where
  /-- `ir_driver_init` has returned. -/
  irDriver : Bool
  nrfxPdm : Bool
  work : Bool
  ackSem : Bool

/-- `pdm_manager_init` has initialised the driver, the work item and the semaphore. -/
def Inited.Pdm (i : Inited) : Prop := i.nrfxPdm = true ∧ i.work = true ∧ i.ackSem = true

instance (i : Inited) : Decidable i.Pdm := inferInstanceAs (Decidable (_ ∧ _))

/-- The threads that call `ir_dispatch_command`. -/
inductive Source
  | matter
  | shell
deriving DecidableEq

structure System where
  todo : List InitStmt
  /-- `AppTask::Init` returned an error. -/
  failed : Bool
  inited : Inited
  threads : Threads
  mail : Mailbox Source
  ack : AckSystem

inductive SysAct
  | init (err : Int)
  | thread (a : ThreadAct)
  | cfarOn (err : Int)
  | cfarOff (err : Int)
  | mail (a : MailAct Source)
  | ack (a : AckAct)

/-- What a step of the Matter thread or the shell passes to `ir_dispatch_command`. -/
def Threads.requested (s : Threads) : ThreadAct → Option (Source × AcState)
  | .dispatch =>
      match s.matter with
      | .sending state => some (.matter, state)
      | _ => none
  | .acOff => some (.shell, acOff)
  | _ => none

def CallerPc.isOutside : CallerPc → Bool
  | .outside => true
  | _ => false

/-- A step of the mailbox that no other machine has a part in. -/
def MailAct.Inner {ι : Type} : MailAct ι → Prop
  | .call _ _ => False
  | .send => False
  | .sendDone => False
  | _ => True

/-- A statement of the handler or of `ir_send_command`. -/
def AckAct.Inner : AckAct → Prop
  | .isr _ => False
  | .verboseStart _ => False
  | .verboseStop _ => False
  | .call _ => False
  | _ => True

/-- A statement of a caller, of the dispatch thread or of the handler: no request, no
interrupt, and nothing of the main thread. -/
def SysAct.Service : SysAct → Prop
  | .mail _ => True
  | .ack a => a.Inner
  | _ => False

namespace System

/-- At kernel start. -/
def start (store : AttributeStore) : System where
  todo := initBody
  failed := false
  inited := ⟨false, false, false, false⟩
  threads := .booting store
  mail := .start
  ack := .start

/-- A statement of `AppTask::Init` that returns `err`, with `rest` after it. -/
def exec (s : System) (rest : List InitStmt) (err : Int) : InitStmt → System
  | .hwPairingInit | .prepareServer | .startServer =>
      if err = 0 then { s with todo := rest } else { s with todo := [], failed := true }
  | .registerIdentify | .scd40ManagerInit => { s with todo := rest }
  | .irDriverInit => { s with todo := rest, inited := { s.inited with irDriver := true } }
  | .deviceIsReady | .gpioPinConfigure =>
      -- `pdm_manager_init` returns; `AppTask::Init` goes on.
      if err = 0 then { s with todo := rest } else { s with todo := [] }
  | .nrfxPdmInit =>
      if err < 0 then { s with todo := [] }
      else { s with todo := rest, inited := { s.inited with nrfxPdm := true } }
  | .workInit => { s with
      todo := rest
      inited := { s.inited with work := true }
      ack := { s.ack with pdm := { s.ack.pdm with workPending := false } } }
  | .semInit => { s with
      todo := rest
      inited := { s.inited with ackSem := true }
      ack := { s.ack with pdm := s.ack.pdm.resetAck } }
  | .irqConnect | .fftInit | .settingsLoad => { s with todo := rest }

/-- Whether a thread is where its step can come: `zcl_callbacks_ready` follows the other
statements, and `last_sent` is assigned when `ir_dispatch_command` has returned. -/
def mayMove (s : System) : ThreadAct → Bool
  | .ready => s.todo.isEmpty && !s.failed
  | .remember => (s.mail.caller .matter).isOutside
  | _ => true

def stepThread (s : System) (a : ThreadAct) : Option System :=
  match s.threads.step a with
  | some threads =>
      match s.threads.requested a with
      | some (t, state) =>
          (s.mail.step (.call t (.ofState state))).map fun mail =>
            { s with threads := threads, mail := mail }
      | none => if s.mayMove a then some { s with threads := threads } else none
  | none => none

def stepMail (s : System) : MailAct Source → Option System
  | .call _ _ => none
  | .send =>
      match s.mail.step .send, s.ack.step (.call s.mail.activePulses) with
      | some mail, some ack => some { s with mail := mail, ack := ack }
      | _, _ => none
  | .sendDone =>
      if s.ack.send = .outside then
        (s.mail.step .sendDone).map fun mail => { s with mail := mail }
      else none
  | a => (s.mail.step a).map fun mail => { s with mail := mail }

def stepAck (s : System) : AckAct → Option System
  | .call _ => none
  | .verboseStart _ => none
  | .verboseStop _ => none
  | .isr evt =>
      if s.inited.nrfxPdm = true then
        (s.ack.step (.isr evt)).map fun ack => { s with ack := ack }
      else none
  | a => (s.ack.step a).map fun ack => { s with ack := ack }

/-- A shell command other than `ac off`: the shell is not inside `ir_dispatch_command`. -/
def stepShell (s : System) (a : AckAct) : Option System :=
  if (s.mail.caller .shell).isOutside then
    (s.ack.step a).map fun ack => { s with ack := ack }
  else none

def step (s : System) : SysAct → Option System
  | .init err =>
      match s.todo with
      | stmt :: rest => some (s.exec rest err stmt)
      | [] => none
  | .thread a => s.stepThread a
  | .cfarOn err => s.stepShell (.verboseStart err)
  | .cfarOff err => s.stepShell (.verboseStop err)
  | .mail a => s.stepMail a
  | .ack a => s.stepAck a

def machine (store : AttributeStore) : Machine System SysAct := ⟨start store, step⟩

/-! ### What a step can do -/

inductive Step (s : System) : SysAct → System → Prop
  | init {stmt : InitStmt} {rest : List InitStmt} {err : Int} (h : s.todo = stmt :: rest) :
      Step s (.init err) (s.exec rest err stmt)
  | request {a : ThreadAct} {t : Source} {state : AcState} {threads : Threads}
      {mail : Mailbox Source} (hreq : s.threads.requested a = some (t, state))
      (hthreads : s.threads.step a = some threads)
      (hmail : s.mail.step (.call t (.ofState state)) = some mail) :
      Step s (.thread a) { s with threads := threads, mail := mail }
  | thread {a : ThreadAct} {threads : Threads} (hreq : s.threads.requested a = none)
      (hmove : s.mayMove a = true) (hthreads : s.threads.step a = some threads) :
      Step s (.thread a) { s with threads := threads }
  | cfarOn {err : Int} :
      Step s (.cfarOn err) { s with ack := { s.ack with pdm := s.ack.pdm.verboseStart err } }
  | cfarOff {err : Int} :
      Step s (.cfarOff err) { s with ack := { s.ack with pdm := s.ack.pdm.verboseStop err } }
  | mail {a : MailAct Source} {mail : Mailbox Source} (ha : a.Inner)
      (h : s.mail.step a = some mail) : Step s (.mail a) { s with mail := mail }
  | send {mail : Mailbox Source} {ack : AckSystem} (hmail : s.mail.step .send = some mail)
      (hack : s.ack.step (.call s.mail.activePulses) = some ack) :
      Step s (.mail .send) { s with mail := mail, ack := ack }
  | sendDone {mail : Mailbox Source} (hret : s.ack.send = .outside)
      (h : s.mail.step .sendDone = some mail) : Step s (.mail .sendDone) { s with mail := mail }
  | isr {evt : PdmEvent} (hconnected : s.inited.nrfxPdm = true) :
      Step s (.ack (.isr evt)) { s with ack := s.ack.isr evt }
  | ack {a : AckAct} {ack : AckSystem} (ha : a.Inner) (h : s.ack.step a = some ack) :
      Step s (.ack a) { s with ack := ack }

theorem stepThread_cases {s s' : System} {a : ThreadAct} (hs : s.stepThread a = some s') :
    Step s (.thread a) s' := by
  unfold stepThread at hs
  split at hs
  · rename_i threads hthreads
    split at hs
    · rename_i t state hreq
      obtain ⟨mail, hmail, rfl⟩ := Option.map_eq_some_iff.mp hs
      exact .request hreq hthreads hmail
    · rename_i hreq
      by_cases hmove : s.mayMove a = true
      · rw [if_pos hmove] at hs
        cases hs
        exact .thread hreq hmove hthreads
      · rw [if_neg hmove] at hs
        cases hs
  · cases hs

theorem stepMail_inner (s : System) {a : MailAct Source} (ha : a.Inner) :
    s.stepMail a = (s.mail.step a).map fun mail => { s with mail := mail } := by
  cases a with
  | call t f => exact absurd ha id
  | send => exact absurd ha id
  | sendDone => exact absurd ha id
  | _ => rfl

theorem stepMail_cases {s s' : System} {a : MailAct Source} (hs : s.stepMail a = some s') :
    Step s (.mail a) s' := by
  by_cases ha : a.Inner
  · rw [stepMail_inner s ha] at hs
    obtain ⟨mail, hmail, rfl⟩ := Option.map_eq_some_iff.mp hs
    exact .mail ha hmail
  · cases a with
    | call t f => cases hs
    | send =>
        simp only [stepMail] at hs
        split at hs
        · rename_i mail ack hmail hack
          cases hs
          exact .send hmail hack
        · cases hs
    | sendDone =>
        simp only [stepMail] at hs
        split at hs
        · rename_i hret
          obtain ⟨mail, hmail, rfl⟩ := Option.map_eq_some_iff.mp hs
          exact .sendDone hret hmail
        · cases hs
    | _ => exact absurd trivial ha

theorem stepAck_inner (s : System) {a : AckAct} (ha : a.Inner) :
    s.stepAck a = (s.ack.step a).map fun ack => { s with ack := ack } := by
  cases a with
  | call frame => exact absurd ha id
  | verboseStart err => exact absurd ha id
  | verboseStop err => exact absurd ha id
  | isr evt => exact absurd ha id
  | _ => rfl

theorem stepAck_cases {s s' : System} {a : AckAct} (hs : s.stepAck a = some s') :
    Step s (.ack a) s' := by
  by_cases ha : a.Inner
  · rw [stepAck_inner s ha] at hs
    obtain ⟨ack, hack, rfl⟩ := Option.map_eq_some_iff.mp hs
    exact .ack ha hack
  · cases a with
    | call frame => cases hs
    | verboseStart err => cases hs
    | verboseStop err => cases hs
    | isr evt =>
        simp only [stepAck] at hs
        split at hs
        · rename_i hconnected
          cases hs
          exact .isr hconnected
        · cases hs
    | _ => exact absurd trivial ha

theorem stepShell_eq {s s' : System} {a : AckAct} (hs : s.stepShell a = some s') :
    ∃ ack, s.ack.step a = some ack ∧ { s with ack := ack } = s' := by
  unfold stepShell at hs
  split at hs
  · exact Option.map_eq_some_iff.mp hs
  · cases hs

theorem step_cases {s s' : System} {a : SysAct} (hs : s.step a = some s') : Step s a s' := by
  cases a with
  | init err =>
      simp only [step] at hs
      split at hs
      · rename_i stmt rest h
        cases hs
        exact .init h
      · cases hs
  | thread a => exact stepThread_cases hs
  | cfarOn err =>
      obtain ⟨ack, hack, rfl⟩ := stepShell_eq hs
      cases hack
      exact .cfarOn
  | cfarOff err =>
      obtain ⟨ack, hack, rfl⟩ := stepShell_eq hs
      cases hack
      exact .cfarOff
  | mail a => exact stepMail_cases hs
  | ack a => exact stepAck_cases hs

/-- What `AppTask::Init` leaves alone. -/
theorem exec_same (s : System) (rest : List InitStmt) (err : Int) (stmt : InitStmt) :
    (s.exec rest err stmt).threads = s.threads ∧ (s.exec rest err stmt).mail = s.mail ∧
      (s.exec rest err stmt).ack.send = s.ack.send ∧
      (s.exec rest err stmt).ack.pdm.captureActive = s.ack.pdm.captureActive := by
  cases stmt with
  | hwPairingInit | prepareServer | startServer | deviceIsReady | gpioPinConfigure | nrfxPdmInit =>
      simp only [exec]
      split
      · exact ⟨rfl, rfl, rfl, rfl⟩
      · exact ⟨rfl, rfl, rfl, rfl⟩
  | _ => exact ⟨rfl, rfl, rfl, rfl⟩

/-! ### The parts -/

/-- **The mailbox in the program is the mailbox**: what holds of `Mailbox.machine` for
any callers holds of it here. -/
theorem mail_of_reach {store : AttributeStore} {s : System} (h : (machine store).Reachable s) :
    (Mailbox.machine Source).Reachable s.mail :=
  h.simulate (J := fun _ => True) mail (fun _ _ => trivial) rfl fun s a s' _ _ hs => by
    cases step_cases (s := s) (a := a) hs with
    | init h => exact Or.inl (exec_same s _ _ _).2.1
    | request _ _ hmail => exact Or.inr ⟨.call _ _, trivial, hmail⟩
    | thread => exact Or.inl rfl
    | cfarOn => exact Or.inl rfl
    | cfarOff => exact Or.inl rfl
    | mail _ hmail => exact Or.inr ⟨_, trivial, hmail⟩
    | send hmail _ => exact Or.inr ⟨.send, trivial, hmail⟩
    | sendDone _ hmail => exact Or.inr ⟨.sendDone, trivial, hmail⟩
    | isr => exact Or.inl rfl
    | ack => exact Or.inl rfl

/-- The threads in the program are the threads during the boot. -/
theorem threads_of_reach {store : AttributeStore} {s : System} (h : (machine store).Reachable s) :
    (Threads.machine (.booting store)).Reachable s.threads :=
  h.simulate (J := fun _ => True) threads (fun _ _ => trivial) rfl fun s a s' _ _ hs => by
    cases step_cases (s := s) (a := a) hs with
    | init h => exact Or.inl (exec_same s _ _ _).1
    | request _ hthreads _ => exact Or.inr ⟨_, trivial, hthreads⟩
    | thread _ _ hthreads => exact Or.inr ⟨_, trivial, hthreads⟩
    | _ => exact Or.inl rfl

end System

end Shirokumakun
