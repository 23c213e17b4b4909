/-
The identify LED: two timers, one work item, and the four clients that share them.

The delegate of the three Identify clusters and the shell command all end in
`start_blink` and `stop_blink`, which are taken as single steps here.  The blink timer
submits the work item, which the system workqueue runs when it gets to it; the handler is
taken apart into its statements, since a stop may fall between any two of them.  Time
passes in milliseconds and never beyond an armed timer's expiry.

Two fields are not variables of the program: which endpoints have an identify session open,
and until when the window of the last shell trigger lasts.
-/
import Shirokumakun.Lib.Transition

namespace Shirokumakun.Identify

/-- The clusters `gIdCluster1` to `gIdCluster3`. -/
inductive Endpoint
  | ep1
  | ep2
  | ep3
  deriving DecidableEq, Repr

/-- Where the workqueue is in `blink_work_fn`: before the toggle, before `blink_on` is read
for the second time, before what was read is written to the pin. -/
inductive Handler
  | idle
  | started
  | toggled
  | writing (value : Bool)
  deriving DecidableEq, Repr

/-- An armed timer is given by the time it expires at. -/
structure State where
  blink_timer : Option Nat
  stop_timer : Option Nat
  /-- `blink_work` is queued. -/
  pending : Bool
  handler : Handler
  blink_on : Bool
  led_blue : Bool
  now : Nat
  session : Endpoint → Bool
  windowEnd : Nat

/-! ### The program -/

/-- `K_MSEC(250)`. -/
def blinkPeriod : Nat := 250

/-- `K_SECONDS(5)`. -/
def stopDelay : Nat := 5000

/-- Submitting work that is queued already changes nothing; the timer is periodic. -/
def blinkTimerFn (s : State) : State :=
  { s with pending := true, blink_timer := some (s.now + blinkPeriod) }

/-- The timer that called it is spent. -/
def stopTimerFn (s : State) : State :=
  { s with stop_timer := none, blink_timer := none, led_blue := false }

def startBlink (s : State) : State :=
  { s with stop_timer := none, blink_on := false, blink_timer := some (s.now + blinkPeriod) }

def stopBlink (s : State) : State :=
  { s with stop_timer := none, blink_timer := none, led_blue := false }

def onIdentifyStart (ep : Endpoint) (s : State) : State :=
  { startBlink s with session := fun e => if e = ep then true else s.session e }

def onIdentifyStop (ep : Endpoint) (s : State) : State :=
  { stopBlink s with session := fun e => if e = ep then false else s.session e }

/-- It opens no session. -/
def onTriggerEffect (s : State) : State := startBlink s

def identifyLedTrigger (s : State) : State :=
  { startBlink s with
    stop_timer := some (s.now + stopDelay)
    windowEnd := s.now + stopDelay }

/-- The workqueue's next step: taking up queued work, or a statement of `blink_work_fn`. -/
def workStep (s : State) : Option State :=
  match s.handler with
  | .idle => if s.pending then some { s with pending := false, handler := .started } else none
  | .started => some { s with blink_on := !s.blink_on, handler := .toggled }
  | .toggled => some { s with handler := .writing s.blink_on }
  | .writing value => some { s with led_blue := value, handler := .idle }

/-! ### Runs -/

inductive Act
  | onIdentifyStart (ep : Endpoint)
  | onIdentifyStop (ep : Endpoint)
  | onTriggerEffect
  | identifyLedTrigger
  | elapse (ms : Nat)
  | blinkExpiry
  | stopExpiry
  | work
  deriving DecidableEq, Repr

/-- Armed, and its time has come. -/
def due (now : Nat) : Option Nat → Bool
  | none => false
  | some t => t ≤ now

/-- Not armed, or its time is not past at `now`. -/
def notPast (now : Nat) : Option Nat → Bool
  | none => true
  | some t => now ≤ t

def step (s : State) : Act → Option State
  | .onIdentifyStart ep => some (onIdentifyStart ep s)
  | .onIdentifyStop ep => some (onIdentifyStop ep s)
  | .onTriggerEffect => some (onTriggerEffect s)
  | .identifyLedTrigger => some (identifyLedTrigger s)
  | .elapse ms =>
      if notPast (s.now + ms) s.blink_timer ∧ notPast (s.now + ms) s.stop_timer then
        some { s with now := s.now + ms }
      else none
  | .blinkExpiry => if due s.now s.blink_timer then some (blinkTimerFn s) else none
  | .stopExpiry => if due s.now s.stop_timer then some (stopTimerFn s) else none
  | .work => workStep s

/-- After `identify_led_init`: nothing armed, the pin inactive. -/
def machine : Transition.Machine State Act where
  init := ⟨none, none, false, .idle, false, false, 0, fun _ => false, 0⟩
  step := step

/-- **What a step can do**, guards included. -/
inductive Stepped (s : State) : Act → State → Prop
  | onIdentifyStart (ep : Endpoint) : Stepped s (.onIdentifyStart ep) (onIdentifyStart ep s)
  | onIdentifyStop (ep : Endpoint) : Stepped s (.onIdentifyStop ep) (onIdentifyStop ep s)
  | onTriggerEffect : Stepped s .onTriggerEffect (onTriggerEffect s)
  | identifyLedTrigger : Stepped s .identifyLedTrigger (identifyLedTrigger s)
  | elapse (ms : Nat)
      (h : notPast (s.now + ms) s.blink_timer ∧ notPast (s.now + ms) s.stop_timer) :
      Stepped s (.elapse ms) { s with now := s.now + ms }
  | blinkExpiry (h : due s.now s.blink_timer = true) : Stepped s .blinkExpiry (blinkTimerFn s)
  | stopExpiry (h : due s.now s.stop_timer = true) : Stepped s .stopExpiry (stopTimerFn s)
  | work {s' : State} (h : workStep s = some s') : Stepped s .work s'

theorem stepped {s s' : State} {a : Act} (hs : machine.step s a = some s') : Stepped s a s' := by
  cases a with
  | onIdentifyStart ep =>
      cases hs
      exact Stepped.onIdentifyStart ep
  | onIdentifyStop ep =>
      cases hs
      exact Stepped.onIdentifyStop ep
  | onTriggerEffect =>
      cases hs
      exact Stepped.onTriggerEffect
  | identifyLedTrigger =>
      cases hs
      exact Stepped.identifyLedTrigger
  | elapse ms =>
      obtain ⟨hguard, heq⟩ := Option.ite_none_right_eq_some.mp hs
      cases heq
      exact Stepped.elapse ms hguard
  | blinkExpiry =>
      obtain ⟨hdue, heq⟩ := Option.ite_none_right_eq_some.mp hs
      cases heq
      exact Stepped.blinkExpiry hdue
  | stopExpiry =>
      obtain ⟨hdue, heq⟩ := Option.ite_none_right_eq_some.mp hs
      cases heq
      exact Stepped.stopExpiry hdue
  | work => exact Stepped.work hs

/-! ### The workqueue -/

/-- What the workqueue's step can be. -/
inductive Worked (s : State) : State → Prop
  | takeUp (hh : s.handler = .idle) (hpending : s.pending = true) :
      Worked s { s with pending := false, handler := .started }
  | toggle (hh : s.handler = .started) :
      Worked s { s with blink_on := !s.blink_on, handler := .toggled }
  | read (hh : s.handler = .toggled) : Worked s { s with handler := .writing s.blink_on }
  | write {value : Bool} (hh : s.handler = .writing value) :
      Worked s { s with led_blue := value, handler := .idle }

theorem worked {s s' : State} (h : workStep s = some s') : Worked s s' := by
  unfold workStep at h
  cases hh : s.handler with
  | idle =>
      rw [hh] at h
      obtain ⟨hpending, heq⟩ := Option.ite_none_right_eq_some.mp h
      cases heq
      exact Worked.takeUp hh hpending
  | started =>
      rw [hh] at h
      cases h
      exact Worked.toggle hh
  | toggled =>
      rw [hh] at h
      cases h
      exact Worked.read hh
  | writing value =>
      rw [hh] at h
      cases h
      exact Worked.write hh

/-- It leaves the timers and the clients alone. -/
theorem workStep_timers {s s' : State} (h : workStep s = some s') :
    s'.blink_timer = s.blink_timer ∧ s'.stop_timer = s.stop_timer ∧ s'.now = s.now ∧
      s'.session = s.session ∧ s'.windowEnd = s.windowEnd := by
  cases worked h with
  | takeUp hh hpending => exact ⟨rfl, rfl, rfl, rfl, rfl⟩
  | toggle hh => exact ⟨rfl, rfl, rfl, rfl, rfl⟩
  | read hh => exact ⟨rfl, rfl, rfl, rfl, rfl⟩
  | write hh => exact ⟨rfl, rfl, rfl, rfl, rfl⟩

end Shirokumakun.Identify
