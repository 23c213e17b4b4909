/-
An acknowledgement belongs to the attempt that takes it.

Three statements at the start of a listen window make it so.  The semaphore is emptied
while `pdm_capture_active` is down, so nothing can fill it again until the flag is raised.
`buf_available` is lowered before the flag is raised, so a buffer picked up while the flag
is up was released after that.  And a verdict is reached without the dispatch thread
moving in between, so it speaks about the window it falls in.

`FreshOk` is about buffers and verdicts, `CaptureOk` about the flag, `SemOk` about the
semaphore, and `LogOk` about the loop over the attempts.  `ack_sound` draws the conclusion
for every call, and with `call_returns` adds that a call can always be brought to its end.
-/
import Shirokumakun.Pdm.Attempts

namespace Shirokumakun

open Transition PdmManager

/-- `pdm_capture_active` may be up. -/
def SendPc.Listening : SendPc → Prop
  | .startCapture _ => True
  | .waiting _ => True
  | .clearActive _ _ => True
  | _ => False

/-- The semaphore is empty but for what was given since `buf_available = false`. -/
def SendPc.Counting : SendPc → Prop
  | .setActive _ => True
  | .startCapture _ => True
  | .waiting _ => True
  | _ => False

/-- An attempt was acknowledged exactly if a verdict heard in it gave the semaphore, and every
verdict heard in it was about a buffer released in it. -/
structure AttemptOk (a : Attempt) : Prop where
  ack : a.ack = true ↔ Signalled a.heard
  fresh : ∀ v ∈ a.heard, v.released = a.epoch

theorem signalled_append (heard : List Verdict) (v : Verdict) :
    Signalled (heard ++ [v]) ↔ Signalled heard ∨ (v.active = true ∧ v.above = true) := by
  unfold Signalled
  constructor
  · rintro ⟨u, hu, hgave⟩
    rcases List.mem_append.mp hu with hold | hnew
    · exact Or.inl ⟨u, hold, hgave⟩
    · obtain rfl := List.mem_singleton.mp hnew
      exact Or.inr hgave
  · rintro (⟨u, hu, hgave⟩ | hgave)
    · exact ⟨u, List.mem_append_left _ hu, hgave⟩
    · exact ⟨v, by simp, hgave⟩

/-- How many statements the dispatch thread has at most left in its call. -/
def SendPc.left : SendPc → Nat
  | .outside => 0
  | .transmit k => 8 * (irRetryCount - k) + 8
  | .resetAck k => 8 * (irRetryCount - k) + 7
  | .clearAvailable k => 8 * (irRetryCount - k) + 6
  | .setActive k => 8 * (irRetryCount - k) + 5
  | .startCapture k => 8 * (irRetryCount - k) + 4
  | .waiting k => 8 * (irRetryCount - k) + 3
  | .clearActive k _ => 8 * (irRetryCount - k) + 2
  | .stopCapture k _ => 8 * (irRetryCount - k) + 1

/-- How many statements the work handler has left. -/
def WorkPc.left : WorkPc → Nat
  | .idle => 0
  | .started => 4
  | .picking => 3
  | .computing _ _ => 2
  | .judging _ _ _ => 1

namespace AckSystem

/-! ### Buffers and verdicts -/

/-- Everything the handler has in hand was released in the current epoch. -/
structure FreshOk (s : AckSystem) : Prop where
  available : s.pdm.bufAvailable = true → s.released s.pdm.bufReadyIdx = s.epoch
  picking : s.work = .picking → s.pdm.bufAvailable = true
  computing : ∀ idx released, s.work = .computing idx released → released = s.epoch
  judging : ∀ idx released above, s.work = .judging idx released above → released = s.epoch
  heard : ∀ v ∈ s.heard, v.released = s.epoch

theorem freshOk_isr {s : AckSystem} (h : FreshOk s) (evt : PdmEvent) : FreshOk (s.isr evt) := by
  obtain ⟨-, -, hevt⟩ := eventHandler_spec s.pdm evt
  unfold isr
  cases hr : evt.bufferReleased with
  | some idx =>
      rw [hr] at hevt
      refine ⟨?_, fun _ => hevt.2, h.computing, h.judging, h.heard⟩
      intro _
      show Function.update s.released idx s.epoch (s.pdm.eventHandler evt).bufReadyIdx = s.epoch
      rw [hevt.1, Function.update_self]
  | none =>
      rw [hr] at hevt
      refine ⟨?_, ?_, h.computing, h.judging, h.heard⟩
      · intro havail
        show s.released (s.pdm.eventHandler evt).bufReadyIdx = s.epoch
        rw [hevt.1]
        exact h.available (hevt.2.symm.trans havail)
      · intro hw
        exact hevt.2.trans (h.picking hw)

/-- A step that moves neither the handler nor the epoch. -/
theorem FreshOk.of_same {s s' : AckSystem} (h : FreshOk s)
    (havail : s'.pdm.bufAvailable = s.pdm.bufAvailable)
    (hidx : s'.pdm.bufReadyIdx = s.pdm.bufReadyIdx) (hreleased : s'.released = s.released)
    (hepoch : s'.epoch = s.epoch) (hwork : s'.work = s.work) (hheard : s'.heard = s.heard) :
    FreshOk s' := by
  refine ⟨?_, ?_, ?_, ?_, ?_⟩
  · rw [havail, hidx, hreleased, hepoch]
    exact h.available
  · rw [hwork, havail]
    exact h.picking
  · rw [hwork, hepoch]
    exact h.computing
  · rw [hwork, hepoch]
    exact h.judging
  · rw [hheard, hepoch]
    exact h.heard

theorem FreshOk.of_sameAck {s s' : AckSystem} (h : FreshOk s) (hsame : SameAck s.pdm s'.pdm)
    (hreleased : s'.released = s.released) (hepoch : s'.epoch = s.epoch)
    (hwork : s'.work = s.work) (hheard : s'.heard = s.heard) : FreshOk s' :=
  h.of_same hsame.bufAvailable hsame.bufReadyIdx hreleased hepoch hwork hheard

theorem freshOk_work {s s' : AckSystem} {a : AckAct} (h : FreshOk s) (hs : WorkStep s a s') :
    FreshOk s' := by
  cases hs with
  | workStart _ _ => exact ⟨h.available, by simp, by simp, by simp, h.heard⟩
  | workPick _ havail => exact ⟨h.available, fun _ => havail, by simp, by simp, h.heard⟩
  | workNone _ => exact ⟨h.available, by simp, by simp, by simp, h.heard⟩
  | workClear hw =>
      refine ⟨fun havail => (by cases havail), by simp, ?_, by simp, h.heard⟩
      intro idx released hc
      obtain ⟨-, rfl⟩ := WorkPc.computing.inj hc
      exact h.available (h.picking hw)
  | @workCompute idx released above hw =>
      refine ⟨h.available, by simp, by simp, ?_, h.heard⟩
      intro idx' released' above' hj
      obtain ⟨-, rfl, -⟩ := WorkPc.judging.inj hj
      exact h.computing idx released hw
  | @workSignal idx released above hw =>
      obtain ⟨havail, hidx, -, -⟩ := signal_spec s.pdm above
      refine ⟨?_, by simp, by simp, by simp, ?_⟩
      · intro hyes
        show s.released (s.pdm.signal above).bufReadyIdx = s.epoch
        rw [hidx]
        exact h.available (havail.symm.trans hyes)
      · intro v hv
        rcases List.mem_append.mp hv with hold | hnew
        · exact h.heard v hold
        · obtain rfl := List.mem_singleton.mp hnew
          exact h.judging idx released above hw

theorem freshOk_send {s s' : AckSystem} {a : AckAct} (hidle : s.work = .idle) (h : FreshOk s)
    (hs : SendStep s a s') : FreshOk s' := by
  cases hs with
  | clearAvailable _ =>
      -- The new epoch: no buffer is available, no verdict is under way.
      refine ⟨fun havail => (by cases havail), fun hw => ?_, fun _ _ hw => ?_, fun _ _ _ hw => ?_,
        by simp⟩
      · rw [show s.work = .picking from hw] at hidle
        cases hidle
      · rw [show s.work = .computing _ _ from hw] at hidle
        cases hidle
      · rw [show s.work = .judging _ _ _ from hw] at hidle
        cases hidle
  | @startCapture _ err _ =>
      obtain ⟨-, havail, hidx⟩ := startCapture_spec s.pdm err
      exact h.of_same havail hidx rfl rfl rfl rfl
  | endWait _ =>
      obtain ⟨havail, hidx, -⟩ := takeAck_spec s.pdm
      exact h.of_same havail hidx rfl rfl rfl rfl
  | @acked _ err _ => exact h.of_sameAck (sameAck_nrfxPdmStop s.pdm err) rfl rfl rfl rfl
  | @again _ _ err _ _ _ => exact h.of_sameAck (sameAck_nrfxPdmStop s.pdm err) rfl rfl rfl rfl
  | @exhausted _ _ err _ _ _ =>
      exact h.of_sameAck (sameAck_nrfxPdmStop s.pdm err) rfl rfl rfl rfl
  | _ => exact h.of_same rfl rfl rfl rfl rfl rfl

/-! ### The flag -/

def CaptureOk (s : AckSystem) : Prop := s.pdm.captureActive = true → s.send.Listening

/-- Outside the windows the flag is down. -/
theorem CaptureOk.down {s : AckSystem} (h : CaptureOk s) (hpc : ¬ s.send.Listening) :
    s.pdm.captureActive = false := by
  rw [Bool.eq_false_iff]
  intro hactive
  exact hpc (h hactive)

/-- A step from outside the windows that does not raise it. -/
theorem CaptureOk.of_down {s s' : AckSystem} (h : CaptureOk s) (hpc : ¬ s.send.Listening)
    (hsame : s'.pdm.captureActive = s.pdm.captureActive) : CaptureOk s' := by
  intro hactive
  rw [hsame, h.down hpc] at hactive
  exact absurd hactive Bool.false_ne_true

theorem captureOk_work {s s' : AckSystem} {a : AckAct} (h : CaptureOk s) (hs : WorkStep s a s') :
    CaptureOk s' := by
  cases hs with
  | @workSignal _ _ above _ =>
      intro hactive
      exact h ((signal_spec s.pdm above).2.2.1.symm.trans hactive)
  | _ => exact h

theorem captureOk_send {s s' : AckSystem} {a : AckAct} (h : CaptureOk s) (hs : SendStep s a s') :
    CaptureOk s' := by
  cases hs with
  | call hpc => exact h.of_down (by rw [hpc]; exact id) rfl
  | transmit hpc => exact h.of_down (by rw [hpc]; exact id) rfl
  | resetAck hpc => exact h.of_down (by rw [hpc]; exact id) rfl
  | clearAvailable hpc => exact h.of_down (by rw [hpc]; exact id) rfl
  | setActive _ => exact fun _ => trivial
  | startCapture _ => exact fun _ => trivial
  | endWait _ => exact fun _ => trivial
  | clearActive _ => exact fun hactive => by cases hactive
  | @acked _ err hpc =>
      exact h.of_down (by rw [hpc]; exact id) (sameAck_nrfxPdmStop s.pdm err).captureActive
  | @again _ _ err hpc _ _ =>
      exact h.of_down (by rw [hpc]; exact id) (sameAck_nrfxPdmStop s.pdm err).captureActive
  | @exhausted _ _ err hpc _ _ =>
      exact h.of_down (by rw [hpc]; exact id) (sameAck_nrfxPdmStop s.pdm err).captureActive

/-! ### The semaphore -/

structure SemOk (send : SendPc) (ackSem : Nat) (heard : List Verdict) : Prop where
  cleared : ∀ k, send = .clearAvailable k → ackSem = 0
  counting : send.Counting → (0 < ackSem ↔ Signalled heard)

theorem SemOk.of_closed {send : SendPc} {ackSem : Nat} {heard : List Verdict}
    (hclear : ∀ k, send ≠ .clearAvailable k) (hcount : ¬ send.Counting) :
    SemOk send ackSem heard :=
  ⟨fun k hk => absurd hk (hclear k), fun hc => absurd hc hcount⟩

theorem semOk_work {s s' : AckSystem} {a : AckAct} (hcapture : CaptureOk s)
    (h : SemOk s.send s.pdm.ackSem s.heard) (hs : WorkStep s a s') :
    SemOk s'.send s'.pdm.ackSem s'.heard := by
  cases hs with
  | @workSignal idx released above _ =>
      obtain ⟨-, -, -, hsem⟩ := signal_spec s.pdm above
      refine ⟨?_, ?_⟩
      · intro k hk
        -- Before `buf_available = false` the flag is down and nothing is given.
        have hdown : s.pdm.captureActive = false := by
          apply hcapture.down
          rw [show s.send = .clearAvailable k from hk]
          exact id
        have hzero : ¬ 0 < s.pdm.ackSem := by
          rw [h.cleared k hk]
          exact Nat.lt_irrefl 0
        refine Nat.eq_zero_of_not_pos fun hpos => ?_
        rcases hsem.mp hpos with hold | ⟨hactive, -⟩
        · exact hzero hold
        · exact absurd (hdown.symm.trans hactive) Bool.false_ne_true
      · intro hc
        rw [signalled_append, ← h.counting hc]
        exact hsem
  | _ => exact h

theorem semOk_send {s s' : AckSystem} {a : AckAct} (h : SemOk s.send s.pdm.ackSem s.heard)
    (hs : SendStep s a s') : SemOk s'.send s'.pdm.ackSem s'.heard := by
  cases hs with
  | resetAck _ => exact ⟨fun _ _ => rfl, fun hc => hc.elim⟩
  | @clearAvailable k hpc =>
      refine ⟨fun _ hk => (by cases hk), ?_⟩
      intro _
      show 0 < s.pdm.ackSem ↔ Signalled []
      rw [h.cleared k hpc]
      simp [Signalled]
  | setActive hpc =>
      exact ⟨fun _ hk => (by cases hk), fun _ => h.counting (by rw [hpc]; trivial)⟩
  | @startCapture _ err hpc =>
      refine ⟨fun _ hk => (by cases hk), ?_⟩
      intro _
      show 0 < (s.pdm.startCapture err).ackSem ↔ Signalled s.heard
      rw [(startCapture_spec s.pdm err).1]
      exact h.counting (by rw [hpc]; trivial)
  | call _ => exact .of_closed (by simp) id
  | transmit _ => exact .of_closed (by simp) id
  | endWait _ => exact .of_closed (by simp) id
  | clearActive _ => exact .of_closed (by simp) id
  | acked _ => exact .of_closed (by simp [ret]) id
  | again _ _ _ => exact .of_closed (by simp) id
  | exhausted _ _ _ => exact .of_closed (by simp [ret]) id

/-! ### The attempts -/

/-- The log after `sent` transmissions and `done` waits. -/
structure Progress (frame : List IrPulse) (log : SendLog) (sent done : Nat) : Prop where
  transmitted : log.transmitted = List.replicate sent frame
  numbered : log.attempts.map Attempt.no = List.range' 1 done
  acks : ∀ a ∈ log.attempts, AttemptOk a

def Unacked (attempts : List Attempt) : Prop := ∀ a ∈ attempts, a.ack = false

/-- Attempt `k` is under way and its wait has not ended: those before went unheard. -/
structure Trying (frame : List IrPulse) (log : SendLog) (k sent : Nat) : Prop where
  lower : 1 ≤ k
  upper : k ≤ irRetryCount
  progress : Progress frame log sent (k - 1)
  unacked : Unacked log.attempts

/-- The wait of attempt `k` has ended with `rc`. -/
structure Waited (frame : List IrPulse) (log : SendLog) (k : Nat) (rc : Int) : Prop where
  lower : 1 ≤ k
  upper : k ≤ irRetryCount
  progress : Progress frame log k k
  last : ∃ before a, log.attempts = before ++ [a] ∧ Unacked before ∧ a.ack = (rc == 0)

def LogOk (send : SendPc) (frame : List IrPulse) (log : SendLog) : Prop :=
  match send with
  | .outside => ∀ a ∈ log.attempts, AttemptOk a
  | .transmit k => Trying frame log k (k - 1)
  | .resetAck k => Trying frame log k k
  | .clearAvailable k => Trying frame log k k
  | .setActive k => Trying frame log k k
  | .startCapture k => Trying frame log k k
  | .waiting k => Trying frame log k k
  | .clearActive k rc => Waited frame log k rc
  | .stopCapture k rc => Waited frame log k rc

/-- What a call of `ir_send_command` returns with. -/
structure ResultOk (c : SendResult) : Prop where
  lower : 1 ≤ c.log.attempts.length
  upper : c.log.attempts.length ≤ irRetryCount
  numbered : c.log.attempts.map Attempt.no = List.range' 1 c.log.attempts.length
  transmitted : c.log.transmitted = List.replicate c.log.attempts.length c.frame
  acks : ∀ a ∈ c.log.attempts, AttemptOk a
  /-- No attempt follows an acknowledged one. -/
  first : ∀ a ∈ c.log.attempts.dropLast, a.ack = false
  result : c.result = true ↔ ∃ a ∈ c.log.attempts, a.ack = true
  exhausted : c.result = false → c.log.attempts.length = irRetryCount
  closed : c.captureActive = false

theorem Progress.length {frame : List IrPulse} {log : SendLog} {sent done : Nat}
    (h : Progress frame log sent done) : log.attempts.length = done := by
  rw [← List.length_map Attempt.no, h.numbered, List.length_range']

theorem Trying.transmit {frame : List IrPulse} {log : SendLog} {k : Nat}
    (h : Trying frame log k (k - 1)) :
    Trying frame { log with transmitted := log.transmitted ++ [frame] } k k := by
  refine ⟨h.lower, h.upper, ⟨?_, h.progress.numbered, h.progress.acks⟩, h.unacked⟩
  obtain ⟨j, rfl⟩ : ∃ j, k = j + 1 := ⟨k - 1, by have := h.lower; omega⟩
  show log.transmitted ++ [frame] = List.replicate (j + 1) frame
  rw [h.progress.transmitted, List.replicate_succ', Nat.add_sub_cancel]

theorem Trying.endWait {frame : List IrPulse} {log : SendLog} {k : Nat}
    (h : Trying frame log k k) {a : Attempt} {rc : Int} (hno : a.no = k) (ha : AttemptOk a)
    (hack : a.ack = (rc == 0)) :
    Waited frame { log with attempts := log.attempts ++ [a] } k rc := by
  refine ⟨h.lower, h.upper, ⟨h.progress.transmitted, ?_, ?_⟩, log.attempts, a, rfl, h.unacked,
    hack⟩
  · obtain ⟨j, rfl⟩ : ∃ j, k = j + 1 := ⟨k - 1, by have := h.lower; omega⟩
    have hnumbered := h.progress.numbered
    rw [Nat.add_sub_cancel] at hnumbered
    show (log.attempts ++ [a]).map Attempt.no = List.range' 1 (j + 1)
    rw [List.map_append, hnumbered, List.range'_1_concat, Nat.add_comm 1 j, ← hno]
    rfl
  · intro b hb
    rcases List.mem_append.mp hb with hold | hnew
    · exact h.progress.acks b hold
    · exact List.mem_singleton.mp hnew ▸ ha

/-- A wait that was not rewarded is followed by the next attempt. -/
theorem Waited.again {frame : List IrPulse} {log : SendLog} {k : Nat} {rc : Int}
    (h : Waited frame log k rc) (hrc : rc ≠ 0) (hk : k < irRetryCount) :
    Trying frame log (k + 1) k := by
  refine ⟨Nat.le_add_left 1 k, hk, h.progress, ?_⟩
  intro a ha
  obtain ⟨before, last, hattempts, hbefore, hlast⟩ := h.last
  rw [hattempts] at ha
  rcases List.mem_append.mp ha with hold | hnew
  · exact hbefore a hold
  · rw [List.mem_singleton.mp hnew, hlast]
    simpa using hrc

/-- A call returns after its first acknowledged attempt, or after the last. -/
theorem Waited.result {frame : List IrPulse} {log : SendLog} {k : Nat} {rc : Int}
    (h : Waited frame log k rc) (hend : rc = 0 ∨ ¬ k < irRetryCount) :
    ResultOk ⟨frame, log, rc == 0, false⟩ := by
  obtain ⟨before, last, hattempts, hbefore, hlast⟩ := h.last
  have hlen := h.progress.length
  refine ⟨?_, ?_, ?_, ?_, h.progress.acks, ?_, ?_, ?_, rfl⟩
  · rw [hlen]
    exact h.lower
  · rw [hlen]
    exact h.upper
  · rw [hlen]
    exact h.progress.numbered
  · rw [hlen]
    exact h.progress.transmitted
  · show ∀ a ∈ log.attempts.dropLast, a.ack = false
    rw [hattempts, List.dropLast_concat]
    exact hbefore
  · show (rc == 0) = true ↔ ∃ a ∈ log.attempts, a.ack = true
    rw [← hlast, hattempts]
    constructor
    · intro hyes
      exact ⟨last, by simp, hyes⟩
    · rintro ⟨a, ha, hyes⟩
      rcases List.mem_append.mp ha with hold | hnew
      · rw [hbefore a hold] at hyes
        cases hyes
      · rwa [List.mem_singleton.mp hnew] at hyes
  · intro hno
    have hrc : rc ≠ 0 := by simpa using hno
    have hk := hend.resolve_left hrc
    have hupper := h.upper
    rw [hlen]
    omega

theorem logOk_send {s s' : AckSystem} {a : AckAct} (hfresh : FreshOk s)
    (hsem : SemOk s.send s.pdm.ackSem s.heard) (h : LogOk s.send s.frame s.log)
    (hs : SendStep s a s') : LogOk s'.send s'.frame s'.log := by
  unfold LogOk at h
  cases hs with
  | call _ =>
      exact ⟨Nat.le_refl 1, by decide, ⟨rfl, rfl, by simp⟩, by simp [Unacked]⟩
  | transmit hpc => rw [hpc] at h; exact Trying.transmit h
  | resetAck hpc => rw [hpc] at h; exact h
  | clearAvailable hpc => rw [hpc] at h; exact h
  | setActive hpc => rw [hpc] at h; exact h
  | startCapture hpc => rw [hpc] at h; exact h
  | endWait hpc =>
      rw [hpc] at h
      refine Trying.endWait h rfl ⟨?_, hfresh.heard⟩ rfl
      -- The wait is rewarded exactly if something was given since the window opened.
      exact (takeAck_spec s.pdm).2.2.trans (hsem.counting (by rw [hpc]; trivial))
  | clearActive hpc => rw [hpc] at h; exact h
  | acked hpc => rw [hpc] at h; exact h.progress.acks
  | again hpc hrc hk => rw [hpc] at h; exact Waited.again h hrc hk
  | exhausted hpc _ _ => rw [hpc] at h; exact h.progress.acks

theorem returnedOk_send {s s' : AckSystem} {a : AckAct} (hcapture : CaptureOk s)
    (hlog : LogOk s.send s.frame s.log) (h : ∀ c ∈ s.returned, ResultOk c)
    (hs : SendStep s a s') : ∀ c ∈ s'.returned, ResultOk c := by
  have hreturn : ∀ (rc err : Int) (k : Nat), s.send = .stopCapture k rc →
      (rc = 0 ∨ ¬ k < irRetryCount) →
        ResultOk ⟨s.frame, s.log, rc == 0, (s.pdm.nrfxPdmStop err).captureActive⟩ := by
    intro rc err k hpc hend
    have hdown : (s.pdm.nrfxPdmStop err).captureActive = false := by
      rw [(sameAck_nrfxPdmStop s.pdm err).captureActive]
      apply hcapture.down
      rw [hpc]
      exact id
    unfold LogOk at hlog
    rw [hpc] at hlog
    rw [hdown]
    exact Waited.result hlog hend
  cases hs with
  | @acked k err hpc =>
      intro c hc
      rcases List.mem_append.mp hc with hold | hnew
      · exact h c hold
      · exact List.mem_singleton.mp hnew ▸ hreturn 0 err k hpc (Or.inl rfl)
  | @exhausted k rc err hpc hrc hk =>
      intro c hc
      rcases List.mem_append.mp hc with hold | hnew
      · exact h c hold
      · have hfalse : (rc == 0) = false := by simpa using hrc
        have hresult := hreturn rc err k hpc (Or.inr hk)
        rw [hfalse] at hresult
        exact List.mem_singleton.mp hnew ▸ hresult
  | _ => exact h

/-! ### All of it -/

structure Inv (s : AckSystem) : Prop where
  fresh : FreshOk s
  capture : CaptureOk s
  sem : SemOk s.send s.pdm.ackSem s.heard
  log : LogOk s.send s.frame s.log
  returned : ∀ c ∈ s.returned, ResultOk c

theorem inv_start : Inv start where
  fresh := ⟨fun h => (by cases h), by simp [start], by simp [start], by simp [start],
    by simp [start]⟩
  capture := fun h => by cases h
  sem := .of_closed (by simp [start]) id
  log := by simp [LogOk, start]
  returned := by simp [start]

/-- The shell's calls leave alone what an acknowledgement rests on. -/
theorem Inv.of_sameAck {s : AckSystem} (h : Inv s) {pdm : PdmManager} (hsame : SameAck s.pdm pdm) :
    Inv { s with pdm := pdm } where
  fresh := h.fresh.of_sameAck hsame rfl rfl rfl rfl
  capture := fun hactive => h.capture (hsame.captureActive.symm.trans hactive)
  sem := by
    show SemOk s.send pdm.ackSem s.heard
    rw [hsame.ackSem]
    exact h.sem
  log := h.log
  returned := h.returned

/-- **Every step keeps the invariant.** -/
theorem inv_step {s s' : AckSystem} {a : AckAct} (h : Inv s) (hs : Step s a s') : Inv s' := by
  cases hs with
  | @isr evt =>
      obtain ⟨hsem, hactive, -⟩ := eventHandler_spec s.pdm evt
      refine ⟨freshOk_isr h.fresh evt, fun hup => h.capture (hactive.symm.trans hup), ?_, h.log,
        h.returned⟩
      show SemOk s.send (s.pdm.eventHandler evt).ackSem s.heard
      rw [hsem]
      exact h.sem
  | @verboseStart err => exact h.of_sameAck (sameAck_verboseStart s.pdm err)
  | @verboseStop err => exact h.of_sameAck (sameAck_verboseStop s.pdm err)
  | work hwork =>
      have hrest : s'.send = s.send ∧ s'.frame = s.frame ∧ s'.log = s.log ∧
          s'.returned = s.returned := by
        cases hwork <;> exact ⟨rfl, rfl, rfl, rfl⟩
      obtain ⟨hsend, hframe, hlog, hreturned⟩ := hrest
      refine ⟨freshOk_work h.fresh hwork, captureOk_work h.capture hwork,
        semOk_work h.capture h.sem hwork, ?_, ?_⟩
      · rw [hsend, hframe, hlog]
        exact h.log
      · rw [hreturned]
        exact h.returned
  | send hidle hsend =>
      exact ⟨freshOk_send hidle h.fresh hsend, captureOk_send h.capture hsend,
        semOk_send h.sem hsend, logOk_send h.fresh h.sem h.log hsend,
        returnedOk_send h.capture h.log h.returned hsend⟩

theorem inv_of_reach {s : AckSystem} (h : machine.Reachable s) : Inv s :=
  h.invariant inv_start fun t a _ hI _ hs => inv_step (s := t) (a := a) hI (step_cases hs)

theorem LogOk.attempts {send : SendPc} {frame : List IrPulse} {log : SendLog}
    (h : LogOk send frame log) : ∀ a ∈ log.attempts, AttemptOk a := by
  unfold LogOk at h
  cases send with
  | outside => exact h
  | clearActive k rc => exact h.progress.acks
  | stopCapture k rc => exact h.progress.acks
  | _ => exact h.progress.acks

/-! ### A call returns -/

theorem work_enabled {s : AckSystem} (h : s.work ≠ .idle) : ∃ a s', s.workStep a = some s' := by
  cases hw : s.work with
  | idle => exact absurd hw h
  | started => exact ⟨.workCheck, Option.isSome_iff_exists.mp (by simp [workStep, hw])⟩
  | picking => exact ⟨.workPick, Option.isSome_iff_exists.mp (by simp [workStep, hw])⟩
  | computing idx released =>
      exact ⟨.workCompute false, Option.isSome_iff_exists.mp (by simp [workStep, hw])⟩
  | judging idx released above =>
      exact ⟨.workSignal, Option.isSome_iff_exists.mp (by simp [workStep, hw])⟩

theorem work_left {s s' : AckSystem} {a : AckAct} (h : s.work ≠ .idle) (hs : WorkStep s a s') :
    s'.work.left < s.work.left := by
  cases hs with
  | workStart hw _ => exact absurd hw h
  | workPick hw _ => rw [hw]; exact Nat.lt_succ_self 3
  | workNone hw => rw [hw]; exact Nat.zero_lt_succ 3
  | workClear hw => rw [hw]; exact Nat.lt_succ_self 2
  | workCompute hw => rw [hw]; exact Nat.lt_succ_self 1
  | workSignal hw => rw [hw]; exact Nat.lt_succ_self 0

theorem send_enabled {s : AckSystem} (h : s.send ≠ .outside) : ∃ a s', s.sendStep a = some s' := by
  cases hpc : s.send with
  | outside => exact absurd hpc h
  | transmit k => exact ⟨.transmit, Option.isSome_iff_exists.mp (by simp [sendStep, hpc])⟩
  | resetAck k => exact ⟨.resetAck, Option.isSome_iff_exists.mp (by simp [sendStep, hpc])⟩
  | clearAvailable k =>
      exact ⟨.clearAvailable, Option.isSome_iff_exists.mp (by simp [sendStep, hpc])⟩
  | setActive k => exact ⟨.setActive, Option.isSome_iff_exists.mp (by simp [sendStep, hpc])⟩
  | startCapture k =>
      exact ⟨.startCapture 0, Option.isSome_iff_exists.mp (by simp [sendStep, hpc])⟩
  | waiting k => exact ⟨.endWait, Option.isSome_iff_exists.mp (by simp [sendStep, hpc])⟩
  | clearActive k rc =>
      exact ⟨.clearActive, Option.isSome_iff_exists.mp (by simp [sendStep, hpc])⟩
  | stopCapture k rc =>
      refine ⟨.stopCapture 0, Option.isSome_iff_exists.mp ?_⟩
      simp only [sendStep, hpc]
      split
      · rfl
      · split
        · rfl
        · rfl

theorem send_left {s s' : AckSystem} {a : AckAct} (h : s.send ≠ .outside)
    (hs : SendStep s a s') : s'.send.left < s.send.left := by
  cases hs with
  | call hpc => exact absurd hpc h
  | again hpc _ hk =>
      rw [hpc]
      simp only [SendPc.left]
      omega
  | acked hpc => rw [hpc]; exact Nat.succ_pos _
  | exhausted hpc _ _ => rw [hpc]; exact Nat.succ_pos _
  | transmit hpc => rw [hpc]; exact Nat.lt_succ_self _
  | resetAck hpc => rw [hpc]; exact Nat.lt_succ_self _
  | clearAvailable hpc => rw [hpc]; exact Nat.lt_succ_self _
  | setActive hpc => rw [hpc]; exact Nat.lt_succ_self _
  | startCapture hpc => rw [hpc]; exact Nat.lt_succ_self _
  | endWait hpc => rw [hpc]; exact Nat.lt_succ_self _
  | clearActive hpc => rw [hpc]; exact Nat.lt_succ_self _

theorem step_of_workStep {s s' : AckSystem} {a : AckAct} (hs : s.workStep a = some s') :
    s.step a = some s' := by
  cases a with
  | isr evt => cases hs
  | verboseStart err => cases hs
  | verboseStop err => cases hs
  | _ => simp only [step, hs, Option.some_or]

theorem step_of_sendStep {s s' : AckSystem} {a : AckAct} (hidle : s.work = .idle)
    (hs : s.sendStep a = some s') : s.step a = some s' := by
  cases a with
  | isr evt => cases hs
  | verboseStart err => cases hs
  | verboseStop err => cases hs
  | workStart => cases hs
  | workCheck => cases hs
  | workPick => cases hs
  | workCompute above => cases hs
  | workSignal => cases hs
  | _ => simp only [step, workStep, hidle, hs, if_true, Option.none_or]

/-- Left to itself, the handler comes to its end. -/
theorem handler_done (s : AckSystem) : ∃ acts s', machine.run s acts = some s' ∧
    s'.work = .idle ∧ s'.send = s.send ∧ ∀ a ∈ acts, a.Handler := by
  by_cases hidle : s.work = .idle
  · exact ⟨[], s, rfl, hidle, rfl, by simp⟩
  · obtain ⟨a, s₁, hs⟩ := work_enabled hidle
    have hleft := work_left hidle (workStep_cases hs)
    have hsend : s₁.send = s.send ∧ a.Handler := by cases workStep_cases hs <;> exact ⟨rfl, trivial⟩
    obtain ⟨acts, s', hrun, hdone, hsend', hacts⟩ := handler_done s₁
    refine ⟨a :: acts, s', ?_, hdone, hsend'.trans hsend.1, ?_⟩
    · rw [Machine.run_cons_of_step _ (step_of_workStep hs), hrun]
    · intro b hb
      rcases List.mem_cons.mp hb with rfl | hmem
      · exact hsend.2
      · exact hacts b hmem
termination_by s.work.left
decreasing_by exact hleft

/-- **A call returns**: left to themselves, the handler and the dispatch thread come to the
end of the call, the handler first. -/
theorem call_returns (s : AckSystem) : ∃ acts s', machine.run s acts = some s' ∧
    s'.send = .outside := by
  by_cases hcall : s.send = .outside
  · exact ⟨[], s, rfl, hcall⟩
  · obtain ⟨handler, s₁, hrun₁, hidle, hsend, -⟩ := handler_done s
    rw [← hsend] at hcall
    obtain ⟨a, s₂, hs⟩ := send_enabled hcall
    have hleft := send_left hcall (sendStep_cases hs)
    obtain ⟨acts, s', hrun, hend⟩ := call_returns s₂
    refine ⟨handler ++ a :: acts, s', ?_, hend⟩
    rw [Machine.run_append_of_run _ hrun₁, Machine.run_cons_of_step _ (step_of_sendStep hidle hs),
      hrun]
termination_by s.send.left
decreasing_by
  rw [← hsend]
  exact hleft

/-! ### The result -/

/-- **An acknowledgement is never stale, and the retries stop at the first.**  In every run:
an attempt is acknowledged exactly if the handler found `cut > threshold` with
`pdm_capture_active` set, on a buffer released in that attempt's window; every call of
`ir_send_command` that returned transmitted its frame once for each attempt up to the first
acknowledged one, or ten times; it returned whether there was one; outside a call
`pdm_capture_active` is down; and a call in progress can always be brought to its end. -/
theorem ack_sound {s : AckSystem} (h : machine.Reachable s) :
    (∀ a ∈ s.log.attempts, AttemptOk a) ∧ (∀ c ∈ s.returned, ResultOk c) ∧
      (s.send = .outside → s.pdm.captureActive = false) ∧
      ∃ acts s', machine.run s acts = some s' ∧ s'.send = .outside := by
  have hinv := inv_of_reach h
  refine ⟨hinv.log.attempts, hinv.returned, ?_, call_returns s⟩
  intro hpc
  apply hinv.capture.down
  rw [hpc]
  exact id

/-- A command whose second attempt is acknowledged. -/
theorem ack_sound_second : ∃ s : AckSystem, (∀ c ∈ s.returned, ResultOk c) ∧
    s.returned.map (fun c => (c.result, c.log.attempts.map Attempt.ack)) =
      [(true, [false, true])] := by
  obtain ⟨s, hrun, hreturned⟩ : ∃ s, machine.run start
      [.call (framePulses ⟨false, acModeCooling, 24, fanSpeedAuto⟩), .transmit, .resetAck,
        .clearAvailable, .setActive, .startCapture 0, .endWait, .isr ⟨true, some 1⟩, .clearActive,
        .stopCapture 0, .transmit, .workStart, .workCheck, .workPick, .workCompute true,
        .workSignal, .resetAck, .clearAvailable, .setActive, .startCapture 0,
        .isr ⟨true, some 0⟩, .workStart, .workCheck, .workPick, .workCompute true, .workSignal,
        .endWait, .clearActive, .stopCapture 0] = some s ∧
      s.returned.map (fun c => (c.result, c.log.attempts.map Attempt.ack)) =
        [(true, [false, true])] :=
    ⟨_, rfl, rfl⟩
  exact ⟨s, (ack_sound (Machine.reachable_of_run hrun)).2.1, hreturned⟩

end AckSystem

end Shirokumakun
