/-
The microphone manager, `pdm_manager.cpp`.

One record holds the statics of the file, the semaphore, the work item's pending bit and
what the peripheral is doing.  Every statement that another context can interleave with is
a definition of its own, and the functions of the file are these put together, so that a
model that runs whole calls and a model that runs statements use the same text.

`nrfx_pdm_start` and `nrfx_pdm_stop` may fail: their return value is a parameter, and a
call that fails leaves the peripheral alone.
-/
import Mathlib.Data.List.Basic

namespace Shirokumakun

/-- One of the two buffers of `pdm_buf`. -/
abbrev PdmBuf := Fin 2

/-- `nrfx_pdm_evt_t`. -/
structure PdmEvent where
  bufferRequested : Bool
  bufferReleased : Option PdmBuf

structure PdmManager where
  bufReadyIdx : PdmBuf
  bufAvailable : Bool
  /-- `pdm_process_work` is queued. -/
  workPending : Bool
  ackSem : Nat
  captureActive : Bool
  verbose : Bool
  verboseOwn : Bool
  /-- `next` of `pdm_event_handler`. -/
  next : PdmBuf
  /-- The peripheral captures. -/
  running : Bool
  /-- The buffers given to `nrfx_pdm_buffer_set`. -/
  handed : List PdmBuf

namespace PdmManager

/-- After `pdm_manager_init`. -/
def initial : PdmManager := ⟨0, false, false, 0, false, false, false, 0, false, []⟩

/-! ### The driver and the kernel -/

def nrfxPdmStart (m : PdmManager) (err : Int) : PdmManager :=
  if err < 0 then m else { m with running := true }

def nrfxPdmStop (m : PdmManager) (err : Int) : PdmManager :=
  if err < 0 then m else { m with running := false }

/-- `k_sem_reset(&ack_sem)`. -/
def resetAck (m : PdmManager) : PdmManager := { m with ackSem := 0 }

/-- `k_sem_give(&ack_sem)`: the count saturates at 1. -/
def giveAck (m : PdmManager) : PdmManager := { m with ackSem := min (m.ackSem + 1) 1 }

/-- `-EAGAIN`. -/
def eagain : Int := -11

/-- `k_sem_take(&ack_sem, K_MSEC(timeout_ms))` as it returns: with the count taken, or at the
end of the timeout with none given. -/
def takeAck (m : PdmManager) : PdmManager × Int :=
  if 0 < m.ackSem then ({ m with ackSem := m.ackSem - 1 }, 0) else (m, eagain)

/-! ### The interrupt and the work item -/

/-- `pdm_event_handler`. -/
def eventHandler (m : PdmManager) (evt : PdmEvent) : PdmManager :=
  let m :=
    if evt.bufferRequested then { m with handed := m.handed ++ [m.next], next := 1 - m.next }
    else m
  match evt.bufferReleased with
  | some idx => { m with bufReadyIdx := idx, bufAvailable := true, workPending := true }
  | none => m

/-- The pick-up of `pdm_process_work_handler`, under `irq_lock`: `idx` and the cleared flag. -/
def pickUp (m : PdmManager) : PdmManager × PdmBuf :=
  ({ m with bufAvailable := false }, m.bufReadyIdx)

/-- The end of `pdm_process_work_handler`, `above` being `cut > cfar_thresh`. -/
def signal (m : PdmManager) (above : Bool) : PdmManager :=
  if m.captureActive && above then m.giveAck else m

/-! ### Listening -/

/-- `buf_available = false`. -/
def clearAvailable (m : PdmManager) : PdmManager := { m with bufAvailable := false }

def setActive (m : PdmManager) : PdmManager := { m with captureActive := true }

def clearActive (m : PdmManager) : PdmManager := { m with captureActive := false }

/-- The start of the capture and the check of its result. -/
def startCapture (m : PdmManager) (err : Int) : PdmManager :=
  let m := m.nrfxPdmStart err
  if err < 0 then m.clearActive else m

/-- `pdm_manager_start_listen`. -/
def startListen (m : PdmManager) (err : Int) : PdmManager :=
  ((m.resetAck.clearAvailable).setActive).startCapture err

/-- `pdm_manager_collect_ack`, from the end of the wait on; a failing stop is only logged. -/
def collectAck (m : PdmManager) (err : Int) : PdmManager × Bool :=
  let (m, rc) := m.takeAck
  ((m.clearActive).nrfxPdmStop err, rc == 0)

/-! ### Verbose output -/

/-- `pdm_manager_verbose_start`. -/
def verboseStart (m : PdmManager) (err : Int) : PdmManager :=
  let m := { m with verbose := true }
  if m.captureActive = false then
    let m := m.nrfxPdmStart err
    if err < 0 then m else { m with verboseOwn := true }
  else m

/-- `pdm_manager_verbose_stop`. -/
def verboseStop (m : PdmManager) (err : Int) : PdmManager :=
  let m : PdmManager := { m with verbose := false }
  if m.verboseOwn = true then
    let m := m.nrfxPdmStop err
    { m with verboseOwn := false }
  else m

/-! ### What a call writes -/

section

variable (m : PdmManager) (err : Int)

theorem nrfxPdmStart_writes : ∃ running, m.nrfxPdmStart err = { m with running := running } := by
  unfold nrfxPdmStart
  split
  · exact ⟨m.running, rfl⟩
  · exact ⟨true, rfl⟩

theorem nrfxPdmStop_writes : ∃ running, m.nrfxPdmStop err = { m with running := running } := by
  unfold nrfxPdmStop
  split
  · exact ⟨m.running, rfl⟩
  · exact ⟨false, rfl⟩

theorem startCapture_writes : ∃ active running,
    m.startCapture err = { m with captureActive := active, running := running } := by
  obtain ⟨running, hstart⟩ := nrfxPdmStart_writes m err
  unfold startCapture
  dsimp only
  rw [hstart]
  split
  · exact ⟨false, running, rfl⟩
  · exact ⟨m.captureActive, running, rfl⟩

theorem verboseStart_writes : ∃ own running,
    m.verboseStart err = { m with verbose := true, verboseOwn := own, running := running } := by
  obtain ⟨running, hstart⟩ := nrfxPdmStart_writes { m with verbose := true } err
  unfold verboseStart
  dsimp only
  rw [hstart]
  split
  · split
    · exact ⟨m.verboseOwn, running, rfl⟩
    · exact ⟨true, running, rfl⟩
  · exact ⟨m.verboseOwn, m.running, rfl⟩

theorem verboseStop_writes : ∃ own running,
    m.verboseStop err = { m with verbose := false, verboseOwn := own, running := running } := by
  obtain ⟨running, hstop⟩ := nrfxPdmStop_writes { m with verbose := false } err
  unfold verboseStop
  dsimp only
  rw [hstop]
  split
  · exact ⟨false, running, rfl⟩
  · exact ⟨m.verboseOwn, m.running, rfl⟩

theorem takeAck_writes : ∃ ackSem, m.takeAck.1 = { m with ackSem := ackSem } := by
  unfold takeAck
  split
  · exact ⟨m.ackSem - 1, rfl⟩
  · exact ⟨m.ackSem, rfl⟩

theorem signal_writes (above : Bool) :
    ∃ ackSem, m.signal above = { m with ackSem := ackSem } := by
  unfold signal
  split
  · exact ⟨min (m.ackSem + 1) 1, rfl⟩
  · exact ⟨m.ackSem, rfl⟩

end

/-! ### What a call leaves alone -/

/-- `m'` has the parts of `m` that an acknowledgement rests on. -/
structure SameAck (m m' : PdmManager) : Prop where
  ackSem : m'.ackSem = m.ackSem
  bufAvailable : m'.bufAvailable = m.bufAvailable
  bufReadyIdx : m'.bufReadyIdx = m.bufReadyIdx
  captureActive : m'.captureActive = m.captureActive

theorem sameAck_nrfxPdmStop (m : PdmManager) (err : Int) : SameAck m (m.nrfxPdmStop err) := by
  obtain ⟨running, hstop⟩ := nrfxPdmStop_writes m err
  rw [hstop]
  exact ⟨rfl, rfl, rfl, rfl⟩

theorem sameAck_verboseStart (m : PdmManager) (err : Int) : SameAck m (m.verboseStart err) := by
  obtain ⟨own, running, hstart⟩ := verboseStart_writes m err
  rw [hstart]
  exact ⟨rfl, rfl, rfl, rfl⟩

theorem sameAck_verboseStop (m : PdmManager) (err : Int) : SameAck m (m.verboseStop err) := by
  obtain ⟨own, running, hstop⟩ := verboseStop_writes m err
  rw [hstop]
  exact ⟨rfl, rfl, rfl, rfl⟩

/-- Starting the capture clears the flag again or leaves all of it alone. -/
theorem startCapture_spec (m : PdmManager) (err : Int) :
    (m.startCapture err).ackSem = m.ackSem ∧
      (m.startCapture err).bufAvailable = m.bufAvailable ∧
      (m.startCapture err).bufReadyIdx = m.bufReadyIdx := by
  obtain ⟨active, running, hstart⟩ := startCapture_writes m err
  rw [hstart]
  exact ⟨rfl, rfl, rfl⟩

theorem takeAck_spec (m : PdmManager) :
    m.takeAck.1.bufAvailable = m.bufAvailable ∧ m.takeAck.1.bufReadyIdx = m.bufReadyIdx ∧
      ((m.takeAck.2 == 0) = true ↔ 0 < m.ackSem) := by
  unfold takeAck
  by_cases hsem : 0 < m.ackSem
  · rw [if_pos hsem]
    exact ⟨rfl, rfl, by simp [hsem]⟩
  · rw [if_neg hsem]
    exact ⟨rfl, rfl, by simp [hsem, eagain]⟩

theorem signal_spec (m : PdmManager) (above : Bool) :
    (m.signal above).bufAvailable = m.bufAvailable ∧
      (m.signal above).bufReadyIdx = m.bufReadyIdx ∧
      (m.signal above).captureActive = m.captureActive ∧
      (0 < (m.signal above).ackSem ↔
        0 < m.ackSem ∨ (m.captureActive = true ∧ above = true)) := by
  unfold signal
  by_cases hgive : (m.captureActive && above) = true
  · rw [if_pos hgive]
    refine ⟨rfl, rfl, rfl, ?_⟩
    have hboth : m.captureActive = true ∧ above = true := by simpa using hgive
    simp [giveAck, hboth]
  · rw [if_neg hgive]
    refine ⟨rfl, rfl, rfl, ?_⟩
    have hnot : ¬ (m.captureActive = true ∧ above = true) := by simpa using hgive
    exact (or_iff_left hnot).symm

theorem eventHandler_spec (m : PdmManager) (evt : PdmEvent) :
    (m.eventHandler evt).ackSem = m.ackSem ∧
      (m.eventHandler evt).captureActive = m.captureActive ∧
      match evt.bufferReleased with
      | some idx =>
          (m.eventHandler evt).bufReadyIdx = idx ∧ (m.eventHandler evt).bufAvailable = true
      | none => (m.eventHandler evt).bufReadyIdx = m.bufReadyIdx ∧
          (m.eventHandler evt).bufAvailable = m.bufAvailable := by
  unfold eventHandler
  cases evt.bufferReleased with
  | some idx => dsimp only; split <;> exact ⟨rfl, rfl, rfl, rfl⟩
  | none => dsimp only; split <;> exact ⟨rfl, rfl, rfl, rfl⟩

end PdmManager

end Shirokumakun
