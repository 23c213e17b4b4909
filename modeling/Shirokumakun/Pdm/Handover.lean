/-
The two buffers between driver and program.

The driver holds the buffers it has been handed, oldest first.  It raises an event to ask for
one while it holds at most one, and to give the oldest back; a stop gives back all of them.
`next` of `pdm_event_handler` alternates and is never reset, whatever happens in between; that
this never hands out a buffer twice rests on the order in which the driver gives them back:
what it holds is always the end of the pair `next`, `next ^ 1`.

The handler runs as in `Pdm/Attempts.lean`, statement by statement, with events between any
two.  `released` lists the buffers given back so far, and the three counters say how many
there were when `pdm_manager_start_listen` last cleared the flag, when the handler last picked
a buffer up, and when it picked up the buffer it last finished with.
-/
import Shirokumakun.Pdm.Attempts

namespace Shirokumakun

open Transition

/-! ### Driver and program -/

structure Handover where
  ack : AckSystem
  /-- The buffers the driver holds, oldest first. -/
  held : List PdmBuf
  released : List PdmBuf
  clearedAt : Nat
  inHand : Nat
  processed : Nat

/-- An event of the driver, a stop, or a step of a thread or of the handler. -/
inductive HandoverAct
  | event (evt : PdmEvent)
  | stopped
  | thread (a : AckAct)

/-- **The driver's contract**: what it still holds when it raises an event, without the
buffers it is about to be handed; `none` if it does not raise this event now. -/
def contract (held : List PdmBuf) (evt : PdmEvent) : Option (List PdmBuf) :=
  match evt.bufferReleased with
  | some buf =>
      if held.head? = some buf ∧ ¬ (evt.bufferRequested = true ∧ 1 < held.tail.length) then
        some held.tail
      else none
  | none => if evt.bufferRequested = true ∧ 1 < held.length then none else some held

/-- The buffers `pdm_event_handler` hands to the driver. -/
def given (m : PdmManager) (evt : PdmEvent) : List PdmBuf :=
  (m.eventHandler evt).handed.drop m.handed.length

namespace Handover

def start : Handover := ⟨.start, [], [], 0, 0, 0⟩

/-- The interrupt, with `rest` still held. -/
def raise (s : Handover) (evt : PdmEvent) (rest : List PdmBuf) : Handover :=
  { s with
    ack := s.ack.isr evt
    held := rest ++ given s.ack.pdm evt
    released := s.released ++ evt.bufferReleased.toList }

/-- The driver gives back what it holds, one buffer after the other.  (With other steps in
between, these are events like any other.) -/
def giveBack (s : Handover) : Handover :=
  s.held.foldl (fun s buf => s.raise ⟨false, some buf⟩ s.held.tail) s

/-- What is noted of a step of a thread or of the handler. -/
def note (s : Handover) (ack : AckSystem) : AckAct → Handover
  | .clearAvailable => { s with ack := ack, clearedAt := s.released.length }
  | .workPick => { s with ack := ack, inHand := s.released.length }
  | .workSignal => { s with ack := ack, processed := s.inHand }
  | _ => { s with ack := ack }

def step (s : Handover) : HandoverAct → Option Handover
  | .event evt => (contract s.held evt).map (s.raise evt)
  | .stopped => some s.giveBack
  | .thread (.isr _) => none
  | .thread a => (s.ack.step a).map fun ack => s.note ack a

def machine : Machine Handover HandoverAct := ⟨start, step⟩

/-! ### The invariant -/

/-- The buffer the handler has picked up and not finished with. -/
def taken : WorkPc → Option PdmBuf
  | .computing idx _ => some idx
  | .judging idx _ _ => some idx
  | _ => none

structure Inv (s : Handover) : Prop where
  held : s.held <:+ [s.ack.pdm.next, 1 - s.ack.pdm.next]
  readyIdx : ∀ buf, s.released.getLast? = some buf → s.ack.pdm.bufReadyIdx = buf
  /-- An available buffer has been released, and the handler has yet to look. -/
  available : s.ack.pdm.bufAvailable = true → s.released ≠ [] ∧
    (s.ack.pdm.workPending = true ∨ s.ack.work = .started ∨ s.ack.work = .picking)
  picking : s.ack.work = .picking → s.ack.pdm.bufAvailable = true
  /-- What is in hand is the buffer of the release it was picked up after. -/
  inHand : ∀ idx, taken s.ack.work = some idx →
    0 < s.inHand ∧ s.released[s.inHand - 1]? = some idx
  /-- An unavailable buffer has been dealt with, or is being so. -/
  settled : s.ack.pdm.bufAvailable = false →
    s.clearedAt = s.released.length ∨
      (taken s.ack.work = none ∧ s.processed = s.released.length) ∨
      (taken s.ack.work ≠ none ∧ s.inHand = s.released.length)

theorem inv_start : Inv start := by
  refine ⟨?_, ?_, ?_, ?_, ?_, ?_⟩
  · exact List.nil_suffix
  · intro buf h
    exact absurd h.symm (Option.some_ne_none buf)
  · intro h
    exact absurd h Bool.false_ne_true
  · intro h
    exact WorkPc.noConfusion h
  · intro idx h
    exact absurd h.symm (Option.some_ne_none idx)
  · intro _
    exact Or.inl rfl

/-! ### Events -/

theorem given_eq (m : PdmManager) (evt : PdmEvent) :
    given m evt = if evt.bufferRequested = true then [m.next] else [] := by
  unfold given PdmManager.eventHandler
  by_cases hreq : evt.bufferRequested = true
  · rw [if_pos hreq, if_pos hreq]
    cases evt.bufferReleased with
    | none => exact List.drop_left
    | some buf => exact List.drop_left
  · rw [if_neg hreq, if_neg hreq]
    cases evt.bufferReleased with
    | none => exact List.drop_length
    | some buf => exact List.drop_length

theorem next_eventHandler (m : PdmManager) (evt : PdmEvent) :
    (m.eventHandler evt).next = if evt.bufferRequested = true then 1 - m.next else m.next := by
  unfold PdmManager.eventHandler
  by_cases hreq : evt.bufferRequested = true
  · rw [if_pos hreq, if_pos hreq]
    cases evt.bufferReleased with
    | none => rfl
    | some buf => rfl
  · rw [if_neg hreq, if_neg hreq]
    cases evt.bufferReleased with
    | none => rfl
    | some buf => rfl

theorem workPending_eventHandler (m : PdmManager) (evt : PdmEvent) :
    (m.eventHandler evt).workPending
      = if evt.bufferReleased = none then m.workPending else true := by
  unfold PdmManager.eventHandler
  cases evt.bufferReleased with
  | none =>
      rw [if_pos rfl]
      dsimp only
      split
      · rfl
      · rfl
  | some buf => rfl

/-- What the driver holds on to is the end of what it held. -/
theorem contract_cases {held rest : List PdmBuf} {evt : PdmEvent}
    (h : contract held evt = some rest) :
    rest <:+ held ∧ (evt.bufferRequested = true → rest.length ≤ 1) := by
  unfold contract at h
  cases hr : evt.bufferReleased with
  | some buf =>
      rw [hr] at h
      dsimp only at h
      by_cases hok : held.head? = some buf ∧
          ¬ (evt.bufferRequested = true ∧ 1 < held.tail.length)
      · rw [if_pos hok, Option.some.injEq] at h
        subst h
        refine ⟨List.tail_suffix held, ?_⟩
        intro hreq
        exact Nat.not_lt.mp fun hlt => hok.2 ⟨hreq, hlt⟩
      · rw [if_neg hok] at h
        exact absurd h.symm (Option.some_ne_none rest)
  | none =>
      rw [hr] at h
      dsimp only at h
      by_cases hno : evt.bufferRequested = true ∧ 1 < held.length
      · rw [if_pos hno] at h
        exact absurd h.symm (Option.some_ne_none rest)
      · rw [if_neg hno, Option.some.injEq] at h
        subst h
        refine ⟨List.suffix_refl held, ?_⟩
        intro hreq
        exact Nat.not_lt.mp fun hlt => hno ⟨hreq, hlt⟩

/-- A short end of the pair is without its first buffer. -/
theorem suffix_of_length_le_one {next : PdmBuf} {rest : List PdmBuf}
    (h : rest <:+ [next, 1 - next]) (hlen : rest.length ≤ 1) : rest <:+ [1 - next] := by
  rcases List.suffix_cons_iff.mp h with rfl | hshort
  · exact absurd hlen (Nat.not_le.mpr Nat.one_lt_two)
  · exact hshort

theorem ne_flip : ∀ next : PdmBuf, next ≠ 1 - next := by
  decide

theorem flip_flip : ∀ next : PdmBuf, 1 - (1 - next) = next := by
  decide

/-- **What is handed out is not held**, and what is held then is the end of the new pair. -/
theorem held_raise {m : PdmManager} {evt : PdmEvent} {held rest : List PdmBuf}
    (h : held <:+ [m.next, 1 - m.next]) (hrest : contract held evt = some rest) :
    (∀ buf ∈ given m evt, buf ∉ rest) ∧
      rest ++ given m evt <:+ [(m.eventHandler evt).next, 1 - (m.eventHandler evt).next] := by
  obtain ⟨hsuffix, hshort⟩ := contract_cases hrest
  have hpair := hsuffix.trans h
  rw [given_eq, next_eventHandler]
  by_cases hreq : evt.bufferRequested = true
  · have hone := suffix_of_length_le_one hpair (hshort hreq)
    rw [if_pos hreq, if_pos hreq, flip_flip]
    refine ⟨?_, ?_⟩
    · intro buf hbuf hmem
      rw [List.mem_singleton.mp hbuf] at hmem
      exact ne_flip m.next (List.mem_singleton.mp (hone.subset hmem))
    · obtain ⟨front, hfront⟩ := hone
      refine ⟨front, ?_⟩
      rw [← List.append_assoc, hfront]
      rfl
  · rw [if_neg hreq, if_neg hreq, List.append_nil]
    refine ⟨?_, hpair⟩
    intro buf hbuf
    exact absurd hbuf List.not_mem_nil

/-- **An event keeps the invariant.** -/
theorem inv_raise {s : Handover} {evt : PdmEvent} {rest : List PdmBuf} (h : Inv s)
    (hrest : contract s.held evt = some rest) : Inv (s.raise evt rest) := by
  obtain ⟨-, -, hevt⟩ := PdmManager.eventHandler_spec s.ack.pdm evt
  have hpending := workPending_eventHandler s.ack.pdm evt
  have hheld := (held_raise h.held hrest).2
  cases hr : evt.bufferReleased with
  | some buf =>
      rw [hr] at hevt hpending
      have hreleased : (s.raise evt rest).released = s.released ++ [buf] := by
        rw [raise, hr]
        rfl
      refine ⟨hheld, ?_, ?_, fun _ => hevt.2, ?_, ?_⟩
      · intro last hlast
        rw [hreleased, List.getLast?_concat, Option.some.injEq] at hlast
        exact hevt.1.trans hlast
      · intro _
        rw [hreleased]
        exact ⟨List.concat_ne_nil buf s.released, Or.inl hpending⟩
      · intro idx htaken
        obtain ⟨hpos, hidx⟩ := h.inHand idx htaken
        have hlt := (List.getElem?_eq_some_iff.mp hidx).1
        rw [hreleased]
        exact ⟨hpos, (List.getElem?_append_left hlt).trans hidx⟩
      · intro hno
        rw [show (s.raise evt rest).ack.pdm.bufAvailable = true from hevt.2] at hno
        exact absurd hno.symm Bool.false_ne_true
  | none =>
      rw [hr] at hevt hpending
      have hreleased : (s.raise evt rest).released = s.released := by
        rw [raise, hr]
        exact List.append_nil _
      have havail : (s.raise evt rest).ack.pdm.bufAvailable = s.ack.pdm.bufAvailable := hevt.2
      have hwork : (s.raise evt rest).ack.pdm.workPending = s.ack.pdm.workPending := hpending
      refine ⟨hheld, ?_, ?_, ?_, ?_, ?_⟩
      · intro last hlast
        rw [hreleased] at hlast
        exact hevt.1.trans (h.readyIdx last hlast)
      · rw [havail, hwork, hreleased]
        exact h.available
      · rw [havail]
        exact h.picking
      · rw [hreleased]
        exact h.inHand
      · rw [havail, hreleased]
        exact h.settled

/-- So do the events of a stop, one after the other. -/
theorem inv_giveBack {s : Handover} (h : Inv s) : Inv s.giveBack := by
  have hall : ∀ (bufs : List PdmBuf) (s : Handover), s.held = bufs → Inv s →
      Inv (bufs.foldl (fun s buf => s.raise ⟨false, some buf⟩ s.held.tail) s) := by
    intro bufs
    induction bufs with
    | nil =>
        intro s _ h
        exact h
    | cons buf rest ih =>
        intro s hheld h
        have hrest : contract s.held ⟨false, some buf⟩ = some s.held.tail := by
          rw [hheld]
          exact if_pos ⟨rfl, fun hreq => Bool.false_ne_true hreq.1⟩
        refine ih _ ?_ (inv_raise h hrest)
        show s.held.tail ++ given s.ack.pdm ⟨false, some buf⟩ = rest
        rw [given_eq, hheld]
        exact List.append_nil rest
  exact hall s.held s rfl h

/-! ### Threads and handler -/

/-- The parts of the manager the invariant is about. -/
structure SameBuffers (m m' : PdmManager) : Prop where
  next : m'.next = m.next
  bufReadyIdx : m'.bufReadyIdx = m.bufReadyIdx
  bufAvailable : m'.bufAvailable = m.bufAvailable
  workPending : m'.workPending = m.workPending

theorem Inv.of_same {s : Handover} {ack : AckSystem} (h : Inv s)
    (hsame : SameBuffers s.ack.pdm ack.pdm) (hwork : ack.work = s.ack.work) :
    Inv { s with ack := ack } := by
  refine ⟨?_, ?_, ?_, ?_, ?_, ?_⟩
  · show s.held <:+ [ack.pdm.next, 1 - ack.pdm.next]
    rw [hsame.next]
    exact h.held
  · intro buf hbuf
    exact hsame.bufReadyIdx.trans (h.readyIdx buf hbuf)
  · show ack.pdm.bufAvailable = true → s.released ≠ [] ∧
      (ack.pdm.workPending = true ∨ ack.work = .started ∨ ack.work = .picking)
    rw [hsame.bufAvailable, hsame.workPending, hwork]
    exact h.available
  · show ack.work = .picking → ack.pdm.bufAvailable = true
    rw [hsame.bufAvailable, hwork]
    exact h.picking
  · show ∀ idx, taken ack.work = some idx → _
    rw [hwork]
    exact h.inHand
  · show ack.pdm.bufAvailable = false → _ ∨ (taken ack.work = none ∧ _) ∨
      (taken ack.work ≠ none ∧ _)
    rw [hsame.bufAvailable, hwork]
    exact h.settled

section

variable (m : PdmManager) (err : Int)

theorem sameBuffers_nrfxPdmStop : SameBuffers m (m.nrfxPdmStop err) := by
  obtain ⟨running, hstop⟩ := m.nrfxPdmStop_writes err
  rw [hstop]
  exact ⟨rfl, rfl, rfl, rfl⟩

theorem sameBuffers_startCapture : SameBuffers m (m.startCapture err) := by
  obtain ⟨active, running, hstart⟩ := m.startCapture_writes err
  rw [hstart]
  exact ⟨rfl, rfl, rfl, rfl⟩

theorem sameBuffers_verboseStart : SameBuffers m (m.verboseStart err) := by
  obtain ⟨own, running, hstart⟩ := m.verboseStart_writes err
  rw [hstart]
  exact ⟨rfl, rfl, rfl, rfl⟩

theorem sameBuffers_verboseStop : SameBuffers m (m.verboseStop err) := by
  obtain ⟨own, running, hstop⟩ := m.verboseStop_writes err
  rw [hstop]
  exact ⟨rfl, rfl, rfl, rfl⟩

theorem sameBuffers_takeAck : SameBuffers m m.takeAck.1 := by
  obtain ⟨ackSem, htake⟩ := m.takeAck_writes
  rw [htake]
  exact ⟨rfl, rfl, rfl, rfl⟩

theorem sameBuffers_signal (above : Bool) : SameBuffers m (m.signal above) := by
  obtain ⟨ackSem, hsignal⟩ := m.signal_writes above
  rw [hsignal]
  exact ⟨rfl, rfl, rfl, rfl⟩

end

/-- Once the handler has looked, only a queued work item can pick the buffer up. -/
theorem Inv.pending_of_available {s : Handover} (h : Inv s) (hstarted : s.ack.work ≠ .started)
    (hpicking : s.ack.work ≠ .picking) (havail : s.ack.pdm.bufAvailable = true) :
    s.released ≠ [] ∧ s.ack.pdm.workPending = true := by
  obtain ⟨hne, hpending | hwork | hwork⟩ := h.available havail
  · exact ⟨hne, hpending⟩
  · exact absurd hwork hstarted
  · exact absurd hwork hpicking

/-- `bufReadyIdx` is the last buffer released. -/
theorem Inv.getElem?_released {s : Handover} (h : Inv s) (hne : s.released ≠ []) :
    s.released[s.released.length - 1]? = some s.ack.pdm.bufReadyIdx := by
  have hlast := List.getLast?_eq_some_getLast hne
  rw [h.readyIdx _ hlast, ← List.getLast?_eq_getElem?]
  exact hlast

theorem workCheck_eq {ack ack' : AckSystem} (h : ack.step .workCheck = some ack') :
    ack.work = .started ∧
      ack' = { ack with work := if ack.pdm.bufAvailable = true then .picking else .idle } := by
  have hstep : (if ack.work = .started then
      some { ack with work := if ack.pdm.bufAvailable = true then .picking else .idle }
      else none).or (if ack.work = .idle then none else none) = some ack' := h
  rw [ite_self, Option.or_none] at hstep
  by_cases hstarted : ack.work = .started
  · rw [if_pos hstarted, Option.some.injEq] at hstep
    exact ⟨hstarted, hstep.symm⟩
  · rw [if_neg hstarted] at hstep
    exact absurd hstep.symm (Option.some_ne_none ack')

/-- With nothing in hand before and after, the handler only has to keep looking as long as a
buffer is available. -/
theorem Inv.of_untaken {s : Handover} {work : WorkPc} {pending : Bool} (h : Inv s)
    (hbefore : taken s.ack.work = none) (hafter : taken work = none)
    (hlook : s.ack.pdm.bufAvailable = true → pending = true ∨ work = .started ∨ work = .picking)
    (hpicking : work = .picking → s.ack.pdm.bufAvailable = true) :
    Inv { s with
      ack := { s.ack with pdm := { s.ack.pdm with workPending := pending }, work := work } } := by
  have hinHand := h.inHand
  have hsettled := h.settled
  rw [hbefore.trans hafter.symm] at hinHand hsettled
  refine ⟨h.held, h.readyIdx, ?_, hpicking, hinHand, hsettled⟩
  intro havail
  exact ⟨(h.available havail).1, hlook havail⟩

/-- The test of `buf_available`: nothing is missed by returning, since a release before the
test has made the buffer available and one after it queues the work item again. -/
theorem inv_workCheck {s : Handover} {ack : AckSystem} (h : Inv s)
    (hstep : s.ack.step .workCheck = some ack) : Inv { s with ack := ack } := by
  obtain ⟨hstarted, rfl⟩ := workCheck_eq hstep
  have hbefore : taken s.ack.work = none := by
    rw [hstarted]
    rfl
  by_cases havail : s.ack.pdm.bufAvailable = true
  · rw [if_pos havail]
    exact h.of_untaken hbefore rfl (fun _ => Or.inr (Or.inr rfl)) fun _ => havail
  · rw [if_neg havail]
    exact h.of_untaken hbefore rfl (fun h => absurd h havail) nofun

/-- The pick-up: the buffer in hand is the one released last. -/
theorem inv_workPick {s : Handover} {released : Nat} (h : Inv s)
    (hpicking : s.ack.work = .picking) :
    Inv (s.note { s.ack with
      pdm := s.ack.pdm.clearAvailable
      work := .computing s.ack.pdm.bufReadyIdx released } .workPick) := by
  have hne := (h.available (h.picking hpicking)).1
  refine ⟨h.held, h.readyIdx, ?_, nofun, ?_, ?_⟩
  · intro havail
    exact absurd havail Bool.false_ne_true
  · intro idx hidx
    have hready : s.ack.pdm.bufReadyIdx = idx := Option.some.inj hidx
    rw [← hready]
    exact ⟨List.length_pos_iff.mpr hne, h.getElem?_released hne⟩
  · intro _
    exact Or.inr (Or.inr ⟨Option.some_ne_none _, rfl⟩)

theorem inv_workCompute {s : Handover} {idx : PdmBuf} {released : Nat} {above : Bool}
    (h : Inv s) (hcomputing : s.ack.work = .computing idx released) :
    Inv { s with ack := { s.ack with work := .judging idx released above } } := by
  have hinHand := h.inHand
  have hsettled := h.settled
  rw [hcomputing] at hinHand hsettled
  refine ⟨h.held, h.readyIdx, ?_, nofun, hinHand, hsettled⟩
  intro havail
  obtain ⟨hne, hpending⟩ := h.pending_of_available (by rw [hcomputing]; exact nofun)
    (by rw [hcomputing]; exact nofun) havail
  exact ⟨hne, Or.inl hpending⟩

/-- The end of the handler: what it had in hand is processed. -/
theorem inv_workSignal {s : Handover} {idx : PdmBuf} {released : Nat} {above : Bool}
    {heard : List Verdict} (h : Inv s) (hjudging : s.ack.work = .judging idx released above) :
    Inv (s.note { s.ack with
      pdm := s.ack.pdm.signal above
      work := .idle
      heard := heard } .workSignal) := by
  have hsettled := h.settled
  rw [hjudging] at hsettled
  obtain ⟨hnext, hidx, havail, hpending⟩ := sameBuffers_signal s.ack.pdm above
  refine ⟨?_, ?_, ?_, nofun, nofun, ?_⟩
  · show s.held <:+ [(s.ack.pdm.signal above).next, 1 - (s.ack.pdm.signal above).next]
    rw [hnext]
    exact h.held
  · intro buf hbuf
    exact hidx.trans (h.readyIdx buf hbuf)
  · intro hav
    obtain ⟨hne, hpend⟩ := h.pending_of_available (by rw [hjudging]; exact nofun)
      (by rw [hjudging]; exact nofun) (havail.symm.trans hav)
    exact ⟨hne, Or.inl (hpending.trans hpend)⟩
  · intro hno
    rcases hsettled (havail.symm.trans hno) with hcleared | ⟨hnone, -⟩ | ⟨-, hhand⟩
    · exact Or.inl hcleared
    · exact absurd hnone (Option.some_ne_none _)
    · exact Or.inr (Or.inl ⟨rfl, hhand⟩)

/-- The handler, but for its test of the flag. -/
theorem inv_work {s : Handover} {a : AckAct} {ack : AckSystem} (h : Inv s)
    (hstep : AckSystem.WorkStep s.ack a ack) (hcheck : a ≠ .workCheck) :
    Inv (s.note ack a) := by
  cases hstep with
  | workStart hidle _ =>
      have hbefore : taken s.ack.work = none := by
        rw [hidle]
        rfl
      exact h.of_untaken hbefore rfl (fun _ => Or.inr (Or.inl rfl)) nofun
  | workPick _ _ => exact absurd rfl hcheck
  | workNone _ => exact absurd rfl hcheck
  | workClear hpicking => exact inv_workPick h hpicking
  | workCompute hcomputing => exact inv_workCompute h hcomputing
  | workSignal hjudging => exact inv_workSignal h hjudging

/-- The dispatch thread, which runs only while the handler does not. -/
theorem inv_send {s : Handover} {a : AckAct} {ack : AckSystem} (h : Inv s)
    (hidle : s.ack.work = .idle) (hstep : AckSystem.SendStep s.ack a ack) :
    Inv (s.note ack a) := by
  have hself : SameBuffers s.ack.pdm s.ack.pdm := ⟨rfl, rfl, rfl, rfl⟩
  cases hstep with
  | call _ => exact h.of_same hself rfl
  | transmit _ => exact h.of_same hself rfl
  | resetAck _ => exact h.of_same ⟨rfl, rfl, rfl, rfl⟩ rfl
  | clearAvailable _ =>
      refine ⟨h.held, h.readyIdx, ?_, ?_, h.inHand, fun _ => Or.inl rfl⟩
      · intro havail
        exact absurd havail Bool.false_ne_true
      · intro hpicking
        exact absurd (hidle.symm.trans hpicking) nofun
  | setActive _ => exact h.of_same ⟨rfl, rfl, rfl, rfl⟩ rfl
  | startCapture _ => exact h.of_same (sameBuffers_startCapture _ _) rfl
  | endWait _ => exact h.of_same (sameBuffers_takeAck _) rfl
  | clearActive _ => exact h.of_same ⟨rfl, rfl, rfl, rfl⟩ rfl
  | acked _ => exact h.of_same (sameBuffers_nrfxPdmStop _ _) rfl
  | again _ _ _ => exact h.of_same (sameBuffers_nrfxPdmStop _ _) rfl
  | exhausted _ _ _ => exact h.of_same (sameBuffers_nrfxPdmStop _ _) rfl

/-- A step of a thread or of the handler is one of the system below, and noted. -/
theorem step_thread {s s' : Handover} {a : AckAct} (hs : s.step (.thread a) = some s') :
    (∀ evt, a ≠ .isr evt) ∧ ∃ ack, s.ack.step a = some ack ∧ s.note ack a = s' := by
  cases a with
  | isr evt => exact absurd hs.symm (Option.some_ne_none s')
  | _ => exact ⟨nofun, Option.map_eq_some_iff.mp (show (s.ack.step _).map _ = some s' from hs)⟩

/-- **Every step keeps the invariant.** -/
theorem inv_step {s s' : Handover} {a : HandoverAct} (h : Inv s) (hs : s.step a = some s') :
    Inv s' := by
  cases a with
  | event evt =>
      obtain ⟨rest, hrest, rfl⟩ := Option.map_eq_some_iff.mp hs
      exact inv_raise h hrest
  | stopped =>
      obtain rfl : s.giveBack = s' := Option.some.inj hs
      exact inv_giveBack h
  | thread a =>
      obtain ⟨hisr, ack, hack, rfl⟩ := step_thread hs
      by_cases hcheck : a = .workCheck
      · subst hcheck
        exact inv_workCheck h hack
      · cases AckSystem.step_cases hack with
        | isr => exact absurd rfl (hisr _)
        | verboseStart => exact h.of_same (sameBuffers_verboseStart _ _) rfl
        | verboseStop => exact h.of_same (sameBuffers_verboseStop _ _) rfl
        | work hwork => exact inv_work h hwork hcheck
        | send hidle hsend => exact inv_send h hidle hsend

theorem inv_of_reach {s : Handover} (h : machine.Reachable s) : Inv s :=
  h.invariant inv_start fun s a _ hI _ hs => inv_step (s := s) (a := a) hI hs

/-! ### The result -/

theorem nodup_pair (next : PdmBuf) : [next, 1 - next].Nodup := by
  rw [List.nodup_cons]
  refine ⟨?_, List.nodup_singleton (1 - next)⟩
  intro hmem
  exact ne_flip next (List.mem_singleton.mp hmem)

/-- **The handover is sound.**  In every run of driver, handler and threads: a buffer the
driver still holds is never handed to it, so it holds at most the two buffers, each once;
`buf_ready_idx` names the buffer released last, and the handler works on the buffer that was
released last when it picked it up; and when no work is queued or running, the buffer
released last has been processed, or `pdm_manager_start_listen` has cleared the flag since. -/
theorem handover_sound {s : Handover} (h : machine.Reachable s) :
    (∀ evt rest, contract s.held evt = some rest → ∀ buf ∈ given s.ack.pdm evt, buf ∉ rest) ∧
      s.held.length ≤ 2 ∧ s.held.Nodup ∧
      (∀ buf, s.released.getLast? = some buf → s.ack.pdm.bufReadyIdx = buf) ∧
      (∀ idx, taken s.ack.work = some idx → s.released[s.inHand - 1]? = some idx) ∧
      (s.ack.pdm.workPending = false → s.ack.work = .idle →
        s.processed = s.released.length ∨ s.clearedAt = s.released.length) := by
  have hinv := inv_of_reach h
  refine ⟨?_, hinv.held.length_le, (nodup_pair _).sublist hinv.held.sublist, hinv.readyIdx, ?_, ?_⟩
  · intro evt rest hrest
    exact (held_raise hinv.held hrest).1
  · intro idx hidx
    exact (hinv.inHand idx hidx).2
  · intro hpending hidle
    have hunavailable : s.ack.pdm.bufAvailable = false := by
      by_contra havail
      rw [Bool.not_eq_false] at havail
      obtain ⟨-, hpend⟩ := hinv.pending_of_available (by rw [hidle]; exact nofun)
        (by rw [hidle]; exact nofun) havail
      exact absurd (hpending.symm.trans hpend) Bool.false_ne_true
    have hsettled := hinv.settled hunavailable
    rw [hidle] at hsettled
    rcases hsettled with hcleared | ⟨-, hprocessed⟩ | ⟨htaken, -⟩
    · exact Or.inr hcleared
    · exact Or.inl hprocessed
    · exact absurd rfl htaken

/-- Two buffers are handed out; the first comes back while the driver asks for another, and
again while the handler works on it; the handler then runs a second time. -/
theorem handover_sound_twice : ∃ s : Handover,
    s.held = [0] ∧ s.released = [0, 1] ∧ s.ack.pdm.bufReadyIdx = 1 ∧
      (s.processed = 2 ∨ s.clearedAt = 2) := by
  obtain ⟨s, hrun, hheld, hreleased, hpending, hidle⟩ : ∃ s : Handover, machine.run start
      [.event ⟨true, none⟩, .event ⟨true, none⟩, .event ⟨true, some 0⟩, .thread .workStart,
        .thread .workCheck, .thread .workPick, .event ⟨false, some 1⟩,
        .thread (.workCompute true), .thread .workSignal, .thread .workStart,
        .thread .workCheck, .thread .workPick, .thread (.workCompute false),
        .thread .workSignal] = some s ∧
      s.held = [0] ∧ s.released = [0, 1] ∧ s.ack.pdm.workPending = false ∧ s.ack.work = .idle :=
    ⟨_, rfl, rfl, rfl, rfl, rfl⟩
  obtain ⟨-, -, -, hready, -, hquiet⟩ := handover_sound (Machine.reachable_of_run hrun)
  rw [hreleased] at hready hquiet
  exact ⟨s, hheld, hreleased, hready 1 rfl, hquiet hpending hidle⟩

end Handover

end Shirokumakun
