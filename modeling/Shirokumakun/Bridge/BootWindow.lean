/-
What becomes of a client's change while the device boots.

`zcl_callbacks_ready` records the attributes as already sent and then opens the gate
`ir_ready`; callbacks that come before are dropped.  That is meant to keep the restoring
of attributes at boot from being transmitted, and it does the same to a client's change:
one that arrives before the gate opens is not transmitted, whether the snapshot saw it or
not.  What the code does guarantee starts with the gate.

  * Once a callback has gone past the gate, the unit has been told the current state,
    unless that is the state recorded by the snapshot.
  * If no attribute is written before the gate opens, the snapshot is the state at the
    return of `StartServer()`, and no change from it is lost.
-/
import Shirokumakun.Bridge.Machine
import Mathlib.Data.List.Infix

namespace Shirokumakun

open Transition

/-! ### `zcl_callbacks_ready`, statement by statement -/

theorem ReadyStmt.exec_irReady (store : AttributeStore) (fr : ReadyFrame) (stmt : ReadyStmt) :
    (stmt.exec store fr).statics.irReady = true ↔
      fr.statics.irReady = true ∨ stmt = .setReady := by
  cases stmt <;> simp [exec, ReadyFrame.setLastSent]

theorem ReadyStmt.exec_lastSentValid (store : AttributeStore) (fr : ReadyFrame)
    (stmt : ReadyStmt) : (stmt.exec store fr).statics.lastSentValid = true ↔
      fr.statics.lastSentValid = true ∨ stmt = .setValid := by
  cases stmt <;> simp [exec, ReadyFrame.setLastSent]

/-- The gate is opened by the last statement and by no other. -/
theorem setReady_iff_last {stmt : ReadyStmt} {rest : List ReadyStmt}
    (h : stmt :: rest <:+ readyBody) : stmt = .setReady ↔ rest = [] := by
  have hall : ∀ l ∈ readyBody.tails, l.head? = some .setReady ↔ l ≠ [] ∧ l.tail = [] := by decide
  simpa using hall _ ((List.mem_tails _ _).mpr h)

namespace Threads

/-- The gate is open exactly when nothing is left to execute, and then `last_sent` is valid. -/
structure GateOk (todo : List ReadyStmt) (statics : IrStatics) : Prop where
  rest : todo <:+ readyBody
  gate : statics.irReady = true ↔ todo = []
  valid : statics.lastSentValid = true ∨ .setValid ∈ todo

theorem GateOk.exec {stmt : ReadyStmt} {rest : List ReadyStmt} {store : AttributeStore}
    {fr : ReadyFrame} (h : GateOk (stmt :: rest) fr.statics) :
    GateOk rest (stmt.exec store fr).statics := by
  refine ⟨(List.suffix_cons stmt rest).trans h.rest, ?_, ?_⟩
  · have hclosed : fr.statics.irReady ≠ true := fun hr => by simpa using h.gate.mp hr
    rw [ReadyStmt.exec_irReady, setReady_iff_last h.rest]
    exact or_iff_right hclosed
  · rw [ReadyStmt.exec_lastSentValid]
    rcases h.valid with hvalid | hmem
    · exact Or.inl (Or.inl hvalid)
    · rcases List.mem_cons.mp hmem with heq | hrest
      · exact Or.inl (Or.inr heq.symm)
      · exact Or.inr hrest

/-! ### What holds while the device boots and after -/

/-- The callback in progress has not read the gate. -/
def MatterPc.Waiting : MatterPc → Prop
  | .idle => True
  | .written _ => True
  | _ => False

/-- What was last dispatched is `last_sent` or about to become it; before the first dispatch
`last_sent` is the snapshot. -/
def OrderedOk (matter : MatterPc) (frames : List IrFrame) (lastSent snapshot : AcState) : Prop :=
  match matter with
  | .sent state => frames.getLast? = some (.ofState state)
  | _ => (frames = [] ∧ lastSent = snapshot) ∨ frames.getLast? = some (.ofState lastSent)

/-- The Matter thread knows the current state: `last_sent` is it, or the callback in progress
carries it. -/
def UpToDate (matter : MatterPc) (lastSent : AcState) (store : AttributeStore) : Prop :=
  match matter with
  | .idle => lastSent = derive store
  | .written path => ¬ path.Watched → lastSent = derive store
  | .derived state => state = derive store
  | .sending state => state = derive store
  | .sent state => state = derive store

/-- A callback went past the gate, or none needed to: nothing was written before it opened. -/
def Current (s : Threads) : Prop := 0 < s.passed ∨ (s.early = false ∧ s.irReady = true)

/-- As long as nothing is written before the gate opens, the snapshot is going to be, and
then is, the state at the start. -/
def EarlyOk (store₀ : AttributeStore) (s : Threads) : Prop :=
  s.early = false →
    (s.irReady = false → s.store = store₀ ∧ s.matter = .idle ∧
      (execAll store₀ s.frame s.todo).statics.lastSent = derive store₀) ∧
    (s.irReady = true → s.snapshot = derive store₀)

structure Window (store₀ : AttributeStore) (s : Threads) : Prop where
  gate : GateOk s.todo s.frame.statics
  closed : s.irReady = false → s.passed = 0
  quiet : s.passed = 0 → s.frames = [] ∧ MatterPc.Waiting s.matter
  ordered : OrderedOk s.matter s.frames s.lastSent s.snapshot
  cache : Current s → UpToDate s.matter s.lastSent s.store
  early : EarlyOk store₀ s

theorem window_booting (store : AttributeStore) : Window store (booting store) where
  gate := ⟨List.suffix_rfl, by simp [booting, zeroStatics, readyBody],
    Or.inr (by simp [booting, readyBody])⟩
  closed := fun _ => rfl
  quiet := fun _ => ⟨rfl, trivial⟩
  ordered := Or.inl ⟨rfl, rfl⟩
  cache := by
    rintro (hpos | ⟨-, hready⟩)
    · exact absurd hpos (Nat.lt_irrefl 0)
    · exact absurd hready (by simp [irReady, booting, zeroStatics])
  early := fun _ => ⟨fun _ => ⟨rfl, rfl, rfl⟩,
    fun hready => absurd hready (by simp [irReady, booting, zeroStatics])⟩

section Window

variable {store₀ : AttributeStore} {s : Threads}

/-- A callback past the gate finds it open, `last_sent` valid and nothing left to execute. -/
theorem Window.open_of_past (h : Window store₀ s) (hpast : ¬ MatterPc.Waiting s.matter) :
    0 < s.passed ∧ s.irReady = true ∧ s.todo = [] ∧ s.frame.statics.lastSentValid = true := by
  have hpos : 0 < s.passed := by
    refine Nat.pos_of_ne_zero fun hzero => ?_
    exact hpast (h.quiet hzero).2
  have hready : s.irReady = true := by
    by_contra hr
    have hzero := h.closed (Bool.eq_false_iff.mpr hr)
    omega
  have htodo : s.todo = [] := h.gate.gate.mp hready
  refine ⟨hpos, hready, htodo, ?_⟩
  rcases h.gate.valid with hvalid | hmem
  · exact hvalid
  · rw [htodo] at hmem
    exact absurd hmem (by simp)

/-- While `zcl_callbacks_ready` has a statement left, the gate is closed. -/
theorem Window.closed_of_todo (h : Window store₀ s) {stmt : ReadyStmt} {rest : List ReadyStmt}
    (htodo : s.todo = stmt :: rest) : s.irReady = false := by
  refine Bool.eq_false_iff.mpr fun hready => ?_
  rw [h.gate.gate.mp hready] at htodo
  cases htodo

/-- Past the gate only the snapshot counts. -/
theorem EarlyOk.of_open (hready : s.irReady = true)
    (hsnap : s.early = false → s.snapshot = derive store₀) : EarlyOk store₀ s := by
  refine fun hearly => ⟨fun hclosed => ?_, fun _ => hsnap hearly⟩
  rw [hready] at hclosed
  cases hclosed

/-- A step of a callback past the gate, which changes neither the gate nor the snapshot. -/
theorem EarlyOk.of_past {s' : Threads} (h : Window store₀ s) (hpast : ¬ MatterPc.Waiting s.matter)
    (hready : s'.irReady = s.irReady) (hearly : s'.early = s.early)
    (hsnap : s'.snapshot = s.snapshot) : EarlyOk store₀ s' := by
  have hopen := (h.open_of_past hpast).2.1
  apply EarlyOk.of_open (hready.trans hopen)
  intro he
  rw [hsnap]
  exact (h.early (hearly.symm.trans he)).2 hopen

/-- While the gate is closed and nothing was written, no callback is in progress. -/
theorem Window.not_early (h : Window store₀ s) {path : AttributePath}
    (hm : s.matter = .written path) (hclosed : s.irReady = false) : s.early = true := by
  by_contra he
  have hidle := ((h.early (Bool.eq_false_iff.mpr he)).1 hclosed).2.1
  rw [hm] at hidle
  cases hidle

end Window

/-- No `ac off` is issued. -/
def NoOff (_ : Threads) (a : ThreadAct) : Prop := a ≠ .acOff

theorem gateOk_step {s s' : Threads} {a : ThreadAct} (h : GateOk s.todo s.frame.statics)
    (hs : Step s a s') : GateOk s'.todo s'.frame.statics := by
  cases hs with
  | remember _ => exact ⟨h.rest, h.gate, Or.inl rfl⟩
  | ready htodo =>
      rw [htodo] at h
      exact h.exec
  | _ => exact h

theorem orderedOk_step {store₀ : AttributeStore} {s s' : Threads} {a : ThreadAct}
    (h : Window store₀ s) (hoff : NoOff s a) (hs : Step s a s') :
    OrderedOk s'.matter s'.frames s'.lastSent s'.snapshot := by
  have hord := h.ordered
  unfold OrderedOk at hord
  cases hs with
  | write hm => rw [hm] at hord; exact hord
  | enter hm _ _ => rw [hm] at hord; exact hord
  | drop hm _ => rw [hm] at hord; exact hord
  | skip hm _ => rw [hm] at hord; exact hord
  | differ hm _ => rw [hm] at hord; exact hord
  | @dispatch state hm =>
      show (s.frames ++ [IrFrame.ofState state]).getLast? = some (.ofState state)
      simp
  | remember hm => rw [hm] at hord; exact Or.inr hord
  | acOff => exact absurd rfl hoff
  | ready htodo =>
      -- The gate is closed, so nothing was dispatched, and the snapshot follows `last_sent`.
      have hclosed := h.closed_of_todo htodo
      obtain ⟨hframes, hwaiting⟩ := h.quiet (h.closed hclosed)
      cases hm : s.matter with
      | idle => exact Or.inl ⟨hframes, rfl⟩
      | written path => exact Or.inl ⟨hframes, rfl⟩
      | _ => rw [hm] at hwaiting; exact absurd hwaiting id

theorem closed_step {store₀ : AttributeStore} {s s' : Threads} {a : ThreadAct}
    (h : Window store₀ s) (hs : Step s a s') : s'.irReady = false → s'.passed = 0 := by
  cases hs with
  | enter _ _ hready =>
      intro hclosed
      rw [show s.irReady = false from hclosed] at hready
      cases hready
  | ready htodo =>
      intro _
      exact h.closed (h.closed_of_todo htodo)
  | _ => exact h.closed

theorem quiet_step {store₀ : AttributeStore} {s s' : Threads} {a : ThreadAct}
    (h : Window store₀ s) (hoff : NoOff s a) (hs : Step s a s') :
    s'.passed = 0 → s'.frames = [] ∧ MatterPc.Waiting s'.matter := by
  intro hzero
  cases hs with
  | write _ => exact ⟨(h.quiet hzero).1, trivial⟩
  | enter _ _ _ => cases hzero
  | drop _ _ => exact ⟨(h.quiet hzero).1, trivial⟩
  | skip _ _ => exact ⟨(h.quiet hzero).1, trivial⟩
  | differ hm _ =>
      have hwaiting := (h.quiet hzero).2
      rw [hm] at hwaiting
      exact absurd hwaiting id
  | dispatch hm =>
      have hwaiting := (h.quiet hzero).2
      rw [hm] at hwaiting
      exact absurd hwaiting id
  | remember _ => exact ⟨(h.quiet hzero).1, trivial⟩
  | acOff => exact absurd rfl hoff
  | ready _ => exact h.quiet hzero

theorem upToDate_step {store₀ : AttributeStore} {s s' : Threads} {a : ThreadAct}
    (h : Window store₀ s) (hs : Step s a s') :
    Current s' → UpToDate s'.matter s'.lastSent s'.store := by
  intro hcur
  cases hs with
  | @write w hm =>
      have hcur' : Current s := by
        rcases hcur with hpos | ⟨hearly, hready⟩
        · exact Or.inl hpos
        · exact Or.inr ⟨(Bool.or_eq_false_iff.mp hearly).1, hready⟩
      have hlast := h.cache hcur'
      rw [hm] at hlast
      intro hunwatched
      show s.lastSent = derive (s.store.after w)
      rw [derive_after_of_not_watched s.store hunwatched]
      exact hlast
  | enter _ _ _ => rfl
  | @drop path hm hdrop =>
      have hlast := h.cache hcur
      rw [hm] at hlast
      refine hlast fun hwatched => ?_
      -- A watched path is dropped only at a closed gate, and then something was written early.
      have hclosed := hdrop hwatched
      rcases hcur with hpos | ⟨-, hready⟩
      · exact absurd (h.closed hclosed) (Nat.ne_of_gt hpos)
      · have hopen : s.irReady = true := hready
        rw [hclosed] at hopen
        cases hopen
  | @skip state hm hsame =>
      obtain ⟨-, -, -, hvalid⟩ := h.open_of_past (by rw [hm]; exact id)
      have hlast := h.cache hcur
      rw [hm] at hlast
      exact ((unchanged_iff hvalid state).mp hsame).symm.trans hlast
  | differ hm _ =>
      have hlast := h.cache hcur
      rw [hm] at hlast
      exact hlast
  | dispatch hm =>
      have hlast := h.cache hcur
      rw [hm] at hlast
      exact hlast
  | remember hm =>
      have hlast := h.cache hcur
      rw [hm] at hlast
      exact hlast
  | acOff => exact h.cache hcur
  | @ready stmt rest htodo =>
      have hclosed := h.closed_of_todo htodo
      rcases hcur with hpos | ⟨hearly, hready⟩
      · exact absurd (h.closed hclosed) (Nat.ne_of_gt hpos)
      · -- The last statement: what is now in `last_sent` is the whole snapshot.
        obtain ⟨hstore, hidle, hlast⟩ := (h.early hearly).1 hclosed
        have hrest : rest = [] :=
          (gateOk_step h.gate (.ready htodo)).gate.mp hready
        rw [htodo, hrest, ← hstore] at hlast
        show UpToDate s.matter (stmt.exec s.store s.frame).statics.lastSent s.store
        rw [hidle]
        exact hlast

theorem earlyOk_step {store₀ : AttributeStore} {s s' : Threads} {a : ThreadAct}
    (h : Window store₀ s) (hs : Step s a s') : EarlyOk store₀ s' := by
  cases hs with
  | write hm =>
      intro hearly
      obtain ⟨hearly', hready⟩ := Bool.or_eq_false_iff.mp hearly
      have hopen : s.irReady = true := by simpa using hready
      refine ⟨?_, (h.early hearly').2⟩
      intro hclosed
      rw [show s.irReady = false from hclosed] at hopen
      cases hopen
  | enter _ _ hready => exact EarlyOk.of_open hready fun hearly => (h.early hearly).2 hready
  | drop hm _ =>
      intro hearly
      refine ⟨?_, (h.early hearly).2⟩
      intro hclosed
      have hyes := h.not_early hm hclosed
      rw [show s.early = false from hearly] at hyes
      cases hyes
  | skip hm _ => exact EarlyOk.of_past h (by rw [hm]; exact id) rfl rfl rfl
  | differ hm _ => exact EarlyOk.of_past h (by rw [hm]; exact id) rfl rfl rfl
  | dispatch hm => exact EarlyOk.of_past h (by rw [hm]; exact id) rfl rfl rfl
  | remember hm => exact EarlyOk.of_past h (by rw [hm]; exact id) rfl rfl rfl
  | acOff => exact h.early
  | @ready stmt rest htodo =>
      intro hearly
      obtain ⟨hstore, hidle, hlast⟩ := (h.early hearly).1 (h.closed_of_todo htodo)
      rw [htodo] at hlast
      refine ⟨fun _ => ⟨hstore, hidle, hstore ▸ hlast⟩, fun hready => ?_⟩
      have hrest : rest = [] := (gateOk_step h.gate (.ready htodo)).gate.mp hready
      rw [hrest] at hlast
      show (stmt.exec s.store s.frame).statics.lastSent = derive store₀
      rw [hstore]
      exact hlast

theorem window_step {store₀ : AttributeStore} {s s' : Threads} {a : ThreadAct}
    (h : Window store₀ s) (hoff : NoOff s a) (hs : Step s a s') : Window store₀ s' where
  gate := gateOk_step h.gate hs
  closed := closed_step h hs
  quiet := quiet_step h hoff hs
  ordered := orderedOk_step h hoff hs
  cache := upToDate_step h hs
  early := earlyOk_step h hs

theorem window_of_reach {store : AttributeStore} {s : Threads}
    (h : (machine (booting store)).Reach NoOff s) : Window store s :=
  h.invariant (window_booting store) fun t a _ hI hC hs =>
    window_step (s := t) (a := a) hI hC (step_cases hs)

/-! ### Which changes reach the unit -/

/-- Between callbacks, either nothing was dispatched and the snapshot still stands, or the
last frame encodes the current state. -/
theorem told_of_current {store : AttributeStore} {s : Threads} (h : Window store s)
    (hidle : s.matter = .idle) (hcur : Current s) :
    (s.frames = [] ∧ derive s.store = s.snapshot) ∨
      s.frames.getLast? = some (.ofState (derive s.store)) := by
  have hlast := h.cache hcur
  have hord := h.ordered
  rw [hidle] at hlast hord
  rw [← show s.lastSent = derive s.store from hlast]
  exact hord

/-- **No change is lost once the gate is open.**  With `ir_ready` set, no callback in progress
and no `ac off` issued: after a callback has gone past the gate, the last frame encodes the
current state, unless that is still the one recorded by the snapshot and nothing was
dispatched; before that, nothing is dispatched; and if nothing was written before the gate
opened, the last frame encodes the current state whenever that differs from the one at the
return of `StartServer()`. -/
theorem boot_window {store : AttributeStore} {s : Threads}
    (h : (machine (booting store)).Reach NoOff s) (hready : s.irReady = true)
    (hidle : s.matter = .idle) :
    (0 < s.passed → (s.frames = [] ∧ derive s.store = s.snapshot) ∨
      s.frames.getLast? = some (.ofState (derive s.store))) ∧
    (s.passed = 0 → s.frames = []) ∧
    (s.early = false → derive s.store ≠ derive store →
      s.frames.getLast? = some (.ofState (derive s.store))) := by
  have hwin := window_of_reach h
  refine ⟨?_, fun hzero => (hwin.quiet hzero).1, ?_⟩
  · intro hpos
    exact told_of_current hwin hidle (Or.inl hpos)
  · intro hearly hne
    rcases told_of_current hwin hidle (Or.inr ⟨hearly, hready⟩) with ⟨-, hsnap⟩ | hframes
    · exact absurd (hsnap.trans ((hwin.early hearly).2 hready)) hne
    · exact hframes

/-- After an undisturbed boot the client switches a running unit off, and the unit is told. -/
theorem boot_window_off : ∃ s : Threads, s.irReady = true ∧
    s.frames.getLast? = some (.ofState ⟨false, acModeCooling, 24, fanSpeedAuto⟩) := by
  obtain ⟨s, hrun, hready, hidle, hpos, hoff, hne⟩ :
      ∃ s, (machine (booting coolingStore)).run (booting coolingStore)
        (List.replicate 12 .ready ++
          [.write ⟨onOffAttr, .boolean false⟩, .callback, .compare, .dispatch, .remember]) =
            some s ∧
        s.irReady = true ∧ s.matter = .idle ∧ 0 < s.passed ∧
        derive s.store = ⟨false, acModeCooling, 24, fanSpeedAuto⟩ ∧ derive s.store ≠ s.snapshot :=
    ⟨_, rfl, rfl, rfl, by decide, rfl, by decide⟩
  have hreach : (machine (booting coolingStore)).Reach NoOff s := by
    refine Machine.Reach.init.run (fun a ha t => ?_) hrun
    rintro rfl
    simp at ha
  rcases (boot_window hreach hready hidle).1 hpos with ⟨-, hsnap⟩ | hframes
  · exact absurd hsnap hne
  · exact ⟨s, hready, hoff ▸ hframes⟩

/-- A client switches the unit off before the gate opens; nothing is ever transmitted. -/
theorem swallowed_at_boot : ∃ s : Threads,
    (machine (booting coolingStore)).run (booting coolingStore)
      ([.write ⟨onOffAttr, .boolean false⟩, .callback] ++ List.replicate 12 .ready) = some s ∧
    s.irReady = true ∧ s.matter = .idle ∧ derive s.store ≠ derive coolingStore ∧
    s.frames = [] :=
  ⟨_, rfl, rfl, rfl, by decide, rfl⟩

end Threads

end Shirokumakun
