/-
What holds in every state of the IR mailbox.

The invariant comes in five parts, each a predicate on the components it is about, so
that a step that touches none of them keeps it by definition.

  * `LockOk`: the mutex is held by exactly the thread that is between its lock and its
    unlock.
  * `PendingOk`: whenever no caller is inside the mutex, the pending buffer shows the
    last command enqueued.
  * `ActiveOk`: once the dispatch thread has unlocked, the active buffer shows the
    command whose number it recorded.
  * `SentOk`: what was sent is what was enqueued under that number.
  * `WakeOk`: a command not yet copied has a wake-up on its way, in the semaphore, owed
    by a caller, or already taken by the dispatch thread.

The last is the reason that the newest command is never lost.
-/
import Shirokumakun.Mailbox.Model

namespace Shirokumakun

/-- The caller holds the mutex at this point. -/
def CallerPc.Holding : CallerPc → Prop
  | .locked _ => True
  | .copying _ _ => True
  | _ => False

/-- The caller's command is enqueued, and its `k_sem_give` is still to come. -/
def CallerPc.Owing : CallerPc → Prop
  | .locked _ => True
  | .copying _ _ => True
  | .unlocked => True
  | _ => False

def DispatchPc.Holding : DispatchPc → Prop
  | .locked => True
  | .copying _ => True
  | _ => False

/-- A wake-up was taken, and the copy it is for has not begun. -/
def DispatchPc.Woken : DispatchPc → Prop
  | .taken => True
  | .locked => True
  | _ => False

namespace Mailbox

variable {ι : Type}

/-! ### Who holds the mutex -/

structure LockOk (mutex : Option (Holder ι)) (caller : ι → CallerPc) (dispatch : DispatchPc) :
    Prop where
  callers : ∀ t, (caller t).Holding ↔ mutex = some (.caller t)
  dispatcher : dispatch.Holding ↔ mutex = some .dispatch

section LockOk

variable {mutex : Option (Holder ι)} {caller : ι → CallerPc} {dispatch : DispatchPc}

theorem LockOk.no_caller (h : LockOk mutex caller dispatch)
    (hm : ∀ t, mutex ≠ some (.caller t)) (t : ι) : ¬ (caller t).Holding :=
  fun hc => hm t ((h.callers t).mp hc)

theorem LockOk.only_caller (h : LockOk mutex caller dispatch) {t u : ι}
    (ht : (caller t).Holding) (hu : (caller u).Holding) : u = t := by
  have hmt := (h.callers t).mp ht
  rw [(h.callers u).mp hu] at hmt
  simpa using hmt

theorem LockOk.not_dispatch (h : LockOk mutex caller dispatch) {t : ι}
    (ht : (caller t).Holding) : ¬ dispatch.Holding := by
  intro hd
  have hmt := (h.callers t).mp ht
  rw [h.dispatcher.mp hd] at hmt
  simp at hmt

/-- While a caller holds the mutex, the dispatch thread is not in its copy. -/
theorem LockOk.not_copying (h : LockOk mutex caller dispatch) {t : ι}
    (ht : (caller t).Holding) (i : Nat) : dispatch ≠ .copying i := by
  intro hd
  apply h.not_dispatch ht
  rw [hd]
  trivial

/-- A dispatch thread that moves without taking or dropping the mutex. -/
theorem LockOk.moveDispatch (h : LockOk mutex caller dispatch) {pc : DispatchPc}
    (hpc : pc.Holding ↔ dispatch.Holding) : LockOk mutex caller pc :=
  ⟨h.callers, hpc.trans h.dispatcher⟩

end LockOk

/-- The first `count` entries of `buf` are the command `f`, and `count` is its length. -/
structure Shows (count : Nat) (buf : Nat → IrPulse) (f : IrFrame) : Prop where
  length : count = f.pulses.length
  pulses : ∀ j, j < count → f.pulses[j]? = some (buf j)

theorem Shows.map_range {count : Nat} {buf : Nat → IrPulse} {f : IrFrame}
    (h : Shows count buf f) : (List.range count).map buf = f.pulses := by
  refine List.ext_getElem? fun j => ?_
  by_cases hj : j < count
  · rw [h.pulses j hj, List.getElem?_map, List.getElem?_range hj]
    rfl
  · rw [List.getElem?_eq_none (by simpa using hj), List.getElem?_eq_none (by
      have := h.length; omega)]

structure PendingOk (mutex : Option (Holder ι)) (caller : ι → CallerPc)
    (enqueued : List IrFrame) (count : Nat) (buf : Nat → IrPulse) : Prop where
  /-- The copies stay inside the two buffers. -/
  room : count ≤ irMaxPulses
  locked : ∀ t f, caller t = .locked f → enqueued.getLast? = some f
  copying : ∀ t f i, caller t = .copying f i → enqueued.getLast? = some f ∧
    count = f.pulses.length ∧ ∀ j, j < i → f.pulses[j]? = some (buf j)
  settled : (∀ t, mutex ≠ some (.caller t)) →
    ∀ f, enqueued.getLast? = some f → Shows count buf f

/-- `ps` are the pulses of the command with number `no`. -/
def Carries (enqueued : List IrFrame) (no : Nat) (ps : List IrPulse) : Prop :=
  0 < no ∧ ∃ f, enqueued[no - 1]? = some f ∧ ps = f.pulses

theorem Carries.append {enqueued : List IrFrame} {no : Nat} {ps : List IrPulse}
    (h : Carries enqueued no ps) (f : IrFrame) : Carries (enqueued ++ [f]) no ps := by
  obtain ⟨hpos, g, hget, hps⟩ := h
  refine ⟨hpos, g, ?_, hps⟩
  rw [List.getElem?_append_left (List.getElem?_eq_some_iff.mp hget).1]
  exact hget

structure ActiveOk (dispatch : DispatchPc) (enqueued : List IrFrame) (pendingCount : Nat)
    (pendingBuf : Nat → IrPulse) (activeCount : Nat) (activeBuf : Nat → IrPulse)
    (activeNo : Nat) : Prop where
  no_le : activeNo ≤ enqueued.length
  copying : ∀ i, dispatch = .copying i → activeNo = enqueued.length ∧
    activeCount = pendingCount ∧ ∀ j, j < i → activeBuf j = pendingBuf j
  unlocked : dispatch = .unlocked →
    Carries enqueued activeNo ((List.range activeCount).map activeBuf)

def SentOk (enqueued : List IrFrame) (sent : List (Nat × List IrPulse)) : Prop :=
  ∀ e ∈ sent, Carries enqueued e.1 e.2

structure WakeOk (sem : Nat) (caller : ι → CallerPc) (dispatch : DispatchPc)
    (enqueued : List IrFrame) (activeNo : Nat) : Prop where
  /-- No wake-up without a command. -/
  semaphore : 0 < sem → enqueued ≠ []
  callers : ∀ t, (caller t).Owing → enqueued ≠ []
  dispatcher : dispatch ≠ .waiting → enqueued ≠ []
  /-- No command waiting to be copied without a wake-up. -/
  fresh : activeNo < enqueued.length → 0 < sem ∨ dispatch.Woken ∨ ∃ t, (caller t).Owing

/-- The dispatch thread moving on after its copy began. -/
theorem WakeOk.moveDispatch {sem : Nat} {caller : ι → CallerPc} {dispatch pc : DispatchPc}
    {enqueued : List IrFrame} {activeNo : Nat}
    (h : WakeOk sem caller dispatch enqueued activeNo) (hwas : dispatch ≠ .waiting)
    (hnot : ¬ dispatch.Woken) : WakeOk sem caller pc enqueued activeNo := by
  refine ⟨h.semaphore, h.callers, fun _ => h.dispatcher hwas, ?_⟩
  intro hlt
  rcases h.fresh hlt with hsem | hwoken | howing
  · exact Or.inl hsem
  · exact absurd hwoken hnot
  · exact Or.inr (Or.inr howing)

structure Inv (m : Mailbox ι) : Prop where
  lock : LockOk m.mutex m.caller m.dispatch
  pending : PendingOk m.mutex m.caller m.enqueued m.pendingCount m.pendingBuf
  active : ActiveOk m.dispatch m.enqueued m.pendingCount m.pendingBuf m.activeCount m.activeBuf
    m.activeNo
  sent : SentOk m.enqueued m.sent
  wake : WakeOk m.sem m.caller m.dispatch m.enqueued m.activeNo

theorem inv_start : Inv (start : Mailbox ι) where
  lock := ⟨fun t => by simp [start, CallerPc.Holding], by simp [start, DispatchPc.Holding]⟩
  pending := ⟨Nat.zero_le _, fun t f h => by simp [start] at h, fun t f i h => by simp [start] at h,
    fun _ f h => by simp [start] at h⟩
  active := ⟨Nat.le_refl _, fun i h => by simp [start] at h, fun h => by simp [start] at h⟩
  sent := fun e he => by simp [start] at he
  wake := ⟨fun h => by simp [start] at h, fun t h => by simp [start, CallerPc.Owing] at h,
    fun h => by simp [start] at h, fun h => by simp [start] at h⟩

variable [DecidableEq ι]

/-- A caller that moves without taking or dropping the mutex. -/
theorem LockOk.moveCaller {m : Mailbox ι} (h : LockOk m.mutex m.caller m.dispatch) {t : ι}
    {pc : CallerPc} (hpc : pc.Holding ↔ (m.caller t).Holding) :
    LockOk m.mutex (m.moved t pc) m.dispatch := by
  refine ⟨?_, h.dispatcher⟩
  intro u
  by_cases hu : u = t
  · subst hu
    rw [moved_self, hpc]
    exact h.callers u
  · rw [moved_of_ne m pc hu]
    exact h.callers u

theorem lockOk_step {m m' : Mailbox ι} {a : MailAct ι}
    (h : LockOk m.mutex m.caller m.dispatch) (hs : Step m a m') :
    LockOk m'.mutex m'.caller m'.dispatch := by
  cases hs with
  | call hpc => exact h.moveCaller (by rw [hpc]; rfl)
  | @lock t f hpc hfree =>
      have hnone : ∀ u, ¬ (m.caller u).Holding := h.no_caller (by simp [hfree])
      refine ⟨?_, ?_⟩
      · intro u
        show (m.moved t (.locked f) u).Holding ↔ some (Holder.caller t) = some (.caller u)
        by_cases hu : u = t
        · subst hu
          simp [CallerPc.Holding]
        · rw [moved_of_ne m _ hu]
          simp [hnone u, Ne.symm hu]
      · show m.dispatch.Holding ↔ some (Holder.caller t) = some .dispatch
        rw [h.dispatcher, hfree]
        simp
  | writeCount hpc => exact h.moveCaller (by rw [hpc]; rfl)
  | writePulse hpc _ => exact h.moveCaller (by rw [hpc]; rfl)
  | @unlock t f hpc =>
      have hmine : (m.caller t).Holding := by rw [hpc]; trivial
      refine ⟨?_, ?_⟩
      · intro u
        show (m.moved t .unlocked u).Holding ↔ none = some (Holder.caller u)
        by_cases hu : u = t
        · subst hu
          simp [CallerPc.Holding]
        · rw [moved_of_ne m _ hu]
          simpa using fun hc => hu (h.only_caller hmine hc)
      · show m.dispatch.Holding ↔ none = some (Holder.dispatch (ι := ι))
        simpa using h.not_dispatch hmine
  | give hpc => exact h.moveCaller (by rw [hpc]; rfl)
  | take hpc _ => exact h.moveDispatch (by rw [hpc]; rfl)
  | dispatchLock hpc hfree =>
      refine ⟨?_, by simp [DispatchPc.Holding]⟩
      intro u
      rw [h.callers u, hfree]
      simp
  | readCount hpc => exact h.moveDispatch (by rw [hpc]; rfl)
  | readPulse hpc _ => exact h.moveDispatch (by rw [hpc]; rfl)
  | dispatchUnlock hpc =>
      have hmine : m.mutex = some .dispatch := h.dispatcher.mp (by rw [hpc]; trivial)
      refine ⟨?_, by simp [DispatchPc.Holding]⟩
      intro u
      rw [h.callers u, hmine]
      simp
  | send hpc => exact h.moveDispatch (by rw [hpc]; rfl)
  | sendDone hpc => exact h.moveDispatch (by rw [hpc]; rfl)

/-! ### The pending buffer -/

/-- A caller that moves to a point where it does not hold the mutex. -/
theorem PendingOk.moveOut {m : Mailbox ι}
    (h : PendingOk m.mutex m.caller m.enqueued m.pendingCount m.pendingBuf) {t : ι}
    {pc : CallerPc} (hpc : ¬ pc.Holding) :
    PendingOk m.mutex (m.moved t pc) m.enqueued m.pendingCount m.pendingBuf := by
  refine ⟨h.room, ?_, ?_, h.settled⟩
  · intro u f hu
    rcases moved_eq hu with ⟨-, rfl⟩ | ⟨-, hold⟩
    · exact absurd trivial hpc
    · exact h.locked u f hold
  · intro u f i hu
    rcases moved_eq hu with ⟨-, rfl⟩ | ⟨-, hold⟩
    · exact absurd trivial hpc
    · exact h.copying u f i hold

/-- The caller that holds the mutex writes to the buffer and stays inside; nobody else is. -/
theorem PendingOk.moveInside {m : Mailbox ι} (hlock : LockOk m.mutex m.caller m.dispatch) {t : ι}
    (hmine : (m.caller t).Holding) {f : IrFrame} {i count : Nat} {buf : Nat → IrPulse}
    (hroom : count ≤ irMaxPulses) (hlast : m.enqueued.getLast? = some f)
    (hcount : count = f.pulses.length) (hdone : ∀ j, j < i → f.pulses[j]? = some (buf j)) :
    PendingOk m.mutex (m.moved t (.copying f i)) m.enqueued count buf := by
  have hothers : ∀ u, u ≠ t → ¬ (m.caller u).Holding := by
    intro u hut hheld
    exact hut (hlock.only_caller hmine hheld)
  refine ⟨hroom, ?_, ?_, ?_⟩
  · intro u g hu
    rcases moved_eq hu with ⟨-, heq⟩ | ⟨hut, hold⟩
    · cases heq
    · exact absurd (by rw [hold]; trivial) (hothers u hut)
  · intro u g k hu
    rcases moved_eq hu with ⟨-, heq⟩ | ⟨hut, hold⟩
    · cases heq
      exact ⟨hlast, hcount, hdone⟩
    · exact absurd (by rw [hold]; trivial) (hothers u hut)
  · intro hm
    exact absurd ((hlock.callers t).mp hmine) (hm t)

theorem pendingOk_step {m m' : Mailbox ι} {a : MailAct ι}
    (hlock : LockOk m.mutex m.caller m.dispatch)
    (h : PendingOk m.mutex m.caller m.enqueued m.pendingCount m.pendingBuf)
    (hs : Step m a m') :
    PendingOk m'.mutex m'.caller m'.enqueued m'.pendingCount m'.pendingBuf := by
  cases hs with
  | call _ => exact h.moveOut (by simp [CallerPc.Holding])
  | @lock t f hpc hfree =>
      have hnone : ∀ u, ¬ (m.caller u).Holding := hlock.no_caller (by simp [hfree])
      refine ⟨h.room, ?_, ?_, fun hm => absurd rfl (hm t)⟩
      · intro u g hu
        rcases moved_eq hu with ⟨-, heq⟩ | ⟨-, hold⟩
        · cases heq
          simp
        · exact absurd (by rw [hold]; trivial) (hnone u)
      · intro u g i hu
        rcases moved_eq hu with ⟨-, heq⟩ | ⟨-, hold⟩
        · cases heq
        · exact absurd (by rw [hold]; trivial) (hnone u)
  | @writeCount t f hpc =>
      have hmine : (m.caller t).Holding := by rw [hpc]; trivial
      refine PendingOk.moveInside hlock hmine f.fits (h.locked t f hpc) rfl ?_
      intro j hj
      exact absurd hj (Nat.not_lt_zero j)
  | @writePulse t f i p hpc hp =>
      have hmine : (m.caller t).Holding := by rw [hpc]; trivial
      obtain ⟨hlast, hcount, hdone⟩ := h.copying t f i hpc
      refine PendingOk.moveInside hlock hmine h.room hlast hcount ?_
      intro j hj
      show f.pulses[j]? = some (Function.update m.pendingBuf i p j)
      by_cases hji : j = i
      · subst hji
        rw [Function.update_self, hp]
      · rw [Function.update_of_ne hji]
        exact hdone j (by omega)
  | @unlock t f hpc =>
      have hout : PendingOk m.mutex (m.moved t .unlocked) m.enqueued m.pendingCount
          m.pendingBuf := h.moveOut (by simp [CallerPc.Holding])
      obtain ⟨hlast, hcount, hdone⟩ := h.copying t f _ hpc
      refine ⟨h.room, hout.locked, hout.copying, ?_⟩
      intro _ g hg
      obtain rfl : f = g := Option.some.inj (hlast.symm.trans hg)
      exact ⟨hcount, fun j hj => hdone j (hcount ▸ hj)⟩
  | give _ => exact h.moveOut (by simp [CallerPc.Holding])
  | take _ _ => exact h
  | dispatchLock _ hfree =>
      exact ⟨h.room, h.locked, h.copying, fun _ => h.settled (by simp [hfree])⟩
  | readCount _ => exact h
  | readPulse _ _ => exact h
  | dispatchUnlock hpc =>
      have hmine : m.mutex = some .dispatch := hlock.dispatcher.mp (by rw [hpc]; trivial)
      exact ⟨h.room, h.locked, h.copying, fun _ => h.settled (by simp [hmine])⟩
  | send _ => exact h
  | sendDone _ => exact h

/-! ### The active buffer and what was sent -/

theorem activeOk_step {m m' : Mailbox ι} {a : MailAct ι}
    (hlock : LockOk m.mutex m.caller m.dispatch)
    (hpending : PendingOk m.mutex m.caller m.enqueued m.pendingCount m.pendingBuf)
    (hwake : WakeOk m.sem m.caller m.dispatch m.enqueued m.activeNo)
    (h : ActiveOk m.dispatch m.enqueued m.pendingCount m.pendingBuf m.activeCount m.activeBuf
      m.activeNo) (hs : Step m a m') :
    ActiveOk m'.dispatch m'.enqueued m'.pendingCount m'.pendingBuf m'.activeCount m'.activeBuf
      m'.activeNo := by
  cases hs with
  | call _ => exact h
  | @lock t f hpc hfree =>
      -- The dispatch thread is not copying: the mutex is free.
      refine ⟨?_, ?_, fun hd => (h.unlocked hd).append f⟩
      · rw [List.length_append]
        exact Nat.le_add_right_of_le h.no_le
      · intro i hi
        have hheld := hlock.dispatcher.mp (by rw [show m.dispatch = .copying i from hi]; trivial)
        rw [hfree] at hheld
        cases hheld
  | @writeCount t f hpc =>
      have hmine : (m.caller t).Holding := by rw [hpc]; trivial
      exact ⟨h.no_le, fun i hi => absurd hi (hlock.not_copying hmine i), h.unlocked⟩
  | @writePulse t f i p hpc hp =>
      have hmine : (m.caller t).Holding := by rw [hpc]; trivial
      exact ⟨h.no_le, fun j hj => absurd hj (hlock.not_copying hmine j), h.unlocked⟩
  | unlock _ => exact h
  | give _ => exact h
  | take _ _ => exact ⟨h.no_le, fun i hi => by simp at hi, fun hd => by simp at hd⟩
  | dispatchLock _ _ => exact ⟨h.no_le, fun i hi => by simp at hi, fun hd => by simp at hd⟩
  | readCount _ =>
      refine ⟨Nat.le_refl _, ?_, fun hd => by simp at hd⟩
      intro i hi
      obtain rfl : 0 = i := by simpa using hi
      exact ⟨rfl, rfl, fun j hj => absurd hj (Nat.not_lt_zero j)⟩
  | @readPulse i hpc hlt =>
      obtain ⟨hno, hcount, hdone⟩ := h.copying i hpc
      refine ⟨h.no_le, ?_, fun hd => by simp at hd⟩
      intro k hk
      obtain rfl : i + 1 = k := by simpa using hk
      refine ⟨hno, hcount, ?_⟩
      intro j hj
      show Function.update m.activeBuf i (m.pendingBuf i) j = m.pendingBuf j
      by_cases hji : j = i
      · subst hji
        rw [Function.update_self]
      · rw [Function.update_of_ne hji]
        exact hdone j (by omega)
  | dispatchUnlock hpc =>
      -- The copy is complete, and the dispatch thread still holds the mutex.
      refine ⟨h.no_le, fun i hi => by simp at hi, ?_⟩
      intro _
      obtain ⟨hno, hcount, hdone⟩ := h.copying _ hpc
      have hheld : m.mutex = some .dispatch := hlock.dispatcher.mp (by rw [hpc]; trivial)
      have hne : m.enqueued ≠ [] := hwake.dispatcher (by rw [hpc]; simp)
      have hpos : 0 < m.enqueued.length := List.length_pos_of_ne_nil hne
      obtain ⟨f, hf⟩ : ∃ f, m.enqueued.getLast? = some f :=
        ⟨_, List.getLast?_eq_some_getLast hne⟩
      have hshows := hpending.settled (by simp [hheld]) f hf
      refine ⟨hno ▸ hpos, f, ?_, ?_⟩
      · rw [hno, ← List.getLast?_eq_getElem?, hf]
      · rw [← hshows.map_range, hcount]
        exact List.map_congr_left fun j hj => hdone j (List.mem_range.mp hj)
  | send _ => exact ⟨h.no_le, fun i hi => by simp at hi, fun hd => by simp at hd⟩
  | sendDone _ => exact ⟨h.no_le, fun i hi => by simp at hi, fun hd => by simp at hd⟩

theorem sentOk_step {m m' : Mailbox ι} {a : MailAct ι}
    (hactive : ActiveOk m.dispatch m.enqueued m.pendingCount m.pendingBuf m.activeCount
      m.activeBuf m.activeNo)
    (h : SentOk m.enqueued m.sent) (hs : Step m a m') : SentOk m'.enqueued m'.sent := by
  cases hs with
  | @lock t f hpc hfree => exact fun e he => (h e he).append f
  | send hpc =>
      intro e he
      rcases List.mem_append.mp he with hold | hnew
      · exact h e hold
      · obtain rfl := List.mem_singleton.mp hnew
        exact hactive.unlocked hpc
  | _ => exact h

/-! ### Wake-ups -/

theorem owing_of_moved {m : Mailbox ι} {t : ι} {pc : CallerPc}
    (hpc : pc.Owing → (m.caller t).Owing) {u : ι} (hu : (m.moved t pc u).Owing) :
    (m.caller u).Owing := by
  by_cases hut : u = t
  · subst hut
    rw [moved_self] at hu
    exact hpc hu
  · rwa [moved_of_ne m pc hut] at hu

theorem moved_owing {m : Mailbox ι} {t : ι} {pc : CallerPc}
    (hpc : (m.caller t).Owing → pc.Owing) {u : ι} (hu : (m.caller u).Owing) :
    (m.moved t pc u).Owing := by
  by_cases hut : u = t
  · subst hut
    rw [moved_self]
    exact hpc hu
  · rwa [moved_of_ne m pc hut]

/-- A caller that keeps what it owes while it moves. -/
theorem WakeOk.moveCaller {m : Mailbox ι}
    (h : WakeOk m.sem m.caller m.dispatch m.enqueued m.activeNo) {t : ι} {pc : CallerPc}
    (hpc : pc.Owing ↔ (m.caller t).Owing) :
    WakeOk m.sem (m.moved t pc) m.dispatch m.enqueued m.activeNo := by
  refine ⟨h.semaphore, fun u hu => h.callers u (owing_of_moved hpc.mp hu), h.dispatcher,
    fun hlt => ?_⟩
  rcases h.fresh hlt with hsem | hwoken | ⟨u, hu⟩
  · exact Or.inl hsem
  · exact Or.inr (Or.inl hwoken)
  · exact Or.inr (Or.inr ⟨u, moved_owing hpc.mpr hu⟩)

theorem wakeOk_step {m m' : Mailbox ι} {a : MailAct ι}
    (h : WakeOk m.sem m.caller m.dispatch m.enqueued m.activeNo) (hs : Step m a m') :
    WakeOk m'.sem m'.caller m'.dispatch m'.enqueued m'.activeNo := by
  cases hs with
  | call hpc => exact h.moveCaller (by rw [hpc]; rfl)
  | @lock t f hpc hfree =>
      refine ⟨fun _ => by simp, fun _ _ => by simp, fun _ => by simp, ?_⟩
      intro _
      refine Or.inr (Or.inr ⟨t, ?_⟩)
      show (m.moved t (.locked f) t).Owing
      rw [moved_self]
      trivial
  | writeCount hpc => exact h.moveCaller (by rw [hpc]; rfl)
  | writePulse hpc _ => exact h.moveCaller (by rw [hpc]; rfl)
  | unlock hpc => exact h.moveCaller (by rw [hpc]; rfl)
  | @give t hpc =>
      -- What the caller owed is now in the semaphore.
      have hne : m.enqueued ≠ [] := h.callers t (by rw [hpc]; trivial)
      exact ⟨fun _ => hne, fun _ _ => hne, fun _ => hne, fun _ => Or.inl (by simp)⟩
  | take hpc hsem =>
      have hne : m.enqueued ≠ [] := h.semaphore hsem
      exact ⟨fun _ => hne, fun _ _ => hne, fun _ => hne, fun _ => Or.inr (Or.inl trivial)⟩
  | dispatchLock hpc _ =>
      have hne : m.enqueued ≠ [] := h.dispatcher (by rw [hpc]; simp)
      exact ⟨fun _ => hne, fun _ _ => hne, fun _ => hne, fun _ => Or.inr (Or.inl trivial)⟩
  | readCount hpc =>
      have hne : m.enqueued ≠ [] := h.dispatcher (by rw [hpc]; simp)
      exact ⟨fun _ => hne, fun _ _ => hne, fun _ => hne,
        fun hlt => absurd hlt (Nat.lt_irrefl _)⟩
  | readPulse hpc _ =>
      exact h.moveDispatch (by rw [hpc]; simp) (by rw [hpc]; simp [DispatchPc.Woken])
  | dispatchUnlock hpc =>
      exact h.moveDispatch (by rw [hpc]; simp) (by rw [hpc]; simp [DispatchPc.Woken])
  | send hpc =>
      exact h.moveDispatch (by rw [hpc]; simp) (by rw [hpc]; simp [DispatchPc.Woken])
  | sendDone hpc =>
      exact h.moveDispatch (by rw [hpc]; simp) (by rw [hpc]; simp [DispatchPc.Woken])

/-! ### All of it -/

/-- **Every step keeps the invariant.** -/
theorem inv_step {m m' : Mailbox ι} {a : MailAct ι} (h : Inv m) (hs : Step m a m') :
    Inv m' where
  lock := lockOk_step h.lock hs
  pending := pendingOk_step h.lock h.pending hs
  active := activeOk_step h.lock h.pending h.wake h.active hs
  sent := sentOk_step h.active h.sent hs
  wake := wakeOk_step h.wake hs

theorem inv_of_reach {C : Mailbox ι → MailAct ι → Prop} {m : Mailbox ι}
    (h : (machine ι).Reach C m) : Inv m :=
  h.invariant inv_start fun s a _ hI _ hs => inv_step (m := s) (a := a) hI (step_cases hs)

end Mailbox

end Shirokumakun
