/-
What the IR mailbox delivers.

Forgetting buffers, locks and wake-ups leaves the numbers, and as far as the numbers go
the mailbox is the one-place mailbox of `Lib/Slot.lean`: taking the mutex posts, reading
the count fetches, sending delivers.  From that and from the invariant:

  * what is sent is one command, whole, and the numbers sent never decrease;
  * once everyone is done, the last command sent is the last one enqueued.

A command can be sent twice.  The dispatch thread takes the semaphore before it takes
the mutex, and a caller gives the semaphore after it released the mutex, so a copy can
leave a wake-up behind that stands for nothing new.  `WakeupSpent` is the condition
under which that does not happen, and `at_most_once` shows that it is the right one: as
long as it is met nothing is sent twice, and when it is not met, the steps already
owed (`MailAct.Owed`) suffice to send the command being copied, and to send it again.
-/
import Shirokumakun.Mailbox.Invariant
import Shirokumakun.Mailbox.Runs

namespace Shirokumakun

open Transition Transition.Machine

/-- The dispatch thread has copied a command that it has not sent yet. -/
def DispatchPc.loaded : DispatchPc → Bool
  | .copying _ => true
  | .unlocked => true
  | _ => false

/-- How much of the command being served has been sent. -/
def DispatchPc.sends : DispatchPc → Nat
  | .sending => 1
  | .waiting => 1
  | _ => 0

theorem DispatchPc.sends_le (pc : DispatchPc) : pc.sends ≤ 1 := by
  cases pc <;> simp [DispatchPc.sends]

/-- A statement of the dispatch thread, or the `k_sem_give` that a caller still owes: no step
by which a command gets into the mailbox. -/
def MailAct.Owed {ι : Type} : MailAct ι → Prop
  | .call _ _ => False
  | .lock _ => False
  | .writeCount _ => False
  | .writePulse _ => False
  | .unlock _ => False
  | _ => True

def offFrame : IrFrame := .ofState acOff

def coolFrame : IrFrame := .ofState ⟨true, acModeCooling, 24, fanSpeedAuto⟩

namespace Mailbox

variable {ι : Type}

/-- The mailbox, as far as the numbers of its commands go. -/
def box (m : Mailbox ι) : Slot.Box where
  posted := m.enqueued.length
  fetched := m.activeNo
  loaded := m.dispatch.loaded
  replaced := m.replaced
  delivered := m.sent.map Prod.fst

/-- With nobody inside and no wake-up anywhere, the newest command has been copied. -/
theorem newest_copied {m : Mailbox ι} (hinv : Inv m) (hcallers : ∀ t, m.caller t = .outside)
    (hdispatch : m.dispatch = .waiting) (hsem : m.sem = 0) : m.activeNo = m.enqueued.length := by
  refine Nat.le_antisymm hinv.active.no_le (Nat.le_of_not_lt fun hlt => ?_)
  rcases hinv.wake.fresh hlt with hpos | hwoken | ⟨t, ht⟩
  · omega
  · rw [hdispatch] at hwoken
    exact hwoken
  · rw [hcallers t] at ht
    exact ht

/-- As long as the condition is met, every wake-up stands for a command not yet copied. -/
structure NoStale (sem : Nat) (caller : ι → CallerPc) (dispatch : DispatchPc)
    (posted activeNo : Nat) : Prop where
  semaphore : 0 < sem → activeNo < posted
  callers : ∀ t, (caller t).Owing → activeNo < posted
  dispatcher : dispatch.Woken → activeNo < posted
  spent : dispatch = .locked → sem = 0 ∧ ∀ t, ¬ (caller t).Owing

theorem NoStale.moveDispatch {sem : Nat} {caller : ι → CallerPc} {dispatch pc : DispatchPc}
    {posted activeNo : Nat} (h : NoStale sem caller dispatch posted activeNo)
    (hnot : ¬ pc.Woken) : NoStale sem caller pc posted activeNo := by
  refine ⟨h.semaphore, h.callers, fun hw => absurd hw hnot, ?_⟩
  intro hd
  rw [hd] at hnot
  exact absurd trivial hnot

/-- A caller that owes a wake-up without holding the mutex has unlocked it. -/
theorem unlocked_of_owing {m : Mailbox ι} (hinv : Inv m) (hfree : m.mutex = none) {t : ι}
    (ht : (m.caller t).Owing) : m.caller t = .unlocked := by
  have hout := hinv.lock.no_caller (by simp [hfree]) t
  cases hc : m.caller t with
  | unlocked => rfl
  | outside => rw [hc] at ht; exact absurd ht id
  | called f => rw [hc] at ht; exact absurd ht id
  | locked f => rw [hc] at hout; exact absurd trivial hout
  | copying f i => rw [hc] at hout; exact absurd trivial hout

theorem owed_turnSteps (count : Nat) : ∀ a ∈ turnSteps (ι := ι) count, a.Owed := by
  intro a ha
  simp only [turnSteps, copySteps, List.mem_append, List.mem_cons, List.mem_replicate,
    List.not_mem_nil, or_false] at ha
  rcases ha with (rfl | ⟨-, rfl⟩ | rfl) | rfl | rfl
  all_goals trivial

variable [DecidableEq ι]

/-- Every step leaves the box alone or is one step of it, and only reading the count is a
fetch. -/
theorem box_step {m m' : Mailbox ι} {a : MailAct ι} (h : Inv m) (hs : Step m a m') :
    box m' = box m ∨
      ∃ b, (b = .fetch → m.dispatch = .locked) ∧ (box m).step b = some (box m') := by
  cases hs with
  | @lock t f hpc hfree =>
      refine Or.inr ⟨.post, by simp, ?_⟩
      simp [Slot.Box.step, box]
  | take hpc _ => exact Or.inl (by simp [box, hpc, DispatchPc.loaded])
  | dispatchLock hpc _ => exact Or.inl (by simp [box, hpc, DispatchPc.loaded])
  | readCount hpc =>
      refine Or.inr ⟨.fetch, fun _ => hpc, ?_⟩
      have hne : m.enqueued ≠ [] := h.wake.dispatcher (by rw [hpc]; simp)
      simp [Slot.Box.step, box, hpc, DispatchPc.loaded, List.length_pos_of_ne_nil hne]
  | readPulse hpc _ => exact Or.inl (by simp [box, hpc, DispatchPc.loaded])
  | dispatchUnlock hpc => exact Or.inl (by simp [box, hpc, DispatchPc.loaded])
  | send hpc =>
      refine Or.inr ⟨.deliver, by simp, ?_⟩
      simp [Slot.Box.step, box, hpc, DispatchPc.loaded]
  | sendDone hpc => exact Or.inl (by simp [box, hpc, DispatchPc.loaded])
  | _ => exact Or.inl rfl

theorem box_reachable {m : Mailbox ι} (h : (machine ι).Reachable m) :
    Slot.Box.machine.Reachable m.box :=
  h.simulate box (fun _ hr => inv_of_reach hr) rfl fun s a _ hI _ hs => by
    rcases box_step hI (step_cases hs) with heq | ⟨b, -, hb⟩
    · exact Or.inl heq
    · exact Or.inr ⟨b, trivial, hb⟩

/-! ### Whole, in order, and the newest not lost -/

/-- **The mailbox delivers.**  Every command sent is exactly the pulses of the one call with
its number; the numbers never decrease; and when all callers have returned and the dispatch
thread waits on an empty semaphore, the last command sent is the last one enqueued. -/
theorem mailbox_delivery {m : Mailbox ι} (h : (machine ι).Reachable m) :
    (∀ e ∈ m.sent, 0 < e.1 ∧ ∃ f, m.enqueued[e.1 - 1]? = some f ∧ e.2 = f.pulses) ∧
    (m.sent.map Prod.fst).Pairwise (· ≤ ·) ∧
    ((∀ t, m.caller t = .outside) → m.dispatch = .waiting → m.sem = 0 →
      ∀ f, m.enqueued.getLast? = some f →
        m.sent.getLast? = some (m.enqueued.length, f.pulses)) := by
  have hinv := inv_of_reach h
  have hbox := Slot.Box.inv_of_reach (box_reachable h)
  refine ⟨hinv.sent, hbox.sorted, ?_⟩
  intro hcallers hdispatch hsem f hf
  have hno := newest_copied hinv hcallers hdispatch hsem
  have hpos : m.enqueued.length ≠ 0 := by
    intro hzero
    rw [List.length_eq_zero_iff.mp hzero] at hf
    cases hf
  have hlast := hbox.last (by simp [box, hdispatch, DispatchPc.loaded])
    (show m.activeNo ≠ 0 by rwa [hno])
  -- The last number sent is the newest; what was sent under it is the newest command.
  obtain ⟨e, he, hfst⟩ : ∃ e, m.sent.getLast? = some e ∧ e.1 = m.activeNo := by
    rw [show m.box.delivered = m.sent.map Prod.fst from rfl, List.getLast?_map] at hlast
    exact Option.map_eq_some_iff.mp hlast
  obtain ⟨-, g, hg, hps⟩ := hinv.sent e (List.mem_of_getLast? he)
  rw [hfst, hno, ← List.getLast?_eq_getElem?, hf] at hg
  obtain rfl : f = g := Option.some.inj hg
  rw [he, ← hps, ← hno, ← hfst]

/-- One thread asks for cooling, and before the dispatch thread wakes up another switches the
unit off: the frame that reaches `ir_send_command` is the one enqueued last. -/
theorem mailbox_delivery_off : ∃ m : Mailbox Bool, (machine Bool).Reachable m ∧
    m.enqueued = [coolFrame, offFrame] ∧ m.replaced = [1] ∧
    m.sent.getLast? = some (2, offFrame.pulses) := by
  obtain ⟨buf₁, hcall₁⟩ := run_call (m := start) (t := false) rfl rfl coolFrame
  let posted : Mailbox Bool := { called start false coolFrame buf₁ with
    sem := 1
    caller := fun _ => .outside }
  have hgive : (machine Bool).run (called start false coolFrame buf₁) [.give false]
      = some posted := by
    simp [machine, step, called, moved, posted, start]
  obtain ⟨buf₂, hcall₂⟩ := run_call (m := posted) (t := true) rfl rfl offFrame
  let copying : Mailbox Bool := { called posted true offFrame buf₂ with
    sem := 0
    caller := fun _ => .outside
    mutex := some .dispatch
    dispatch := .locked }
  have hwake : (machine Bool).run (called posted true offFrame buf₂)
      [.give true, .take, .dispatchLock] = some copying := by
    simp [machine, step, called, moved, copying, posted, start]
  obtain ⟨buf₃, hturn⟩ := run_turn (m := copying) rfl
  have hreach : (machine Bool).Reachable (copying.turned buf₃) :=
    ((((reachable_of_run hcall₁).run hgive).run hcall₂).run hwake).run hturn
  exact ⟨_, hreach, rfl, rfl,
    (mailbox_delivery hreach).2.2 (fun _ => rfl) rfl rfl offFrame rfl⟩

/-! ### At most once -/

/-- When the dispatch thread takes the mutex, no further wake-up is left in the semaphore
or owed by a caller that has already written its command. -/
def WakeupSpent (m : Mailbox ι) (a : MailAct ι) : Prop :=
  a = .dispatchLock → m.sem = 0 ∧ ∀ t, m.caller t ≠ .unlocked

theorem NoStale.moveCaller {m : Mailbox ι} {posted : Nat}
    (h : NoStale m.sem m.caller m.dispatch posted m.activeNo) {t : ι} {pc : CallerPc}
    (hpc : pc.Owing → (m.caller t).Owing) :
    NoStale m.sem (m.moved t pc) m.dispatch posted m.activeNo := by
  refine ⟨h.semaphore, fun u hu => h.callers u (owing_of_moved hpc hu), h.dispatcher,
    fun hd => ?_⟩
  obtain ⟨hsem, hnone⟩ := h.spent hd
  exact ⟨hsem, fun u hu => hnone u (owing_of_moved hpc hu)⟩

theorem noStale_step {m m' : Mailbox ι} {a : MailAct ι} (hinv : Inv m)
    (h : NoStale m.sem m.caller m.dispatch m.enqueued.length m.activeNo)
    (hspent : WakeupSpent m a) (hs : Step m a m') :
    NoStale m'.sem m'.caller m'.dispatch m'.enqueued.length m'.activeNo := by
  cases hs with
  | call hpc => exact h.moveCaller (by simp [CallerPc.Owing])
  | @lock t f hpc hfree =>
      have hlt : m.activeNo < (m.enqueued ++ [f]).length := by
        rw [List.length_append]
        exact Nat.lt_succ_of_le hinv.active.no_le
      refine ⟨fun _ => hlt, fun _ _ => hlt, fun _ => hlt, ?_⟩
      intro hd
      have hheld := hinv.lock.dispatcher.mp (by rw [show m.dispatch = .locked from hd]; trivial)
      rw [hfree] at hheld
      cases hheld
  | writeCount hpc => exact h.moveCaller (by rw [hpc]; exact id)
  | writePulse hpc _ => exact h.moveCaller (by rw [hpc]; exact id)
  | unlock hpc => exact h.moveCaller (by rw [hpc]; exact id)
  | @give t hpc =>
      have howing : (m.caller t).Owing := by rw [hpc]; trivial
      have hmoved : NoStale m.sem (m.moved t .outside) m.dispatch m.enqueued.length m.activeNo :=
        h.moveCaller (by simp [CallerPc.Owing])
      exact ⟨fun _ => h.callers t howing, hmoved.callers, h.dispatcher,
        fun hd => absurd howing ((h.spent hd).2 t)⟩
  | take hpc hsem =>
      exact ⟨fun _ => h.semaphore hsem, h.callers, fun _ => h.semaphore hsem,
        fun hd => by simp at hd⟩
  | dispatchLock hpc hfree =>
      obtain ⟨hsem, hnone⟩ := hspent rfl
      have hlt := h.dispatcher (by rw [hpc]; trivial)
      refine ⟨h.semaphore, h.callers, fun _ => hlt, fun _ => ⟨hsem, fun u hu => ?_⟩⟩
      exact hnone u (unlocked_of_owing hinv hfree hu)
  | readCount hpc =>
      obtain ⟨hsem, hnone⟩ := h.spent hpc
      refine ⟨fun hpos => ?_, fun u hu => absurd hu (hnone u), fun hw => absurd hw id,
        fun hd => by simp at hd⟩
      have hpos' : 0 < m.sem := hpos
      omega
  | readPulse _ _ => exact h.moveDispatch id
  | dispatchUnlock _ => exact h.moveDispatch id
  | send _ => exact h.moveDispatch id
  | sendDone _ => exact h.moveDispatch id

theorem noStale_of_reach {m : Mailbox ι} (h : (machine ι).Reach WakeupSpent m) :
    NoStale m.sem m.caller m.dispatch m.enqueued.length m.activeNo :=
  h.invariant_from (J := Inv) (fun _ hr => inv_of_reach hr)
    ⟨fun hpos => absurd hpos (Nat.lt_irrefl 0), fun _ hu => absurd hu id,
      fun hw => absurd hw id, fun hd => by cases hd⟩
    fun s a _ hinv hI hC hs => noStale_step (m := s) (a := a) hinv hI hC (step_cases hs)

theorem box_fresh {m : Mailbox ι} (h : (machine ι).Reach WakeupSpent m) :
    Slot.Box.machine.Reach Slot.Box.Fresh m.box :=
  h.simulate (J := fun s => Inv s ∧ NoStale s.sem s.caller s.dispatch s.enqueued.length s.activeNo)
    box (fun _ hr => ⟨inv_of_reach hr, noStale_of_reach hr⟩) rfl fun s a _ hJ _ hs => by
      rcases box_step hJ.1 (step_cases hs) with heq | ⟨b, hfetch, hb⟩
      · exact Or.inl heq
      · exact Or.inr ⟨b, fun hbf => hJ.2.dispatcher (by rw [hfetch hbf]; trivial), hb⟩

/-! ### The condition is exact -/

/-- A wake-up that is in the semaphore or still owed brings the dispatch thread back to the
mutex without another call. -/
theorem run_wake {m : Mailbox ι} (hpc : m.dispatch = .waiting) (hfree : m.mutex = none)
    (hwake : 0 < m.sem ∨ ∃ t, m.caller t = .unlocked) :
    ∃ acts m', (∀ a ∈ acts, a.Owed) ∧ (machine ι).run m acts = some m' ∧
      m'.dispatch = .locked ∧ m'.enqueued = m.enqueued ∧ m'.sent = m.sent := by
  rcases hwake with hsem | ⟨t, ht⟩
  · refine ⟨[.take, .dispatchLock],
      { m with sem := m.sem - 1, mutex := some .dispatch, dispatch := .locked },
      by simp [MailAct.Owed], ?_, rfl, rfl, rfl⟩
    simp only [Machine.run_cons, Machine.run_nil, machine, step]
    rw [if_pos ⟨hpc, hsem⟩]
    simp [hfree]
  · refine ⟨[.give t, .take, .dispatchLock], { m with
      sem := min (m.sem + 1) 1 - 1
      caller := m.moved t .outside
      mutex := some .dispatch
      dispatch := .locked }, by simp [MailAct.Owed], ?_, rfl, rfl, rfl⟩
    simp only [Machine.run_cons, Machine.run_nil, machine, step, ht, Option.bind_some]
    rw [if_pos ⟨hpc, by simp⟩]
    simp [hfree]

/-- A copy taken while a further wake-up is left can be followed by a second copy of the same
command: both are of the last one enqueued. -/
theorem run_twice {m m' : Mailbox ι} (hs : m.step .dispatchLock = some m')
    (hleft : ¬ WakeupSpent m .dispatchLock) :
    ∃ acts m'', (∀ a ∈ acts, a.Owed) ∧ (machine ι).run m' acts = some m'' ∧
      m''.enqueued = m.enqueued ∧
      m''.sent.map Prod.fst = m.sent.map Prod.fst ++ [m.enqueued.length, m.enqueued.length] := by
  have hwake : 0 < m.sem ∨ ∃ t, m.caller t = .unlocked := by
    by_cases hsem : m.sem = 0
    · refine Or.inr (Classical.byContradiction fun hnone => hleft fun _ => ⟨hsem, fun t ht => ?_⟩)
      exact hnone ⟨t, ht⟩
    · exact Or.inl (Nat.pos_of_ne_zero hsem)
  cases step_cases hs with
  | dispatchLock hpc hfree =>
      -- Copy and send, let the left wake-up through, copy and send again.
      let copying : Mailbox ι := { m with mutex := some .dispatch, dispatch := .locked }
      obtain ⟨buf₁, hrun₁⟩ := run_turn (m := copying) rfl
      obtain ⟨acts, m₂, howed, hrun₂, hpc₂, henq₂, hsent₂⟩ :=
        run_wake (m := copying.turned buf₁) rfl rfl hwake
      obtain ⟨buf₃, hrun₃⟩ := run_turn hpc₂
      refine ⟨turnSteps copying.pendingCount ++ (acts ++ turnSteps m₂.pendingCount),
        m₂.turned buf₃, ?_, ?_, henq₂, ?_⟩
      · intro a ha
        rcases List.mem_append.mp ha with ha | ha
        · exact owed_turnSteps _ a ha
        · rcases List.mem_append.mp ha with ha | ha
          · exact howed a ha
          · exact owed_turnSteps _ a ha
      · rw [run_append_of_run _ hrun₁, run_append_of_run _ hrun₂, hrun₃]
      · rw [map_fst_sent_turned, hsent₂, henq₂, map_fst_sent_turned]
        simp [turned, copying]

/-- The dispatch thread is in its last turn, `n` commands having been sent before it: nobody
owes a wake-up. -/
structure LastTurn (n : Nat) (m : Mailbox ι) : Prop where
  sem : m.sem = 0
  callers : ∀ t, ¬ (m.caller t).Owing
  taken : m.dispatch ≠ .taken
  sent : m.sent.length ≤ n + m.dispatch.sends

theorem LastTurn.step {n : Nat} {m m' : Mailbox ι} {a : MailAct ι} (h : LastTurn n m)
    (ha : a.Owed) (hs : Step m a m') : LastTurn n m' := by
  cases hs with
  | call _ => exact absurd ha id
  | lock _ _ => exact absurd ha id
  | writeCount _ => exact absurd ha id
  | writePulse _ _ => exact absurd ha id
  | unlock _ => exact absurd ha id
  | @give t hpc => exact absurd (by rw [hpc]; trivial) (h.callers t)
  | take _ hsem =>
      rw [h.sem] at hsem
      cases hsem
  | dispatchLock hpc _ => exact absurd hpc h.taken
  | readCount hpc | readPulse hpc _ | dispatchUnlock hpc =>
      have hsent := h.sent
      rw [hpc] at hsent
      exact ⟨h.sem, h.callers, by simp, hsent⟩
  | send hpc =>
      have hsent := h.sent
      rw [hpc] at hsent
      refine ⟨h.sem, h.callers, by simp, ?_⟩
      rw [List.length_append]
      exact Nat.add_le_add_right hsent 1
  | sendDone hpc =>
      have hsent := h.sent
      rw [hpc] at hsent
      exact ⟨h.sem, h.callers, by simp, hsent⟩

theorem LastTurn.run {n : Nat} {m m' : Mailbox ι} {acts : List (MailAct ι)} (h : LastTurn n m)
    (howed : ∀ a ∈ acts, a.Owed) (hrun : (machine ι).run m acts = some m') : LastTurn n m' := by
  induction acts generalizing m with
  | nil =>
      obtain rfl : m = m' := Option.some.inj hrun
      exact h
  | cons a rest ih =>
      obtain ⟨m₁, hs, hrest⟩ := Option.bind_eq_some_iff.mp hrun
      have h₁ := h.step (howed a List.mem_cons_self) (step_cases hs)
      exact ih h₁ (fun b hb => howed b (List.mem_cons_of_mem a hb)) hrest

/-- A copy taken when no further wake-up is left is not followed by another. -/
theorem lastTurn_of_spent {m m' : Mailbox ι} (hinv : Inv m)
    (hs : m.step .dispatchLock = some m') (hspent : WakeupSpent m .dispatchLock) :
    LastTurn m.sent.length m' := by
  obtain ⟨hsem, hnone⟩ := hspent rfl
  cases step_cases hs with
  | dispatchLock hpc hfree =>
      refine ⟨hsem, fun t ht => ?_, by simp, Nat.le_refl _⟩
      exact hnone t (unlocked_of_owing hinv hfree ht)

/-- **Sent at most once**, as long as every wake-up but the one being served is spent when the
dispatch thread takes the mutex.  The condition is exact: when it is not met, the dispatch
thread can send the command it is about to copy and then send it again, with no caller
entering or writing in between, and when it is met, only one command can so be sent.  A
replaced command is never sent. -/
theorem at_most_once :
    (∀ m : Mailbox ι, (machine ι).Reach WakeupSpent m → (m.sent.map Prod.fst).Nodup) ∧
    (∀ m m' : Mailbox ι, m.step .dispatchLock = some m' → ¬ WakeupSpent m .dispatchLock →
      ∃ acts m'', (∀ a ∈ acts, a.Owed) ∧ (machine ι).run m' acts = some m'' ∧
        m''.enqueued = m.enqueued ∧ m''.sent.map Prod.fst
          = m.sent.map Prod.fst ++ [m.enqueued.length, m.enqueued.length]) ∧
    (∀ m m' : Mailbox ι, (machine ι).Reachable m → m.step .dispatchLock = some m' →
      WakeupSpent m .dispatchLock → ∀ acts m'', (∀ a ∈ acts, a.Owed) →
        (machine ι).run m' acts = some m'' → m''.sent.length ≤ m.sent.length + 1) ∧
    (∀ m : Mailbox ι, (machine ι).Reachable m →
      ∀ n ∈ m.replaced, n ∉ m.sent.map Prod.fst) := by
  refine ⟨?_, ?_, ?_, ?_⟩
  · intro m h
    exact Slot.Box.delivered_nodup (box_fresh h)
  · intro m m' hs hleft
    exact run_twice hs hleft
  · intro m m' h hs hspent acts m'' howed hrun
    have hlast := (lastTurn_of_spent (inv_of_reach h) hs hspent).run howed hrun
    exact hlast.sent.trans (Nat.add_le_add_left (DispatchPc.sends_le _) _)
  · intro m h n hn
    exact ((Slot.Box.inv_of_reach (box_reachable h)).replaced_lt n hn).2.2

/-- The second command arrives between `k_sem_take` and `k_mutex_lock` and is sent twice. -/
theorem sent_twice : ∃ m : Mailbox Bool,
    (machine Bool).run start (callSteps false coolFrame ++ ([.give false, .take] ++
      (callSteps true offFrame ++ ([.give true, .dispatchLock] ++
        (turnSteps 427 ++ ([.take, .dispatchLock] ++ turnSteps 427)))))) = some m ∧
    m.enqueued = [coolFrame, offFrame] ∧ m.sent.map Prod.fst = [2, 2] := by
  obtain ⟨buf₁, hcall₁⟩ := run_call (m := start) (t := false) rfl rfl coolFrame
  let woken : Mailbox Bool := { called start false coolFrame buf₁ with
    caller := fun _ => .outside
    dispatch := .taken }
  have hwake : (machine Bool).run (called start false coolFrame buf₁) [.give false, .take]
      = some woken := by
    simp [machine, step, called, moved, woken, start]
  obtain ⟨buf₂, hcall₂⟩ := run_call (m := woken) (t := true) rfl rfl offFrame
  let copying : Mailbox Bool := { called woken true offFrame buf₂ with
    sem := 1
    caller := fun _ => .outside
    mutex := some .dispatch
    dispatch := .locked }
  have hlock : (machine Bool).run (called woken true offFrame buf₂) [.give true, .dispatchLock]
      = some copying := by
    simp [machine, step, called, moved, copying, woken, start]
  obtain ⟨buf₃, hturn⟩ : ∃ buf, (machine Bool).run copying (turnSteps offFrame.pulses.length)
      = some (copying.turned buf) := run_turn rfl
  let again : Mailbox Bool := { copying.turned buf₃ with
    sem := 0
    mutex := some .dispatch
    dispatch := .locked }
  have hagain : (machine Bool).run (copying.turned buf₃) [.take, .dispatchLock] = some again := by
    simp [machine, step, turned, again, copying]
  obtain ⟨buf₄, hturn'⟩ : ∃ buf, (machine Bool).run again (turnSteps offFrame.pulses.length)
      = some (again.turned buf) := run_turn rfl
  have hcount : (427 : Nat) = offFrame.pulses.length := (length_framePulses acOff).symm
  refine ⟨again.turned buf₄, ?_, rfl, rfl⟩
  rw [hcount, run_append_of_run _ hcall₁, run_append_of_run _ hwake,
    run_append_of_run _ hcall₂, run_append_of_run _ hlock,
    run_append_of_run _ hturn, run_append_of_run _ hagain]
  exact hturn'

end Mailbox

end Shirokumakun
