/-
What a poll does with corrupted words.

The driver is run on a bus that keeps a record of everything done on it, so that "the words
received in a poll" are what stands in the record, whatever the driver makes of them.  The
three words of a measurement are checked before anything is done with them.  The word that
says whether there is a measurement is not: its checksum is received and never looked at.
-/
import Shirokumakun.Scd40.Checksum

namespace Shirokumakun.Scd40

/-! ### The bus with a record -/

/-- One operation on the bus, with its outcome. -/
inductive Op
  | write (addr : UInt8) (bytes : List UInt8) (ret : Int)
  | read (addr : UInt8) (len : Nat) (ret : Int) (buf : Vector UInt8 len)
  | sleep (msec : Nat)

section

variable {β : Type*} (bus : I2cBus β)

def I2cBus.logged : I2cBus (β × List Op) where
  write addr bytes b :=
    let (ret, b') := bus.write addr bytes b.1
    (ret, b', b.2 ++ [.write addr bytes ret])
  read addr len b :=
    let (ret, buf, b') := bus.read addr len b.1
    (ret, buf, b', b.2 ++ [.read addr len ret buf])
  sleepMsec msec b := (bus.sleepMsec msec b.1, b.2 ++ [.sleep msec])

/-- A word that was received and does not match the checksum behind it. -/
def Op.Corrupt : Op → Prop
  | .read _ len ret buf => ret = 0 ∧
      ∃ w, ∃ _ : 3 * w + 2 < len, sensirionCrc [buf[3 * w], buf[3 * w + 1]] ≠ buf[3 * w + 2]
  | _ => False

variable {γ : Type*} (stack : MatterStack γ)

/-- What a poll does on the bus. -/
def pollLog (out : Measurement) (b : β) (s : Sensor γ) : List Op :=
  (pollWorkHandler bus.logged stack out (b, []) s).1.2

/-- **A poll ignores corrupted words**: receiving one, it changes neither the reading nor any
attribute; and if it is the word that says whether data is ready, none is asked for. -/
structure IgnoresCorrupted (out : Measurement) (b : β) (s : Sensor γ) : Prop where
  harmless : ∀ op ∈ pollLog bus stack out b s, op.Corrupt →
    (pollWorkHandler bus stack out b s).2.last_reading = s.last_reading ∧
      (pollWorkHandler bus stack out b s).2.attributes = s.attributes
  notReady : ∀ ready : Vector UInt8 3,
    .read scd40I2cAddr 3 0 ready ∈ pollLog bus stack out b s →
      ¬ ReadyMatches ready → ∀ ret,
        .write scd40I2cAddr (cmdBytes scd40CmdReadMeasurement) ret ∉ pollLog bus stack out b s

/-- The word that says whether data is ready, if received, matches its checksum or says no. -/
def ReadyTrusted (b : β) : Prop :=
  ∀ b₁ ready b₂, CommandAccepted bus scd40CmdDataReady b b₁ →
    bus.read scd40I2cAddr 3 (bus.sleepMsec 1 b₁) = (0, ready, b₂) →
      ReadyMatches ready ∨ readyBits ready = 0

end

/-! ### The driver's functions, given what the bus answers -/

section

variable {β γ : Type*} {bus : I2cBus β} {b b₁ b₂ : β} {ret : Int} {out : Measurement}

theorem scd40ReadMeasurement_refused
    (hcmd : scd40WriteCmd bus scd40CmdReadMeasurement b = (ret, b₁))
    (hret : ret ≠ 0) : scd40ReadMeasurement bus out b = (ret, out, b₁) := by
  rw [scd40ReadMeasurement, hcmd]
  exact if_pos hret

theorem scd40ReadMeasurement_answered {buf : Vector UInt8 9}
    (hcmd : scd40WriteCmd bus scd40CmdReadMeasurement b = (0, b₁))
    (hread : bus.read scd40I2cAddr 9 (bus.sleepMsec 1 b₁) = (ret, buf, b₂)) :
    scd40ReadMeasurement bus out b =
      if ret ≠ 0 then (ret, out, b₂)
      else if ∃ w, ¬ CrcMatches buf w then (-eio, out, b₂) else (0, decode buf, b₂) := by
  rw [scd40ReadMeasurement, hcmd]
  simp only [hread, ne_eq, not_true_eq_false, if_false]

variable {stack : MatterStack γ} {s : Sensor γ}

theorem pollWorkHandler_refused (hcmd : scd40WriteCmd bus scd40CmdDataReady b = (ret, b₁))
    (hret : ret ≠ 0) : pollWorkHandler bus stack out b s = (b₁, s) := by
  rw [pollWorkHandler, hcmd]
  exact if_pos hret

theorem pollWorkHandler_answered {ready : Vector UInt8 3}
    (hcmd : scd40WriteCmd bus scd40CmdDataReady b = (0, b₁))
    (hread : bus.read scd40I2cAddr 3 (bus.sleepMsec 1 b₁) = (ret, ready, b₂)) :
    pollWorkHandler bus stack out b s =
      if ret ≠ 0 then (b₂, s)
      else if readyBits ready = 0 then (b₂, s)
      else match scd40ReadMeasurement bus out b₂ with
        | (ret, m, b₃) =>
          if ret ≠ 0 then (b₃, s) else (b₃, updateMatterAttributes stack m s) := by
  rw [pollWorkHandler, hcmd]
  simp only [hread, ne_eq, not_true_eq_false, if_false]
  rfl

end

/-! ### The record of a poll -/

section

variable {β γ : Type*} {bus : I2cBus β} {stack : MatterStack γ}

/-- What sending `cmd` leaves in the record. -/
def IsCommand (cmd : UInt16) (op : Op) : Prop :=
  (∃ ret, op = .write scd40I2cAddr (cmdBytes cmd) ret) ∨ ∃ msec, op = .sleep msec

theorem not_corrupt_of_isCommand {cmd : UInt16} {op : Op} (h : IsCommand cmd op) :
    ¬ op.Corrupt := by
  rcases h with ⟨ret, rfl⟩ | ⟨msec, rfl⟩
  · exact not_false
  · exact not_false

theorem not_isCommand_read {cmd : UInt16} {addr : UInt8} {len : Nat} {ret : Int}
    {buf : Vector UInt8 len} : ¬ IsCommand cmd (.read addr len ret buf) := by
  rintro (⟨_, heq⟩ | ⟨_, heq⟩)
  · exact Op.noConfusion heq
  · exact Op.noConfusion heq

/-- From `log` on, `cmd` has been sent, and nothing else done; the bus is in `t`. -/
def Sends (cmd : UInt16) (log : List Op) (s : β × List Op) (t : β) : Prop :=
  ∃ ops, s = (t, log ++ ops) ∧ (∀ op ∈ ops, IsCommand cmd op) ∧
    ∃ ret, Op.write scd40I2cAddr (cmdBytes cmd) ret ∈ ops

theorem writeAttempt_logged {cmd : UInt16} {ops : List Op} (h : ∀ op ∈ ops, IsCommand cmd op)
    (t : β) (log : List Op) :
    (writeAttempt bus.logged cmd (t, log ++ ops)).1 = (writeAttempt bus cmd t).1 ∧
      Sends cmd log (writeAttempt bus.logged cmd (t, log ++ ops)).2 (writeAttempt bus cmd t).2 := by
  rcases hw : bus.write scd40I2cAddr (cmdBytes cmd) t with ⟨ret, t'⟩
  have hlogged : bus.logged.write scd40I2cAddr (cmdBytes cmd) (t, log ++ ops)
      = (ret, t', log ++ (ops ++ [.write scd40I2cAddr (cmdBytes cmd) ret])) := by
    simp [I2cBus.logged, hw]
  have hops : ∀ op ∈ ops ++ [.write scd40I2cAddr (cmdBytes cmd) ret], IsCommand cmd op := by
    intro op hop
    rcases List.mem_append.mp hop with hold | hnew
    · exact h op hold
    · rw [List.mem_singleton.mp hnew]
      exact Or.inl ⟨ret, rfl⟩
  rw [writeAttempt_eq hw, writeAttempt_eq hlogged]
  by_cases hzero : ret = 0
  · rw [if_pos hzero, if_pos hzero]
    exact ⟨rfl, _, rfl, hops, ret, by simp⟩
  · rw [if_neg hzero, if_neg hzero]
    refine ⟨rfl, ops ++ [.write scd40I2cAddr (cmdBytes cmd) ret] ++ [.sleep 100], ?_, ?_, ret, ?_⟩
    · simp [I2cBus.logged]
    · intro op hop
      rcases List.mem_append.mp hop with hold | hnew
      · exact hops op hold
      · rw [List.mem_singleton.mp hnew]
        exact Or.inr ⟨100, rfl⟩
    · simp

/-- **Sending a command** works as on the bus without a record. -/
theorem scd40WriteCmd_logged {cmd : UInt16} {b b₁ : β} {ret : Int}
    (h : scd40WriteCmd bus cmd b = (ret, b₁)) (log : List Op) :
    ∃ ops, scd40WriteCmd bus.logged cmd (b, log) = (ret, b₁, log ++ ops) ∧
      (∀ op ∈ ops, IsCommand cmd op) ∧
      ∃ ret, Op.write scd40I2cAddr (cmdBytes cmd) ret ∈ ops := by
  have hnone : ∀ op ∈ ([] : List Op), IsCommand cmd op := by
    intro op hop
    exact absurd hop List.not_mem_nil
  have hfirst : (writeAttempt bus.logged cmd (b, log ++ [])).1 = (writeAttempt bus cmd b).1 ∧ _ :=
    writeAttempt_logged hnone b log
  rw [List.append_nil] at hfirst
  have hloop : (scd40WriteCmd bus.logged cmd (b, log)).1 = (scd40WriteCmd bus cmd b).1 ∧
      Sends cmd log (scd40WriteCmd bus.logged cmd (b, log)).2 (scd40WriteCmd bus cmd b).2 := by
    refine Retry.upTo_succ_simulate (R := Sends cmd log) ?_ hfirst
    rintro s t ⟨ops, rfl, hops, -⟩
    exact writeAttempt_logged hops t log
  rw [h] at hloop
  obtain ⟨hret, ops, hlog, hops⟩ := hloop
  exact ⟨ops, Prod.ext hret hlog, hops⟩

theorem logged_read {len : Nat} {b b' : β} {ret : Int} {buf : Vector UInt8 len}
    (h : bus.read scd40I2cAddr len (bus.sleepMsec 1 b) = (ret, buf, b')) (log : List Op) :
    bus.logged.read scd40I2cAddr len (bus.logged.sleepMsec 1 (b, log))
      = (ret, buf, b', log ++ [.sleep 1, .read scd40I2cAddr len ret buf]) := by
  simp [I2cBus.logged, h]

/-- A response is corrupted if one of the three checksums does not match. -/
theorem corrupt_response_iff {addr : UInt8} {ret : Int} {buf : Vector UInt8 9} :
    (Op.read addr 9 ret buf).Corrupt ↔ ret = 0 ∧ ∃ w, ¬ CrcMatches buf w := by
  have hwords : (∃ w, ∃ _ : 3 * w + 2 < 9,
      sensirionCrc [buf[3 * w], buf[3 * w + 1]] ≠ buf[3 * w + 2]) ↔ ∃ w, ¬ CrcMatches buf w := by
    constructor
    · rintro ⟨w, hw, hbad⟩
      exact ⟨⟨w, by omega⟩, hbad⟩
    · rintro ⟨w, hbad⟩
      exact ⟨w.val, by omega, hbad⟩
  exact and_congr_right fun _ => hwords

theorem corrupt_ready_iff {addr : UInt8} {ret : Int} {ready : Vector UInt8 3} :
    (Op.read addr 3 ret ready).Corrupt ↔
      ret = 0 ∧ ¬ ReadyMatches ready := by
  have hwords : (∃ w, ∃ _ : 3 * w + 2 < 3,
      sensirionCrc [ready[3 * w], ready[3 * w + 1]] ≠ ready[3 * w + 2]) ↔
        ¬ ReadyMatches ready := by
    constructor
    · rintro ⟨w, hw, hbad⟩
      obtain rfl : w = 0 := by omega
      exact hbad
    · intro hbad
      exact ⟨0, by omega, hbad⟩
  exact and_congr_right fun _ => hwords

/-- **The nested read** likewise; and a corrupted word in it is an error. -/
theorem scd40ReadMeasurement_logged {out m : Measurement} {b b' : β} {ret : Int}
    (h : scd40ReadMeasurement bus out b = (ret, m, b')) (log : List Op) :
    ∃ ops, scd40ReadMeasurement bus.logged out (b, log) = (ret, m, b', log ++ ops) ∧
      (∃ ret, Op.write scd40I2cAddr (cmdBytes scd40CmdReadMeasurement) ret ∈ ops) ∧
      (∀ ready, Op.read scd40I2cAddr 3 0 ready ∉ ops) ∧
      ((∃ op ∈ ops, op.Corrupt) → ret ≠ 0) := by
  rcases hcmd : scd40WriteCmd bus scd40CmdReadMeasurement b with ⟨code, b₁⟩
  obtain ⟨ops, hlogged, hops, ret', hwrite⟩ := scd40WriteCmd_logged hcmd log
  have hintact : ∀ op ∈ ops, ¬ op.Corrupt :=
    fun op hop => not_corrupt_of_isCommand (hops op hop)
  have hnoread : ∀ ready, Op.read scd40I2cAddr 3 0 ready ∉ ops :=
    fun ready hmem => not_isCommand_read (hops _ hmem)
  by_cases hzero : code = 0
  · subst hzero
    rcases hread : bus.read scd40I2cAddr 9 (bus.sleepMsec 1 b₁) with ⟨code, buf, b₂⟩
    have hreadlog := logged_read hread (log ++ ops)
    rw [scd40ReadMeasurement_answered hcmd hread] at h
    rw [scd40ReadMeasurement_answered hlogged hreadlog, List.append_assoc]
    have hmem : ∀ op, op ∈ ops ++ [.sleep 1, .read scd40I2cAddr 9 code buf] →
        op ∈ ops ∨ op = .sleep 1 ∨ op = .read scd40I2cAddr 9 code buf := by
      intro op hop
      simpa using hop
    refine ⟨ops ++ [.sleep 1, .read scd40I2cAddr 9 code buf], ?_,
      ⟨ret', List.mem_append_left _ hwrite⟩, ?_, ?_⟩
    · by_cases hcode : code ≠ 0
      · rw [if_pos hcode] at h ⊢
        obtain ⟨rfl, rfl, rfl⟩ : code = ret ∧ out = m ∧ b₂ = b' := by simpa using h
        rfl
      · rw [if_neg hcode] at h ⊢
        by_cases hcrc : ∃ w, ¬ CrcMatches buf w
        · rw [if_pos hcrc] at h ⊢
          obtain ⟨rfl, rfl, rfl⟩ : -eio = ret ∧ out = m ∧ b₂ = b' := by simpa using h
          rfl
        · rw [if_neg hcrc] at h ⊢
          obtain ⟨rfl, rfl, rfl⟩ : 0 = ret ∧ decode buf = m ∧ b₂ = b' := by simpa using h
          rfl
    · intro ready hread'
      rcases hmem _ hread' with hop | heq | heq
      · exact hnoread ready hop
      · exact Op.noConfusion heq
      · simp at heq
    · rintro ⟨op, hop, hbad⟩
      rcases hmem op hop with hold | rfl | rfl
      · exact absurd hbad (hintact op hold)
      · exact absurd hbad not_false
      · obtain ⟨hcode, hcrc⟩ := corrupt_response_iff.mp hbad
        rw [if_neg (not_not.mpr hcode), if_pos hcrc] at h
        rw [← (Prod.mk.inj h).1]
        decide
  · rw [scd40ReadMeasurement_refused hcmd hzero] at h
    rw [scd40ReadMeasurement_refused hlogged hzero]
    obtain ⟨rfl, rfl, rfl⟩ : code = ret ∧ out = m ∧ b₁ = b' := by simpa using h
    refine ⟨ops, rfl, ⟨ret', hwrite⟩, hnoread, ?_⟩
    rintro ⟨op, hop, hbad⟩
    exact absurd hbad (hintact op hop)

/-! ### The record of a poll -/

variable {out : Measurement} {b b₁ b₂ : β} {s : Sensor γ} {ret : Int} {ready : Vector UInt8 3}

theorem pollLog_refused (stack : MatterStack γ) (out : Measurement) (s : Sensor γ)
    (hcmd : scd40WriteCmd bus scd40CmdDataReady b = (ret, b₁))
    (hret : ret ≠ 0) : ∀ op ∈ pollLog bus stack out b s, IsCommand scd40CmdDataReady op := by
  obtain ⟨ops, hlogged, hops, -⟩ := scd40WriteCmd_logged hcmd []
  rw [pollLog, pollWorkHandler_refused hlogged hret]
  exact hops

theorem pollLog_answered (stack : MatterStack γ) (out : Measurement) (s : Sensor γ)
    (hcmd : scd40WriteCmd bus scd40CmdDataReady b = (0, b₁))
    (hread : bus.read scd40I2cAddr 3 (bus.sleepMsec 1 b₁) = (ret, ready, b₂)) :
    ∃ ops more, (∀ op ∈ ops, IsCommand scd40CmdDataReady op) ∧
      pollLog bus stack out b s = ops ++ .sleep 1 :: .read scd40I2cAddr 3 ret ready :: more ∧
      (ret ≠ 0 ∨ readyBits ready = 0 → more = []) ∧
      (ret = 0 → readyBits ready ≠ 0 →
        (∃ ret, Op.write scd40I2cAddr (cmdBytes scd40CmdReadMeasurement) ret ∈ more) ∧
        (∀ ready, Op.read scd40I2cAddr 3 0 ready ∉ more) ∧
        ((∃ op ∈ more, op.Corrupt) → (pollWorkHandler bus stack out b s).2 = s)) := by
  obtain ⟨ops, hlogged, hops, -⟩ := scd40WriteCmd_logged hcmd []
  have hreadlog := logged_read hread ([] ++ ops)
  rw [pollLog, pollWorkHandler_answered hlogged hreadlog, pollWorkHandler_answered hcmd hread]
  by_cases hquiet : ret ≠ 0 ∨ readyBits ready = 0
  · refine ⟨ops, [], hops, ?_, fun _ => rfl, ?_⟩
    · by_cases hret : ret ≠ 0
      · rw [if_pos hret, List.nil_append]
      · rw [if_neg hret, if_pos (hquiet.resolve_left hret), List.nil_append]
    · intro hret hmask
      exact absurd hquiet (not_or.mpr ⟨not_not.mpr hret, hmask⟩)
  · obtain ⟨hret, hmask⟩ := not_or.mp hquiet
    rcases hmeas : scd40ReadMeasurement bus out b₂ with ⟨code, m, b₃⟩
    obtain ⟨more, hmore, hwrite, hnoread, hbad⟩ := scd40ReadMeasurement_logged hmeas
      ([] ++ ops ++ [.sleep 1, .read scd40I2cAddr 3 ret ready])
    rw [if_neg hret, if_neg hmask, if_neg hret, if_neg hmask, hmore]
    refine ⟨ops, more, hops, ?_, fun h => absurd h hquiet, fun _ _ => ⟨hwrite, hnoread, ?_⟩⟩
    · by_cases hcode : code ≠ 0
      · simp [hcode]
      · simp [hcode]
    · intro hcorrupt
      simp [hbad hcorrupt]

theorem not_isCommand_readMeasurement :
    ¬ IsCommand scd40CmdDataReady
      (.write scd40I2cAddr (cmdBytes scd40CmdReadMeasurement) ret) := by
  rintro (⟨_, heq⟩ | ⟨_, heq⟩)
  · have hbytes := (Op.write.inj heq).2.1
    exact absurd hbytes (by decide)
  · exact Op.noConfusion heq

/-- What `ReadyTrusted` asks about, once the bus has answered. -/
theorem readyTrusted_iff (hcmd : scd40WriteCmd bus scd40CmdDataReady b = (0, b₁))
    (hread : bus.read scd40I2cAddr 3 (bus.sleepMsec 1 b₁) = (ret, ready, b₂)) :
    ReadyTrusted bus b ↔ (ret = 0 →
      ReadyMatches ready ∨ readyBits ready = 0) := by
  have hacc := scd40WriteCmd_eq_zero_iff.mp hcmd
  constructor
  · rintro h rfl
    exact h b₁ ready b₂ hacc hread
  · intro h b₁' ready' b₂' hacc' hread'
    rw [← hacc.unique hacc', hread, Prod.mk.injEq, Prod.mk.injEq] at hread'
    obtain ⟨hret, rfl, -⟩ := hread'
    exact h hret

/-- A poll that finds no data ready does nothing at all. -/
theorem ignoresCorrupted_of_quiet (hcmd : scd40WriteCmd bus scd40CmdDataReady b = (0, b₁))
    (hread : bus.read scd40I2cAddr 3 (bus.sleepMsec 1 b₁) = (ret, ready, b₂))
    (hquiet : ret ≠ 0 ∨ readyBits ready = 0) :
    IgnoresCorrupted bus stack out b s := by
  obtain ⟨ops, more, hops, hlog, hnil, -⟩ :=
    pollLog_answered stack out s hcmd hread
  have hsame : (pollWorkHandler bus stack out b s).2 = s := by
    rw [pollWorkHandler_answered hcmd hread]
    by_cases hret : ret ≠ 0
    · rw [if_pos hret]
    · rw [if_neg hret, if_pos (hquiet.resolve_left hret)]
  constructor
  · intro op _ _
    rw [hsame]
    exact ⟨rfl, rfl⟩
  · intro ready' _ _ ret' hwrite
    rw [hlog, hnil hquiet, List.mem_append, List.mem_cons, List.mem_singleton] at hwrite
    rcases hwrite with hop | heq | heq
    · exact not_isCommand_readMeasurement (hops _ hop)
    · exact Op.noConfusion heq
    · exact Op.noConfusion heq

/-- A poll that finds data ready asks for it, whether or not the word was intact. -/
theorem ignoresCorrupted_iff_of_ready (hcmd : scd40WriteCmd bus scd40CmdDataReady b = (0, b₁))
    (hread : bus.read scd40I2cAddr 3 (bus.sleepMsec 1 b₁) = (0, ready, b₂))
    (hready : readyBits ready ≠ 0) :
    IgnoresCorrupted bus stack out b s ↔ ReadyMatches ready := by
  obtain ⟨ops, more, hops, hlog, -, hmore⟩ :=
    pollLog_answered stack out s hcmd hread
  obtain ⟨⟨ret, hwrite⟩, hnoread, hharmless⟩ := hmore rfl hready
  have hmem : ∀ op, op ∈ pollLog bus stack out b s ↔
      op ∈ ops ∨ op = .sleep 1 ∨ op = .read scd40I2cAddr 3 0 ready ∨ op ∈ more := by
    intro op
    rw [hlog, List.mem_append, List.mem_cons, List.mem_cons]
  constructor
  · intro h
    by_contra hbad
    have hread' := (hmem _).mpr (Or.inr (Or.inr (Or.inl rfl)))
    have hwrite' := (hmem _).mpr (Or.inr (Or.inr (Or.inr hwrite)))
    exact h.notReady ready hread' hbad ret hwrite'
  · intro hintact
    constructor
    · intro op hop hbad
      rcases (hmem op).mp hop with hold | rfl | rfl | hnew
      · exact absurd hbad (not_corrupt_of_isCommand (hops op hold))
      · exact absurd hbad not_false
      · exact absurd hintact (corrupt_ready_iff.mp hbad).2
      · rw [hharmless ⟨op, hnew, hbad⟩]
        exact ⟨rfl, rfl⟩
    · intro ready' hop hbad
      rcases (hmem _).mp hop with hold | heq | heq | hnew
      · exact absurd (hops _ hold) not_isCommand_read
      · exact Op.noConfusion heq
      · obtain rfl : ready' = ready := by simpa using heq
        exact absurd hintact hbad
      · exact absurd hnew (hnoread ready')

/-- **Exactly when a poll ignores corrupted words**: when the word that says whether data is
ready is intact, or says that there is none. -/
theorem ignoresCorrupted_iff (bus : I2cBus β) (stack : MatterStack γ) (out : Measurement) (b : β)
    (s : Sensor γ) : IgnoresCorrupted bus stack out b s ↔ ReadyTrusted bus b := by
  rcases hcmd : scd40WriteCmd bus scd40CmdDataReady b with ⟨ret, b₁⟩
  by_cases hzero : ret = 0
  · subst hzero
    rcases hread : bus.read scd40I2cAddr 3 (bus.sleepMsec 1 b₁) with ⟨ret, ready, b₂⟩
    rw [readyTrusted_iff hcmd hread]
    by_cases hquiet : ret ≠ 0 ∨ readyBits ready = 0
    · refine iff_of_true (ignoresCorrupted_of_quiet hcmd hread hquiet) ?_
      intro hret
      exact Or.inr (hquiet.resolve_left (not_not.mpr hret))
    · obtain ⟨hret, hready⟩ := not_or.mp hquiet
      obtain rfl := not_not.mp hret
      rw [ignoresCorrupted_iff_of_ready hcmd hread hready, or_iff_left hready]
      exact ⟨fun h _ => h, fun h => h rfl⟩
  · have hops := pollLog_refused stack out s hcmd hzero
    refine iff_of_true ⟨?_, ?_⟩ ?_
    · intro op hop hbad
      exact absurd hbad (not_corrupt_of_isCommand (hops op hop))
    · intro ready hop
      exact absurd (hops _ hop) not_isCommand_read
    · intro b₁' ready b₂ hacc
      rw [scd40WriteCmd_eq_zero_iff.mpr hacc] at hcmd
      exact absurd (Prod.mk.inj hcmd).1.symm hzero

end

/-! ### A corrupted word that is acted on -/

/-- A bus on which every command is accepted and every read answered: that of three bytes
with `ready`, any other with the bytes that are its state. -/
def answering (ready : List UInt8) : I2cBus (List UInt8) where
  write _ _ b := (0, b)
  read _ len b := (0, Vector.ofFn fun i => (if len = 3 then ready else b).getD i 0, b)
  sleepMsec _ b := b

/-- A response with 500 ppm, 25 degrees and 37 percent. -/
def sampleFrame : List UInt8 := [0x01, 0xF4, 0x33, 0x66, 0x67, 0xA2, 0x5E, 0xB9, 0x3C]

/-- A store without attributes. -/
def noAttributes : MatterStack Unit where
  setLocalTemperature _ _ _ := ()
  setRelativeHumidity _ _ _ := ()
  updateAirQuality _ _ _ := ()
  setCo2MeasuredValue _ _ _ := ()

/-- The status word 0x8006 comes with the checksum 0x00 in place of 0x04; the reading is taken
all the same. -/
theorem corrupt_ready_acted_on :
    (pollWorkHandler (answering [0x80, 0x06, 0x00]) noAttributes ⟨0, 0, 0⟩ sampleFrame
      (sensorInit ())).2.last_reading = ⟨500, 2500, 3700, true⟩ ∧
    ¬ IgnoresCorrupted (answering [0x80, 0x06, 0x00]) noAttributes ⟨0, 0, 0⟩ sampleFrame
      (sensorInit ()) := by
  have hcmd : scd40WriteCmd (answering [0x80, 0x06, 0x00]) scd40CmdDataReady sampleFrame
      = (0, sampleFrame) := rfl
  have hread : (answering [0x80, 0x06, 0x00]).read scd40I2cAddr 3 sampleFrame
      = (0, #v[0x80, 0x06, 0x00], sampleFrame) := rfl
  refine ⟨by decide +kernel, ?_⟩
  rw [ignoresCorrupted_iff_of_ready hcmd hread (by decide)]
  decide +kernel

end Shirokumakun.Scd40
