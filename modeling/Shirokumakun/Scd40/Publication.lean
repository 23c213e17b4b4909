/-
What a poll of the sensor publishes, and when.

`Completes` lists what has to go right in a poll, without the program's branches: both
commands accepted within their sixty attempts, both reads answered, data ready, all three
checksums right.  A poll publishes exactly then, and it publishes the values the words of
the response stand for; any other poll leaves the reading and every attribute alone.  So
along any run the reading is the one of the last poll that completed.
-/
import Mathlib.Data.Nat.Bitwise
import Shirokumakun.Scd40.Model

namespace Shirokumakun.Scd40

/-! ### The values of a response -/

theorem be16_toNat (hi lo : UInt8) : (be16 hi lo).toNat = 256 * hi.toNat + lo.toNat := by
  have hhi : hi.toNat < 2 ^ 8 := hi.toNat_lt
  have hlo : lo.toNat < 2 ^ 8 := lo.toNat_lt
  have hshift : hi.toNat <<< 8 % 2 ^ 16 = hi.toNat <<< 8 := by
    rw [Nat.shiftLeft_eq]
    omega
  unfold be16
  rw [UInt16.toNat_or, UInt16.toNat_shiftLeft, UInt8.toNat_toUInt16, UInt8.toNat_toUInt16]
  show hi.toNat <<< 8 % 2 ^ 16 ||| lo.toNat = _
  rw [hshift, ← Nat.shiftLeft_add_eq_or_of_lt hlo, Nat.shiftLeft_eq]
  omega

/-- A raw word times either factor fits 32 bits. -/
theorem scaled_toNat {c : UInt32} (hc : c.toNat ≤ 17500) (raw : UInt16) :
    (c * raw.toUInt32).toNat = c.toNat * raw.toNat := by
  have hraw : raw.toNat < 2 ^ 16 := raw.toNat_lt
  have hbound : c.toNat * raw.toNat ≤ 17500 * 65535 := Nat.mul_le_mul hc (by omega)
  rw [UInt32.toNat_mul, UInt16.toNat_toUInt32, Nat.mod_eq_of_lt (by omega)]

theorem rhX100_toNat (raw : UInt16) : (rhX100 raw).toNat = 10000 * raw.toNat / 65535 := by
  have hraw : raw.toNat < 2 ^ 16 := raw.toNat_lt
  unfold rhX100
  rw [UInt32.toNat_toUInt16, UInt32.toNat_div, scaled_toNat (by decide)]
  show 10000 * raw.toNat / 65535 % 2 ^ 16 = _
  omega

theorem tempX100_toInt (raw : UInt16) :
    (tempX100 raw).toInt = (17500 * raw.toNat / 65535 : Nat) - 4500 := by
  have hraw : raw.toNat < 2 ^ 16 := raw.toNat_lt
  have hquot : (17500 * raw.toUInt32 / 65535 : UInt32).toNat = 17500 * raw.toNat / 65535 := by
    rw [UInt32.toNat_div, scaled_toNat (by decide)]
    rfl
  -- The quotient is small, so the cast to `int32_t` keeps its value.
  have hcast : (17500 * raw.toUInt32 / 65535 : UInt32).toInt32.toInt
      = (17500 * raw.toNat / 65535 : Nat) := by
    rw [← hquot]
    apply BitVec.toInt_eq_toNat_of_lt
    show 2 * (17500 * raw.toUInt32 / 65535 : UInt32).toNat < _
    rw [hquot]
    omega
  have hoffset : (-4500 : Int32).toInt = -4500 := by decide
  unfold tempX100
  rw [Int32.toInt_add, hcast, hoffset, Int.bmod_eq_of_le (by omega) (by omega)]
  omega

theorem temp_toInt (raw : UInt16) :
    (tempX100 raw).toInt16.toInt = (17500 * raw.toNat / 65535 : Nat) - 4500 := by
  have hraw : raw.toNat < 2 ^ 16 := raw.toNat_lt
  rw [Int32.toInt_toInt16, tempX100_toInt, Int.bmod_eq_of_le (by omega) (by omega)]

/-- `r` holds the values of the nine bytes `frame`, computed without overflow. -/
structure Exact (frame : Vector UInt8 9) (r : Scd40Reading) : Prop where
  co2 : r.co2_ppm.toNat = 256 * frame[0].toNat + frame[1].toNat
  temp : r.temp_001c.toInt
    = (17500 * (256 * frame[3].toNat + frame[4].toNat) / 65535 : Nat) - 4500
  temp_range : -4500 ≤ r.temp_001c.toInt ∧ r.temp_001c.toInt ≤ 13000
  rh : r.rh_001pct.toNat = 10000 * (256 * frame[6].toNat + frame[7].toNat) / 65535
  rh_range : r.rh_001pct.toNat ≤ 10000
  valid : r.valid = true
  temp_fits : (17500 * (rawWord frame 1).toUInt32).toNat = 17500 * (rawWord frame 1).toNat
  rh_fits : (10000 * (rawWord frame 2).toUInt32).toNat = 10000 * (rawWord frame 2).toNat

theorem decode_exact (frame : Vector UInt8 9) : Exact frame (decode frame).reading := by
  have htemp : (decode frame).temp_001c.toInt
      = (17500 * (256 * frame[3].toNat + frame[4].toNat) / 65535 : Nat) - 4500 := by
    rw [← be16_toNat]
    exact temp_toInt _
  have hrh : (decode frame).rh_001pct.toNat
      = 10000 * (256 * frame[6].toNat + frame[7].toNat) / 65535 := by
    rw [← be16_toNat]
    exact rhX100_toNat _
  have h3 : frame[3].toNat < 2 ^ 8 := frame[3].toNat_lt
  have h4 : frame[4].toNat < 2 ^ 8 := frame[4].toNat_lt
  have h6 : frame[6].toNat < 2 ^ 8 := frame[6].toNat_lt
  have h7 : frame[7].toNat < 2 ^ 8 := frame[7].toNat_lt
  refine ⟨be16_toNat _ _, htemp, ⟨?_, ?_⟩, hrh, ?_, rfl, scaled_toNat (by decide) _,
    scaled_toNat (by decide) _⟩
  · show _ ≤ (decode frame).temp_001c.toInt
    omega
  · show (decode frame).temp_001c.toInt ≤ _
    omega
  · show (decode frame).rh_001pct.toNat ≤ _
    omega

/-! ### When a poll publishes -/

section

variable {β γ : Type*} {bus : I2cBus β}

/-- A command as it goes over the bus, the high byte first. -/
def cmdBytes (cmd : UInt16) : List UInt8 := [(cmd >>> 8).toUInt8, (cmd &&& 0xFF).toUInt8]

example : cmdBytes scd40CmdReadMeasurement = [0xEC, 0x05] := by decide

/-- **The sensor accepts a command**: its two bytes are written up to sixty times, a tenth of
a second passing after each refusal, and the first write to succeed leaves the bus in `b'`.
The states before the writes are `bs`. -/
def CommandAccepted (bus : I2cBus β) (cmd : UInt16) (b b' : β) : Prop :=
  ∃ k < 60, ∃ bs : Nat → β, bs 0 = b ∧
    (∀ j < k, (bus.write scd40I2cAddr (cmdBytes cmd) (bs j)).1 ≠ 0 ∧
      bs (j + 1) = bus.sleepMsec 100 (bus.write scd40I2cAddr (cmdBytes cmd) (bs j)).2) ∧
    bus.write scd40I2cAddr (cmdBytes cmd) (bs k) = (0, b')

/-- The measurement command is accepted, and the response to it is `frame`, intact. -/
def Measures (bus : I2cBus β) (b : β) (frame : Vector UInt8 9) : Prop :=
  ∃ b₁ b₂, CommandAccepted bus scd40CmdReadMeasurement b b₁ ∧
    bus.read scd40I2cAddr 9 (bus.sleepMsec 1 b₁) = (0, frame, b₂) ∧
    ∀ w, CrcMatches frame w

/-- **Everything a poll needs**: with the bus in `b`, the sensor accepts the status command
and has data, and then it measures `frame`. -/
def Completes (bus : I2cBus β) (b : β) (frame : Vector UInt8 9) : Prop :=
  ∃ b₁ ready b₂, CommandAccepted bus scd40CmdDataReady b b₁ ∧
    bus.read scd40I2cAddr 3 (bus.sleepMsec 1 b₁) = (0, ready, b₂) ∧
    readyBits ready ≠ 0 ∧ Measures bus b₂ frame

theorem writeAttempt_eq {cmd : UInt16} {b b₁ : β} {ret : Int}
    (hwrite : bus.write scd40I2cAddr (cmdBytes cmd) b = (ret, b₁)) :
    writeAttempt bus cmd b = if ret = 0 then (ret, b₁) else (ret, bus.sleepMsec 100 b₁) := by
  have hdef : writeAttempt bus cmd b = if (bus.write scd40I2cAddr (cmdBytes cmd) b).1 = 0
      then bus.write scd40I2cAddr (cmdBytes cmd) b
      else ((bus.write scd40I2cAddr (cmdBytes cmd) b).1,
        bus.sleepMsec 100 (bus.write scd40I2cAddr (cmdBytes cmd) b).2) := rfl
  rw [hdef, hwrite]

/-- One turn of the loop: it ends the loop as the write does, or it waits. -/
theorem writeAttempt_cases (bus : I2cBus β) (cmd : UInt16) (b : β) :
    (∀ b', writeAttempt bus cmd b = (0, b') ↔
        bus.write scd40I2cAddr (cmdBytes cmd) b = (0, b')) ∧
      ((writeAttempt bus cmd b).1 ≠ 0 ↔ (bus.write scd40I2cAddr (cmdBytes cmd) b).1 ≠ 0) ∧
      ((writeAttempt bus cmd b).1 ≠ 0 → (writeAttempt bus cmd b).2
        = bus.sleepMsec 100 (bus.write scd40I2cAddr (cmdBytes cmd) b).2) := by
  rcases hwrite : bus.write scd40I2cAddr (cmdBytes cmd) b with ⟨ret, b₁⟩
  rw [writeAttempt_eq hwrite]
  by_cases hzero : ret = 0
  · simp [hzero]
  · simp [hzero]

theorem commandAccepted_iff {cmd : UInt16} {b b' : β} :
    CommandAccepted bus cmd b b' ↔ Retry.Accepted (writeAttempt bus cmd) 60 b b' := by
  rw [Retry.accepted_iff_states, CommandAccepted]
  refine exists_congr fun k => and_congr_right fun _ => exists_congr fun bs =>
    and_congr_right fun _ => and_congr (forall₂_congr fun j _ => ?_) ?_
  · obtain ⟨-, hrefused, hwait⟩ := writeAttempt_cases bus cmd (bs j)
    rw [← hrefused]
    refine and_congr_right fun hne => ?_
    rw [hwait hne]
  · exact ((writeAttempt_cases bus cmd (bs k)).1 b').symm

theorem scd40WriteCmd_eq_zero_iff {cmd : UInt16} {b b' : β} :
    scd40WriteCmd bus cmd b = (0, b') ↔ CommandAccepted bus cmd b b' := by
  rw [commandAccepted_iff]
  exact Retry.upTo_succ_eq_zero_iff

/-- A command either is accepted and returns zero, or is not and returns something else. -/
theorem scd40WriteCmd_cases (bus : I2cBus β) (cmd : UInt16) (b : β) :
    (∃ b', CommandAccepted bus cmd b b' ∧ scd40WriteCmd bus cmd b = (0, b')) ∨
      (scd40WriteCmd bus cmd b).1 ≠ 0 ∧ ∀ b', ¬ CommandAccepted bus cmd b b' := by
  by_cases hzero : (scd40WriteCmd bus cmd b).1 = 0
  · have hret : scd40WriteCmd bus cmd b = (0, (scd40WriteCmd bus cmd b).2) :=
      Prod.ext hzero rfl
    exact Or.inl ⟨_, scd40WriteCmd_eq_zero_iff.mp hret, hret⟩
  · refine Or.inr ⟨hzero, ?_⟩
    intro b' hacc
    apply hzero
    rw [scd40WriteCmd_eq_zero_iff.mpr hacc]

/-- The state an accepted command leaves is determined. -/
theorem CommandAccepted.unique {cmd : UInt16} {b b' b'' : β} (h : CommandAccepted bus cmd b b')
    (h' : CommandAccepted bus cmd b b'') : b' = b'' := by
  have hret := scd40WriteCmd_eq_zero_iff.mpr h
  rw [scd40WriteCmd_eq_zero_iff.mpr h'] at hret
  exact (Prod.mk.inj hret).2.symm

/-- **The nested read.**  It succeeds exactly when the sensor measures, with the values of
the response in the output parameters; failing, it has not touched them. -/
theorem scd40ReadMeasurement_cases (bus : I2cBus β) (out : Measurement) (b : β) :
    (∃ frame b', Measures bus b frame ∧
        scd40ReadMeasurement bus out b = (0, decode frame, b')) ∨
      (∀ frame, ¬ Measures bus b frame) ∧ (scd40ReadMeasurement bus out b).1 ≠ 0 ∧
        (scd40ReadMeasurement bus out b).2.1 = out := by
  unfold scd40ReadMeasurement
  rcases scd40WriteCmd_cases bus scd40CmdReadMeasurement b with ⟨b₁, hacc, hret⟩ | ⟨hret, hno⟩
  · rw [hret]
    rcases hread : bus.read scd40I2cAddr 9 (bus.sleepMsec 1 b₁) with ⟨ret, frame, b₂⟩
    -- Whatever measures from here read these nine bytes with this code.
    have honly : ∀ frame', Measures bus b frame' →
        ret = 0 ∧ frame' = frame ∧ ∀ w, CrcMatches frame w := by
      rintro frame' ⟨b₁', b₂', hacc', hread', hcrc⟩
      rw [← hacc.unique hacc', hread, Prod.mk.injEq, Prod.mk.injEq] at hread'
      obtain ⟨hret', hframe, -⟩ := hread'
      exact ⟨hret', hframe.symm, hframe ▸ hcrc⟩
    by_cases hzero : ret = 0
    · subst hzero
      by_cases hcrc : ∀ w, CrcMatches frame w
      · refine Or.inl ⟨frame, b₂, ⟨b₁, b₂, hacc, hread, hcrc⟩, ?_⟩
        simp [hread, hcrc]
      · have hbad : ∃ w, ¬ CrcMatches frame w := not_forall.mp hcrc
        refine Or.inr ⟨fun frame' h => hcrc (honly frame' h).2.2, ?_, ?_⟩
        · simp [hread, hbad, eio]
        · simp [hread, hbad]
    · refine Or.inr ⟨fun frame' h => hzero (honly frame' h).1, ?_, ?_⟩
      · simp [hread, hzero]
      · simp [hread, hzero]
  · refine Or.inr ⟨?_, ?_, ?_⟩
    · rintro frame ⟨b₁, _, hacc, -⟩
      exact hno b₁ hacc
    · simp [hret]
    · simp [hret]

/-- **One poll.**  It completes and calls `update_matter_attributes` with the values of the
response, or it does not complete and leaves the driver and the attributes as they were. -/
theorem pollWorkHandler_cases (bus : I2cBus β) (stack : MatterStack γ) (out : Measurement) (b : β)
    (s : Sensor γ) :
    (∃ frame, Completes bus b frame ∧
        (pollWorkHandler bus stack out b s).2 = updateMatterAttributes stack (decode frame) s) ∨
      (∀ frame, ¬ Completes bus b frame) ∧ (pollWorkHandler bus stack out b s).2 = s := by
  unfold pollWorkHandler
  rcases scd40WriteCmd_cases bus scd40CmdDataReady b with ⟨b₁, hacc, hret⟩ | ⟨hret, hno⟩
  · rw [hret]
    rcases hread : bus.read scd40I2cAddr 3 (bus.sleepMsec 1 b₁) with ⟨ret, ready, b₂⟩
    have honly : ∀ frame, Completes bus b frame →
        ret = 0 ∧ readyBits ready ≠ 0 ∧ Measures bus b₂ frame := by
      rintro frame ⟨b₁', ready', b₂', hacc', hread', hready, hmeas⟩
      rw [← hacc.unique hacc', hread, Prod.mk.injEq, Prod.mk.injEq] at hread'
      obtain ⟨hret', rfl, rfl⟩ := hread'
      exact ⟨hret', hready, hmeas⟩
    by_cases hzero : ret = 0
    · subst hzero
      by_cases hready : be16 ready[0] ready[1] &&& 0x07FF = 0
      · refine Or.inr ⟨fun frame h => (honly frame h).2.1 hready, ?_⟩
        simp [hread, hready]
      · rcases scd40ReadMeasurement_cases bus out b₂ with ⟨frame, b₃, hmeas, hm⟩ | ⟨hno, hm, -⟩
        · refine Or.inl ⟨frame, ⟨b₁, ready, b₂, hacc, hread, hready, hmeas⟩, ?_⟩
          simp [hread, hready, hm]
        · refine Or.inr ⟨fun frame h => hno frame (honly frame h).2.2, ?_⟩
          simp [hread, hready, hm]
    · refine Or.inr ⟨fun frame h => hzero (honly frame h).1, ?_⟩
      simp [hread, hzero]
  · refine Or.inr ⟨?_, ?_⟩
    · rintro frame ⟨b₁, _, _, hacc, -⟩
      exact hno b₁ hacc
    · simp [hret]

/-- What a completing poll reads is determined. -/
theorem Completes.unique {b : β} {frame frame' : Vector UInt8 9} (h : Completes bus b frame)
    (h' : Completes bus b frame') : frame = frame' := by
  obtain ⟨b₁, ready, b₂, hacc, hread, -, c₁, c₂, hmacc, hmread, -⟩ := h
  obtain ⟨b₁', ready', b₂', hacc', hread', -, c₁', c₂', hmacc', hmread', -⟩ := h'
  rw [hacc.unique hacc', hread', Prod.mk.injEq, Prod.mk.injEq] at hread
  obtain ⟨-, -, rfl⟩ := hread
  rw [hmacc.unique hmacc', hmread', Prod.mk.injEq, Prod.mk.injEq] at hmread
  exact hmread.2.1.symm

/-! ### Sequences of polls -/

variable {stack : MatterStack γ}

theorem step_of_completes {s : System β γ} {frame : Vector UInt8 9}
    (h : Completes bus s.bus frame) (out : Measurement) :
    (step bus stack s (.poll out)).sensor
      = updateMatterAttributes stack (decode frame) s.sensor := by
  rcases pollWorkHandler_cases bus stack out s.bus s.sensor with ⟨frame', h', hs⟩ | ⟨hno, -⟩
  · rw [h.unique h']
    exact hs
  · exact absurd h (hno frame)

theorem step_of_not_completes {s : System β γ} (h : ∀ frame, ¬ Completes bus s.bus frame)
    (out : Measurement) : (step bus stack s (.poll out)).sensor = s.sensor := by
  rcases pollWorkHandler_cases bus stack out s.bus s.sensor with ⟨frame, h', -⟩ | ⟨-, hs⟩
  · exact absurd h' (h frame)
  · exact hs

/-- The step is a poll that completes. -/
def Succeeds (bus : I2cBus β) (s : System β γ) : Act β → Prop
  | .poll _ => ∃ frame, Completes bus s.bus frame
  | .elapse _ => False

/-- Only a poll that completes touches the driver's state. -/
theorem step_of_not_succeeds {s : System β γ} {a : Act β} (h : ¬ Succeeds bus s a) :
    (step bus stack s a).sensor = s.sensor := by
  cases a with
  | poll out => exact step_of_not_completes (not_exists.mp h) out
  | elapse b => rfl

theorem step_keeps_valid {s : System β γ} (h : s.sensor.last_reading.valid = true) (a : Act β) :
    (step bus stack s a).sensor.last_reading.valid = true := by
  by_cases hsucc : Succeeds bus s a
  · cases a with
    | poll out =>
        obtain ⟨frame, hframe⟩ := hsucc
        rw [step_of_completes hframe out]
        rfl
    | elapse b => exact absurd hsucc not_false
  · rw [step_of_not_succeeds hsucc]
    exact h

variable {b₀ : β} {attributes : γ}

/-- `r` is what the last completing poll of a run from `s` read, or the reading in `s` if
none of its polls completed. -/
def OfLastPoll (m : Transition.Machine (System β γ) (Act β)) (bus : I2cBus β) (s : System β γ)
    (acts : List (Act β)) (r : Scd40Reading) : Prop :=
  (m.Obeys (fun t a => ¬ Succeeds bus t a) s acts ∧ r = s.sensor.last_reading) ∨
    ∃ before out rest t t' frame, acts = before ++ .poll out :: rest ∧
      m.run s before = some t ∧ Completes bus t.bus frame ∧
      m.step t (.poll out) = some t' ∧ m.Obeys (fun u a => ¬ Succeeds bus u a) t' rest ∧
      r = (decode frame).reading

/-- **Where a run's reading comes from.** -/
theorem run_reading : ∀ (acts : List (Act β)) {s t : System β γ},
    (machine bus stack b₀ attributes).run s acts = some t →
    OfLastPoll (machine bus stack b₀ attributes) bus s acts t.sensor.last_reading := by
  intro acts
  induction acts with
  | nil =>
      intro s t hrun
      rw [Transition.Machine.run_nil, Option.some.injEq] at hrun
      exact Or.inl ⟨trivial, by rw [hrun]⟩
  | cons a rest ih =>
      intro s t hrun
      have hstep : (machine bus stack b₀ attributes).step s a = some (step bus stack s a) := rfl
      rw [Transition.Machine.run_cons_of_step _ hstep] at hrun
      rcases ih hrun with ⟨hnone, hr⟩ | ⟨before, out, rest', u, u', frame, hacts, hbefore, hu⟩
      · by_cases hsucc : Succeeds bus s a
        · cases a with
          | poll out =>
              obtain ⟨frame, hframe⟩ := hsucc
              refine Or.inr ⟨[], out, rest, s, _, frame, rfl, rfl, hframe, rfl, hnone, ?_⟩
              rw [hr, step_of_completes hframe out]
              rfl
          | elapse b => exact absurd hsucc not_false
        · refine Or.inl ⟨?_, ?_⟩
          · intro s' hs'
            rw [hstep, Option.some.injEq] at hs'
            exact ⟨hsucc, hs' ▸ hnone⟩
          · rw [hr, step_of_not_succeeds hsucc]
      · refine Or.inr ⟨a :: before, out, rest', u, u', frame, ?_, ?_, hu⟩
        · rw [hacts, List.cons_append]
        · rw [Transition.Machine.run_cons_of_step _ hstep]
          exact hbefore

/-- **Publication is all or nothing, and exact.**  Whatever the bus does: a poll calls
`update_matter_attributes` exactly when it completes, once, and then the reading holds the
values of the response; a poll that does not complete changes neither the reading nor any
attribute; the reading reached by a run is the one of its last completing poll; and a
reading once valid stays valid. -/
theorem publication (bus : I2cBus β) (stack : MatterStack γ) (b₀ : β) (attributes : γ) :
    (∀ (s : System β γ) (out : Measurement),
      (∃ m, (step bus stack s (.poll out)).sensor.published = s.sensor.published ++ [m]) ↔
        ∃ frame, Completes bus s.bus frame) ∧
    (∀ (s : System β γ) (out : Measurement) (frame : Vector UInt8 9), Completes bus s.bus frame →
      (step bus stack s (.poll out)).sensor
          = updateMatterAttributes stack (decode frame) s.sensor ∧
        Exact frame (step bus stack s (.poll out)).sensor.last_reading) ∧
    (∀ (s : System β γ) (out : Measurement), (∀ frame, ¬ Completes bus s.bus frame) →
      (step bus stack s (.poll out)).sensor = s.sensor) ∧
    (∀ (acts : List (Act β)) (s : System β γ),
      (machine bus stack b₀ attributes).run (machine bus stack b₀ attributes).init acts = some s →
      OfLastPoll (machine bus stack b₀ attributes) bus (machine bus stack b₀ attributes).init acts
        s.sensor.last_reading) ∧
    (∀ (s : System β γ) (a : Act β), s.sensor.last_reading.valid = true →
      (step bus stack s a).sensor.last_reading.valid = true) := by
  refine ⟨?_, ?_, ?_, ?_, ?_⟩
  · intro s out
    constructor
    · rintro ⟨m, hm⟩
      by_contra hno
      rw [step_of_not_completes (not_exists.mp hno) out] at hm
      simp at hm
    · rintro ⟨frame, hframe⟩
      exact ⟨decode frame, by rw [step_of_completes hframe out]; rfl⟩
  · intro s out frame hframe
    rw [step_of_completes hframe out]
    exact ⟨rfl, decode_exact frame⟩
  · intro s out hno
    exact step_of_not_completes hno out
  · intro acts s hrun
    exact run_reading acts hrun
  · intro s a hvalid
    exact step_keeps_valid hvalid a

end

end Shirokumakun.Scd40
