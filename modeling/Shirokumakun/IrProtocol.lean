/-
The Hitachi frame encoder, `ir_protocol.cpp`.

An `AcState` becomes 25 raw bytes, the raw bytes become a 53-byte command (three
preamble bytes, then each raw byte followed by its complement), and the command
becomes mark/space pulses, least significant bit first, behind a wake-up burst and
a header.

`AcMode` and `FanSpeed` are enumerations over `uint8_t`, so a variable of either
type may hold any byte; they are bytes here, with the enumerators as constants.

The loops write into the caller's buffer through a running index.
`acEncodePulses_eq` reads them off as one list, `framePulses`, which is what every
later file reasons about.
-/
import Shirokumakun.Lib.Coding
import Mathlib.Data.List.FinRange

namespace Shirokumakun

open Coding

/-- A single mark/space pair in microseconds. -/
structure IrPulse where
  markUs : UInt16
  spaceUs : UInt16
deriving DecidableEq, Repr

/-- `IR_MAX_PULSES`: what a pulse buffer holds. -/
def irMaxPulses : Nat := 430

abbrev AcMode := UInt8

def acModeOff : AcMode := 0x0
def acModeVentilation : AcMode := 0x1
def acModeCooling : AcMode := 0x3
def acModeDehumidify : AcMode := 0x5
def acModeHeating : AcMode := 0x6

abbrev FanSpeed := UInt8

def fanSpeed1 : FanSpeed := 0x1
def fanSpeed2 : FanSpeed := 0x2
def fanSpeed3 : FanSpeed := 0x3
def fanSpeed4 : FanSpeed := 0x4
def fanSpeedAuto : FanSpeed := 0x5
def fanSpeed5 : FanSpeed := 0x6

/-- The complete state one command transmits. -/
structure AcState where
  power : Bool
  mode : AcMode
  tempC : UInt8
  fan : FanSpeed
deriving DecidableEq, Repr

/-! ### Timing constants, in microseconds -/

def wakeupMark : UInt16 := 30000
def wakeupSpace : UInt16 := 49500
def headerMark : UInt16 := 3380
def headerSpace : UInt16 := 1700
def bitMark : UInt16 := 384
def oneSpace : UInt16 := 1234
def zeroSpace : UInt16 := 399
def trailMark : UInt16 := bitMark

/-! ### Raw bytes and command bytes -/

/-- Byte 12: the power/mode flags. -/
def powerFlags (state : AcState) : UInt8 :=
  if !state.power then 0xE1
  else if state.mode = acModeHeating ∨ state.mode = acModeCooling then 0xF1
  else 0xF0

/-- The mode nibble: the heating code stands in when the unit is off. -/
def modeNibble (state : AcState) : UInt8 :=
  if state.power then state.mode else acModeHeating

/-- `encode_raw`. -/
def encodeRaw (state : AcState) : Vector UInt8 25 :=
  let raw : Vector UInt8 25 := Vector.replicate 25 0
  let raw := (((raw.set 0 0x40).set 1 0xFF).set 2 0xCC).set 3 0x92
  let raw := raw.set 4 0x13
  let raw := raw.set 5 (state.tempC <<< 2)
  let raw := raw.set 11 ((state.fan <<< 4) ||| modeNibble state)
  let raw := raw.set 12 (powerFlags state)
  let raw := (((raw.set 15 0x80).set 16 0x03).set 17 0x01).set 18 0x88
  (((raw.set 21 0xFF).set 22 0xFF).set 23 0xFF).set 24 0xFF

/-- `encode_command`. -/
def encodeCommand (state : AcState) : Vector UInt8 53 :=
  let raw := encodeRaw state
  let cmd : Vector UInt8 53 := Vector.replicate 53 0
  let cmd := ((cmd.set 0 0x01).set 1 0x10).set 2 0x00
  (List.finRange 25).foldl (fun cmd i =>
    (cmd.set (2 * i.val + 3) raw[i]).set (2 * i.val + 4) (~~~raw[i])) cmd

/-! ### Pulses -/

/-- The caller's buffer and the running index `idx`. -/
structure PulseWriter where
  pulses : Vector IrPulse irMaxPulses
  idx : Nat

/-- `pulses[idx] = {mark, space}; idx++`.  Writing past the end of the buffer, which
`acEncodePulses_eq` excludes, would be lost here. -/
def PulseWriter.emit (w : PulseWriter) (mark space : UInt16) : PulseWriter :=
  ⟨w.pulses.setIfInBounds w.idx ⟨mark, space⟩, w.idx + 1⟩

/-- `(command[b] >> bit) & 1`. -/
def isOne (byte : UInt8) (bit : Nat) : Bool := ((byte >>> UInt8.ofNat bit) &&& 1) == 1

def spaceOf (isOne : Bool) : UInt16 := if isOne then oneSpace else zeroSpace

/-- `ac_encode_pulses`: the filled buffer and the number of pulses written. -/
def acEncodePulses (state : AcState) (pulses : Vector IrPulse irMaxPulses) :
    Vector IrPulse irMaxPulses × Nat :=
  let command := encodeCommand state
  let w : PulseWriter := ⟨pulses, 0⟩
  let w := w.emit wakeupMark wakeupSpace
  let w := w.emit headerMark headerSpace
  let w := (List.finRange 53).foldl (fun w b =>
    (List.range 8).foldl (fun w bit => w.emit bitMark (spaceOf (isOne command[b] bit))) w) w
  let w := w.emit trailMark 0
  (w.pulses, w.idx)

/-! ### The bytes, spelled out -/

/-- The 25 raw bytes as a list. -/
def rawBytes (state : AcState) : List UInt8 :=
  [0x40, 0xFF, 0xCC, 0x92, 0x13, state.tempC <<< 2, 0, 0, 0, 0, 0,
    (state.fan <<< 4) ||| modeNibble state, powerFlags state, 0, 0,
    0x80, 0x03, 0x01, 0x88, 0, 0, 0xFF, 0xFF, 0xFF, 0xFF]

def preamble : List UInt8 := [0x01, 0x10, 0x00]

/-- The 53 command bytes as a list. -/
def commandBytes (state : AcState) : List UInt8 :=
  preamble ++ withChecks (~~~ ·) (rawBytes state)

theorem encodeRaw_toList (state : AcState) : (encodeRaw state).toList = rawBytes state := by
  simp only [encodeRaw, Vector.toList_set, Vector.toList_replicate]
  rfl

@[simp] theorem length_rawBytes (state : AcState) : (rawBytes state).length = 25 := rfl

/-- The complement loop, from any position: what it writes replaces the bytes behind
`front` and touches nothing else. -/
theorem foldl_complement (raw : List UInt8) :
    ∀ (k : Nat) (front rest : List UInt8), front.length = 2 * k + 3 →
      rest.length = 2 * raw.length →
      (raw.zipIdx k).foldl
          (fun cmd e => (cmd.set (2 * e.2 + 3) e.1).set (2 * e.2 + 4) (~~~e.1)) (front ++ rest)
        = front ++ withChecks (~~~ ·) raw := by
  induction raw with
  | nil =>
      intro k front rest _ hrest
      simp [List.eq_nil_of_length_eq_zero hrest, withChecks]
  | cons x raw ih =>
      intro k front rest hfront hrest
      match rest, hrest with
      | a :: b :: rest, hrest =>
          have hset : ((front ++ a :: b :: rest).set (2 * k + 3) x).set (2 * k + 4) (~~~x)
              = (front ++ [x, ~~~x]) ++ rest := by
            rw [List.set_append_right _ _ (by omega), List.set_append_right _ _ (by omega), hfront]
            simp
          rw [List.zipIdx_cons, List.foldl_cons, hset,
            ih (k + 1) (front ++ [x, ~~~x]) rest (by simp; omega)
            (by simp only [List.length_cons] at hrest; omega)]
          simp [withChecks]

theorem encodeCommand_toList (state : AcState) :
    (encodeCommand state).toList = commandBytes state := by
  have hraw : ∀ i : Fin 25, (encodeRaw state)[i] = (rawBytes state)[i] := by
    intro i
    simp [← encodeRaw_toList]
  have hzip : (List.finRange 25).map (fun i => ((rawBytes state)[i], i.val))
      = (rawBytes state).zipIdx 0 := rfl
  have hstart : ((((Vector.replicate 53 (0 : UInt8)).set 0 0x01).set 1 0x10).set 2 0x00).toList
      = preamble ++ List.replicate 50 0 := by
    simp only [Vector.toList_set, Vector.toList_replicate]
    rfl
  have hloop := foldl_complement (rawBytes state) 0 preamble (List.replicate 50 0) rfl rfl
  rw [← hzip, List.foldl_map, ← hstart] at hloop
  refine Eq.trans ?_ hloop
  refine (List.foldl_hom Vector.toList ?_).symm
  intro cmd i
  rw [Vector.toList_set, Vector.toList_set, hraw]

@[simp] theorem length_commandBytes (state : AcState) : (commandBytes state).length = 53 := rfl

/-! ### The pulses, spelled out -/

/-- The pulse of one data bit. -/
def bitPulse (isOne : Bool) : IrPulse := ⟨bitMark, spaceOf isOne⟩

/-- The bits of the command, in the order they are sent. -/
def commandBits (state : AcState) : List Bool :=
  ((commandBytes state).map UInt8.toNat).flatMap (lsbFirst 8)

/-- The pulses of one frame. -/
def framePulses (state : AcState) : List IrPulse :=
  ⟨wakeupMark, wakeupSpace⟩ :: ⟨headerMark, headerSpace⟩ ::
    ((commandBits state).map bitPulse ++ [⟨trailMark, 0⟩])

theorem length_commandBits (state : AcState) : (commandBits state).length = 424 := by
  rw [commandBits, length_flatMap_lsbFirst, List.length_map, length_commandBytes]

@[simp] theorem length_framePulses (state : AcState) : (framePulses state).length = 427 := by
  simp [framePulses, length_commandBits]

theorem isOne_eq_testBit (byte : UInt8) {bit : Nat} (h : bit < 8) :
    isOne byte bit = byte.toNat.testBit bit := by
  have hshift : (byte >>> UInt8.ofNat bit).toNat = byte.toNat >>> bit := by
    rw [UInt8.toNat_shiftRight, UInt8.toNat_ofNat_of_lt' (Nat.lt_trans h (by decide)),
      Nat.mod_eq_of_lt h]
  have hbit : ((byte >>> UInt8.ofNat bit) &&& 1).toNat = byte.toNat >>> bit % 2 := by
    rw [UInt8.toNat_and, hshift]
    exact Nat.and_one_is_mod _
  rw [isOne, Nat.testBit_eq_decide_div_mod_eq, ← Nat.shiftRight_eq_div_pow, Bool.eq_iff_iff,
    beq_iff_eq, decide_eq_true_iff, ← UInt8.toNat_inj, hbit]
  rfl

/-- `w` has written exactly `ps` into `buf`, and stands behind it. -/
structure Wrote (buf : Vector IrPulse irMaxPulses) (w : PulseWriter) (ps : List IrPulse) :
    Prop where
  idx : w.idx = ps.length
  pulses : w.pulses.toList = ps ++ buf.toList.drop ps.length

theorem Wrote.start (buf : Vector IrPulse irMaxPulses) : Wrote buf ⟨buf, 0⟩ [] :=
  ⟨rfl, rfl⟩

theorem Wrote.emit {buf : Vector IrPulse irMaxPulses} {w : PulseWriter} {ps : List IrPulse}
    (h : Wrote buf w ps) (hroom : ps.length < irMaxPulses) (mark space : UInt16) :
    Wrote buf (w.emit mark space) (ps ++ [⟨mark, space⟩]) := by
  have hbuf : ps.length < buf.toList.length := by rwa [Vector.length_toList]
  refine ⟨by simp [PulseWriter.emit, h.idx], ?_⟩
  show (w.pulses.setIfInBounds w.idx ⟨mark, space⟩).toList = _
  rw [Vector.toList_setIfInBounds, h.pulses, h.idx, List.drop_eq_getElem_cons hbuf,
    List.set_append_right _ _ (Nat.le_refl _), Nat.sub_self, List.set_cons_zero]
  simp

/-- A loop that emits one pulse for each element of a list. -/
theorem Wrote.foldl {α : Type} {buf : Vector IrPulse irMaxPulses} (mark space : α → UInt16)
    (l : List α) : ∀ {w : PulseWriter} {ps : List IrPulse}, Wrote buf w ps →
      ps.length + l.length ≤ irMaxPulses →
      Wrote buf (l.foldl (fun w a => w.emit (mark a) (space a)) w)
        (ps ++ l.map fun a => ⟨mark a, space a⟩) := by
  induction l with
  | nil => intro w ps h _; simpa using h
  | cons a rest ih =>
      intro w ps h hroom
      rw [List.length_cons] at hroom
      have hnext := ih (h.emit (by omega) (mark a) (space a)) (by simp; omega)
      simpa using hnext

/-- The inner loop sends one byte, least significant bit first. -/
theorem Wrote.byte {buf : Vector IrPulse irMaxPulses} {w : PulseWriter} {ps : List IrPulse}
    (h : Wrote buf w ps) (hroom : ps.length + 8 ≤ irMaxPulses) (byte : UInt8) :
    Wrote buf ((List.range 8).foldl (fun w bit => w.emit bitMark (spaceOf (isOne byte bit))) w)
      (ps ++ (lsbFirst 8 byte.toNat).map bitPulse) := by
  have hbits : (List.range 8).map (fun bit => (⟨bitMark, spaceOf (isOne byte bit)⟩ : IrPulse))
      = (lsbFirst 8 byte.toNat).map bitPulse := by
    rw [lsbFirst, List.map_map]
    refine List.map_congr_left fun bit hbit => ?_
    rw [isOne_eq_testBit byte (List.mem_range.mp hbit)]
    rfl
  rw [← hbits]
  exact h.foldl _ _ _ (by simpa using hroom)

/-- The outer loop sends the bytes of a list in order. -/
theorem Wrote.bytes {buf : Vector IrPulse irMaxPulses} (l : List UInt8) :
    ∀ {w : PulseWriter} {ps : List IrPulse}, Wrote buf w ps →
      ps.length + 8 * l.length ≤ irMaxPulses →
      Wrote buf (l.foldl (fun w byte => (List.range 8).foldl
          (fun w bit => w.emit bitMark (spaceOf (isOne byte bit))) w) w)
        (ps ++ ((l.map UInt8.toNat).flatMap (lsbFirst 8)).map bitPulse) := by
  induction l with
  | nil => intro w ps h _; simpa using h
  | cons byte rest ih =>
      intro w ps h hroom
      rw [List.length_cons] at hroom
      have hnext := ih (h.byte (by omega) byte) (by simp; omega)
      simpa using hnext

/-- **What `ac_encode_pulses` writes**: the frame, at the front of the buffer, and nothing
behind it. -/
theorem acEncodePulses_eq (state : AcState) (buf : Vector IrPulse irMaxPulses) :
    (acEncodePulses state buf).1.toList = framePulses state ++ buf.toList.drop 427 ∧
      (acEncodePulses state buf).2 = 427 := by
  have hcommand : ∀ b : Fin 53, (encodeCommand state)[b] = (commandBytes state)[b] := by
    intro b
    simp [← encodeCommand_toList]
  have hlist : (List.finRange 53).map (fun b => (commandBytes state)[b]) = commandBytes state :=
    rfl
  have hhead := ((Wrote.start buf).emit (by decide) wakeupMark wakeupSpace).emit
    (by simp [irMaxPulses]) headerMark headerSpace
  have hdata := hhead.bytes (commandBytes state) (by simp [irMaxPulses])
  have hbits : (((commandBytes state).map UInt8.toNat).flatMap (lsbFirst 8)).length = 424 :=
    length_commandBits state
  have htrail := hdata.emit (by simp [irMaxPulses, hbits]) trailMark 0
  have hframe : [] ++ [⟨wakeupMark, wakeupSpace⟩] ++ [⟨headerMark, headerSpace⟩] ++
      (((commandBytes state).map UInt8.toNat).flatMap (lsbFirst 8)).map bitPulse ++
      [⟨trailMark, 0⟩] = framePulses state := rfl
  rw [hframe, ← hlist, List.foldl_map] at htrail
  simp only [← hcommand] at htrail
  refine ⟨?_, ?_⟩
  · have hpulses := htrail.pulses
    rw [length_framePulses] at hpulses
    exact hpulses
  · have hidx := htrail.idx
    rw [length_framePulses] at hidx
    exact hidx

/-- The pulses a caller hands on: the first `count` entries of the buffer. -/
theorem take_acEncodePulses (state : AcState) (buf : Vector IrPulse irMaxPulses) :
    (acEncodePulses state buf).1.toList.take (acEncodePulses state buf).2 = framePulses state := by
  obtain ⟨hpulses, hcount⟩ := acEncodePulses_eq state buf
  rw [hpulses, hcount]
  exact List.take_left' (length_framePulses state)

end Shirokumakun
