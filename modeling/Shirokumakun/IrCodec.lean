/-
What a frame tells the air conditioner.

The encoder packs a state into a few fields of 25 bytes and the power flag and the
mode share two of them, so it is not obvious that nothing is lost.  This file gives
the receiver's side: a decoder that reads the pulses bit by bit, checks the preamble
and every complement, and picks the fields out again.

Two things follow.  Decoding inverts encoding up to `normalise`, which forgets the
mode of a unit that is switched off, and so two states have the same frame exactly
when they agree up to it.  And because the wake-up mark occurs nowhere else in a
frame, a receiver that joins in the middle of a stream loses the frame it joined in
and no other: the frame code of `Lib/Coding.lean`, instantiated.
-/
import Shirokumakun.IrProtocol

namespace Shirokumakun

open Coding

/-- The states a frame has room for: a nibble each for mode and fan, six bits for the
temperature. -/
structure WireState extends AcState where
  mode_lt : mode < 16
  tempC_lt : tempC < 64
  fan_lt : fan < 16

/-- What a frame tells of a state: all of it, except the mode of a unit that is off. -/
def normalise (state : AcState) : AcState := { state with mode := modeNibble state }

/-! ### The decoder -/

/-- A data pulse as a bit, told from the length of its space. -/
def bitOf (p : IrPulse) : Option Bool :=
  if p.markUs = bitMark ∧ p.spaceUs = oneSpace then some true
  else if p.markUs = bitMark ∧ p.spaceUs = zeroSpace then some false
  else none

/-- The fields of the 25 raw bytes. -/
def stateOf (raw : List UInt8) : AcState where
  power := raw.getD 12 0 != 0xE1
  mode := raw.getD 11 0 &&& 0x0F
  tempC := raw.getD 5 0 >>> 2
  fan := raw.getD 11 0 >>> 4

/-- The 53 command bytes: the preamble, then 25 bytes with their complements. -/
def decodeCommand (cmd : List UInt8) : Option AcState :=
  if cmd.take 3 = preamble then (stripChecks (~~~ ·) (cmd.drop 3)).map stateOf else none

/-- One frame of 427 pulses. -/
def decodeFrame : List IrPulse → Option AcState
  | wakeup :: header :: rest =>
      if wakeup = ⟨wakeupMark, wakeupSpace⟩ ∧ header = ⟨headerMark, headerSpace⟩ ∧
          rest.drop 424 = [⟨trailMark, 0⟩] then
        ((rest.take 424).mapM bitOf).bind fun bits =>
          decodeCommand ((words 8 53 bits).map UInt8.ofNat)
      else none
  | _ => none

/-! ### The fields come back -/

theorem shiftRight_shiftLeft_two {t : UInt8} (h : t < 64) : (t <<< 2) >>> 2 = t := by
  have ht : t.toNat < 64 := UInt8.lt_iff_toNat_lt.mp h
  rw [← UInt8.toNat_inj, UInt8.toNat_shiftRight, UInt8.toNat_shiftLeft]
  show (t.toNat <<< 2 % 256) >>> 2 = t.toNat
  rw [Nat.shiftLeft_eq, Nat.shiftRight_eq_div_pow]
  omega

theorem toNat_nibbles {hi lo : UInt8} (hhi : hi < 16) (hlo : lo < 16) :
    ((hi <<< 4) ||| lo).toNat = hi.toNat * 16 + lo.toNat := by
  have h1 : hi.toNat < 16 := UInt8.lt_iff_toNat_lt.mp hhi
  have h2 : lo.toNat < 16 := UInt8.lt_iff_toNat_lt.mp hlo
  have hshift : (hi <<< 4).toNat = hi.toNat <<< 4 := by
    rw [UInt8.toNat_shiftLeft]
    show hi.toNat <<< 4 % 256 = hi.toNat <<< 4
    rw [Nat.shiftLeft_eq]
    omega
  rw [UInt8.toNat_or, hshift, ← Nat.shiftLeft_add_eq_or_of_lt h2, Nat.shiftLeft_eq]

theorem upper_nibble {hi lo : UInt8} (hhi : hi < 16) (hlo : lo < 16) :
    ((hi <<< 4) ||| lo) >>> 4 = hi := by
  have h1 : hi.toNat < 16 := UInt8.lt_iff_toNat_lt.mp hhi
  have h2 : lo.toNat < 16 := UInt8.lt_iff_toNat_lt.mp hlo
  rw [← UInt8.toNat_inj, UInt8.toNat_shiftRight, toNat_nibbles hhi hlo]
  show (hi.toNat * 16 + lo.toNat) >>> 4 = hi.toNat
  rw [Nat.shiftRight_eq_div_pow]
  omega

theorem lower_nibble {hi lo : UInt8} (hhi : hi < 16) (hlo : lo < 16) :
    ((hi <<< 4) ||| lo) &&& 0x0F = lo := by
  have h2 : lo.toNat < 16 := UInt8.lt_iff_toNat_lt.mp hlo
  rw [← UInt8.toNat_inj, UInt8.toNat_and, toNat_nibbles hhi hlo]
  show (hi.toNat * 16 + lo.toNat) &&& (2 ^ 4 - 1) = lo.toNat
  rw [Nat.and_two_pow_sub_one_eq_mod]
  omega

theorem modeNibble_lt (s : WireState) : modeNibble s.toAcState < 16 := by
  unfold modeNibble
  split
  · exact s.mode_lt
  · decide

/-- The flags of a unit that is on never read as the flags of one that is off. -/
theorem powerFlags_ne_off (state : AcState) : (powerFlags state != 0xE1) = state.power := by
  unfold powerFlags
  cases state.power with
  | false => rfl
  | true =>
      by_cases h : state.mode = acModeHeating ∨ state.mode = acModeCooling
      · simp [h]
      · simp [h]

theorem stateOf_rawBytes (s : WireState) :
    stateOf (rawBytes s.toAcState) = normalise s.toAcState := by
  show (⟨powerFlags s.toAcState != 0xE1, ((s.fan <<< 4) ||| modeNibble s.toAcState) &&& 0x0F,
    (s.tempC <<< 2) >>> 2, ((s.fan <<< 4) ||| modeNibble s.toAcState) >>> 4⟩ : AcState) = _
  rw [powerFlags_ne_off, lower_nibble s.fan_lt (modeNibble_lt s),
    shiftRight_shiftLeft_two s.tempC_lt, upper_nibble s.fan_lt (modeNibble_lt s)]
  rfl

/-! ### The frame comes back -/

theorem decodeCommand_commandBytes (s : WireState) :
    decodeCommand (commandBytes s.toAcState) = some (normalise s.toAcState) := by
  have htake : (commandBytes s.toAcState).take 3 = preamble := rfl
  have hdrop : (commandBytes s.toAcState).drop 3 = withChecks (~~~ ·) (rawBytes s.toAcState) := rfl
  rw [decodeCommand, if_pos htake, hdrop, stripChecks_withChecks, Option.map_some,
    stateOf_rawBytes]

theorem bitOf_bitPulse (b : Bool) : bitOf (bitPulse b) = some b := by
  cases b <;> rfl

theorem words_commandBits (state : AcState) :
    (words 8 53 (commandBits state)).map UInt8.ofNat = commandBytes state := by
  have hwords := words_flatMap 8 ((commandBytes state).map UInt8.toNat) (by
    intro n hn
    obtain ⟨byte, -, rfl⟩ := List.mem_map.mp hn
    exact UInt8.toNat_lt byte)
  rw [List.length_map, length_commandBytes] at hwords
  rw [commandBits, hwords, List.map_map]
  refine (List.map_congr_left fun byte _ => ?_).trans (List.map_id _)
  exact UInt8.ofNat_toNat

/-- **Decoding a frame gives the state back**, up to the mode of a unit that is off. -/
theorem decodeFrame_framePulses (s : WireState) :
    decodeFrame (framePulses s.toAcState) = some (normalise s.toAcState) := by
  have hlen : ((commandBits s.toAcState).map bitPulse).length = 424 := by
    rw [List.length_map, length_commandBits]
  have htake : ((commandBits s.toAcState).map bitPulse ++ [(⟨trailMark, 0⟩ : IrPulse)]).take 424
      = (commandBits s.toAcState).map bitPulse := List.take_left' hlen
  have hdrop : ((commandBits s.toAcState).map bitPulse ++ [(⟨trailMark, 0⟩ : IrPulse)]).drop 424
      = [⟨trailMark, 0⟩] := List.drop_left' hlen
  unfold framePulses decodeFrame
  dsimp only
  rw [if_pos ⟨rfl, rfl, hdrop⟩, htake, mapM_map_eq_some bitOf_bitPulse, Option.bind_some,
    words_commandBits, decodeCommand_commandBytes]

/-- Two states have the same frame exactly when they agree up to `normalise`. -/
theorem framePulses_inj (s t : WireState) :
    framePulses s.toAcState = framePulses t.toAcState
      ↔ normalise s.toAcState = normalise t.toAcState := by
  constructor
  · intro h
    have hs := decodeFrame_framePulses s
    rw [h, decodeFrame_framePulses t] at hs
    exact (Option.some.inj hs).symm
  · intro h
    have hcommand : rawBytes s.toAcState = rawBytes t.toAcState := by
      have hflags : powerFlags s.toAcState = powerFlags t.toAcState := by
        obtain ⟨hpower, hmode, -, -⟩ := AcState.mk.inj h
        unfold powerFlags
        unfold modeNibble at hmode
        rw [← hpower] at hmode ⊢
        cases hp : s.power with
        | false => rfl
        | true => rw [hp] at hmode; simp only [if_true] at hmode; rw [hmode]
      obtain ⟨-, hmode, htemp, hfan⟩ := AcState.mk.inj h
      unfold rawBytes
      rw [hflags, hmode, htemp, hfan]
    unfold framePulses commandBits commandBytes
    rw [hcommand]

theorem normalise_eq_iff (s t : AcState) : normalise s = normalise t ↔
    s.power = t.power ∧ s.tempC = t.tempC ∧ s.fan = t.fan ∧ (s.power = true → s.mode = t.mode) := by
  cases s with
  | mk p m c f =>
      cases t with
      | mk p' m' c' f' =>
          cases p <;> cases p' <;> simp [normalise, modeNibble, and_comm, and_left_comm]

/-! ### Streams of frames -/

/-- The frame code of the protocol: the wake-up mark opens a frame. -/
def frameCode : FrameCode WireState AcState IrPulse where
  frameLen := 427
  encode s := framePulses s.toAcState
  opens p := p.markUs == wakeupMark
  parse := decodeFrame
  norm s := normalise s.toAcState
  length_encode s := length_framePulses s.toAcState
  opens_head _ := ⟨_, rfl, rfl⟩
  not_opens_tail s := by
    intro p hp
    rw [framePulses, List.tail_cons, List.mem_cons, List.mem_append, List.mem_map,
      List.mem_singleton] at hp
    rcases hp with rfl | ⟨b, -, rfl⟩ | rfl
    · decide
    · cases b <;> decide
    · decide
  parse_encode := decodeFrame_framePulses

/-- What a call of `ac_encode_pulses` left in the first `count` entries of the buffer. -/
def written (r : Vector IrPulse irMaxPulses × Nat) : List IrPulse := r.1.toList.take r.2

@[simp] theorem written_acEncodePulses (state : AcState) (buf : Vector IrPulse irMaxPulses) :
    written (acEncodePulses state buf) = framePulses state :=
  take_acEncodePulses state buf

/-- **The frame codec.**  A frame is 427 pulses and fits the buffer; decoding it recovers the
state up to the mode of a unit that is off; two states share a frame exactly when they agree
up to that; and a receiver that joins a stream of frames after `k` pulses recovers exactly
the frames that start at or after its first pulse, in order. -/
theorem frame_codec (s t : WireState) (buf : Vector IrPulse irMaxPulses)
    (frames : List WireState) (k : Nat) :
    ((acEncodePulses s.toAcState buf).2 = 427 ∧ 427 ≤ irMaxPulses ∧
      decodeFrame (written (acEncodePulses s.toAcState buf)) = some (normalise s.toAcState)) ∧
    (written (acEncodePulses s.toAcState buf) = written (acEncodePulses t.toAcState buf) ↔
      s.power = t.power ∧ s.tempC = t.tempC ∧ s.fan = t.fan ∧
        (s.power = true → s.mode = t.mode)) ∧
    frameCode.scan 0
        ((frames.flatMap fun f => written (acEncodePulses f.toAcState buf)).drop k)
      = (frames.drop ((k + 426) / 427)).map fun f => normalise f.toAcState := by
  refine ⟨⟨(acEncodePulses_eq s.toAcState buf).2, by decide, ?_⟩, ?_, ?_⟩
  · rw [written_acEncodePulses, decodeFrame_framePulses]
  · rw [written_acEncodePulses, written_acEncodePulses, framePulses_inj, normalise_eq_iff]
  · simp only [written_acEncodePulses]
    exact frameCode.scan_drop frames k

end Shirokumakun
