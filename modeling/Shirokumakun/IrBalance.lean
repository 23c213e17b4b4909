/-
Every frame has the same number of ones.

Each of the 25 raw bytes is followed by its complement, so the two of them have eight ones
whatever the state; with the preamble a frame has 202.  It follows that all frames take the
same time on the air, and that a channel that loses only ones, or only zeros, cannot turn a
frame into another.
-/
import Mathlib.Data.List.Count
import Shirokumakun.IrCodec

namespace Shirokumakun

open Coding

/-! ### Ones and zeros -/

def bitsOfByte (byte : UInt8) : List Bool := lsbFirst 8 byte.toNat

theorem bitsOfByte_not (byte : UInt8) : bitsOfByte (~~~byte) = (bitsOfByte byte).map not := by
  unfold bitsOfByte lsbFirst
  rw [List.map_map]
  apply List.map_congr_left
  intro i hi
  have hlt : i < 8 := List.mem_range.mp hi
  rw [Function.comp_apply, UInt8.toNat_not, Nat.sub_sub, Nat.add_comm 1,
    Nat.testBit_two_pow_sub_succ byte.toNat_lt, decide_eq_true hlt, Bool.true_and]

/-- The data pulses of a frame. -/
def dataPulses (frame : List IrPulse) : List IrPulse := (frame.drop 2).take 424

def onePulse : IrPulse := ⟨bitMark, oneSpace⟩

def zeroPulse : IrPulse := ⟨bitMark, zeroSpace⟩

/-- The time a frame takes, in microseconds. -/
def airtime (frame : List IrPulse) : Nat :=
  (frame.map fun p => p.markUs.toNat + p.spaceUs.toNat).sum

theorem count_commandBits (state : AcState) : (commandBits state).count true = 202 := by
  have hflat : commandBits state
      = preamble.flatMap bitsOfByte ++
        (withChecks (~~~ ·) (rawBytes state)).flatMap bitsOfByte := by
    rw [← List.flatMap_append]
    show ((commandBytes state).map UInt8.toNat).flatMap (lsbFirst 8) = _
    rw [List.flatMap_map]
    rfl
  have hpreamble : (preamble.flatMap bitsOfByte).count true = 2 := by decide
  have hlen : ∀ byte, (bitsOfByte byte).length = 8 := fun byte => length_lsbFirst 8 byte.toNat
  have hraw := count_withChecks hlen bitsOfByte_not (rawBytes state)
  rw [hflat, List.count_append, hpreamble, hraw, length_rawBytes]

theorem dataPulses_framePulses (state : AcState) :
    dataPulses (framePulses state) = (commandBits state).map bitPulse := by
  have hlen : ((commandBits state).map bitPulse).length = 424 := by
    rw [List.length_map, length_commandBits]
  exact List.take_left' hlen

theorem bitPulse_injective : Function.Injective bitPulse := by
  intro b c h
  have hbit := congrArg bitOf h
  rw [bitOf_bitPulse, bitOf_bitPulse] at hbit
  exact Option.some.inj hbit

theorem airtime_append (front back : List IrPulse) :
    airtime (front ++ back) = airtime front + airtime back := by
  unfold airtime
  rw [List.map_append, List.sum_append]

/-- Only the numbers of ones and zeros matter for the time data takes. -/
theorem airtime_map_bitPulse (bits : List Bool) :
    airtime (bits.map bitPulse) = 1618 * bits.count true + 783 * bits.count false := by
  induction bits with
  | nil => rfl
  | cons b rest ih =>
      have hcons : airtime ((b :: rest).map bitPulse)
          = airtime [bitPulse b] + airtime (rest.map bitPulse) := airtime_append [bitPulse b] _
      rw [hcons, ih]
      cases b with
      | false =>
          have hzero : airtime [bitPulse false] = 783 := rfl
          rw [hzero, List.count_cons_self, List.count_cons_of_ne (by decide)]
          omega
      | true =>
          have hone : airtime [bitPulse true] = 1618 := rfl
          rw [hone, List.count_cons_self, List.count_cons_of_ne (by decide)]
          omega

theorem count_false_commandBits (state : AcState) : (commandBits state).count false = 222 := by
  have hsum := List.count_true_add_count_false (commandBits state)
  rw [count_commandBits, length_commandBits] at hsum
  omega

/-- **The airtime** of a frame. -/
theorem airtime_framePulses (state : AcState) : airtime (framePulses state) = 585626 := by
  have hframe : framePulses state
      = [⟨wakeupMark, wakeupSpace⟩, ⟨headerMark, headerSpace⟩]
        ++ ((commandBits state).map bitPulse ++ [⟨trailMark, 0⟩]) := rfl
  rw [hframe, airtime_append, airtime_append, airtime_map_bitPulse, count_commandBits,
    count_false_commandBits]
  rfl

/-- **Two frames** differ in a one of the first that is a zero of the second. -/
theorem exists_lost_pulse {s t : AcState} (hne : framePulses s ≠ framePulses t) :
    ∃ i : Nat, (dataPulses (framePulses s))[i]? = some onePulse ∧
      (dataPulses (framePulses t))[i]? = some zeroPulse := by
  have hbits : commandBits s ≠ commandBits t := by
    intro heq
    apply hne
    unfold framePulses
    rw [heq]
  obtain ⟨i, hs, ht⟩ := exists_lost ((length_commandBits s).trans (length_commandBits t).symm)
    ((count_commandBits s).trans (count_commandBits t).symm) hbits
  refine ⟨i, ?_, ?_⟩
  · rw [dataPulses_framePulses, List.getElem?_map, hs]
    rfl
  · rw [dataPulses_framePulses, List.getElem?_map, ht]
    rfl

/-- **Frames are balanced.**  Of the 424 data pulses of a frame 202 are ones and 222 are
zeros, and every frame takes the same time.  Two frames that differ, differ in both
directions; so if a frame differs from another only in ones of its own, or only in zeros, the
two are the same. -/
theorem frames_balanced :
    (∀ state buf,
      (dataPulses (written (acEncodePulses state buf))).length = 424 ∧
      (dataPulses (written (acEncodePulses state buf))).count onePulse = 202 ∧
      (dataPulses (written (acEncodePulses state buf))).count zeroPulse = 222 ∧
      airtime (written (acEncodePulses state buf)) = 585626) ∧
    (∀ s t buf buf', written (acEncodePulses s buf) ≠ written (acEncodePulses t buf') →
      (∃ i : Nat, (dataPulses (written (acEncodePulses s buf)))[i]? = some onePulse ∧
        (dataPulses (written (acEncodePulses t buf')))[i]? = some zeroPulse) ∧
      ∃ j : Nat, (dataPulses (written (acEncodePulses s buf)))[j]? = some zeroPulse ∧
        (dataPulses (written (acEncodePulses t buf')))[j]? = some onePulse) ∧
    (∀ s t buf buf' lost,
      (∀ i : Nat, (dataPulses (written (acEncodePulses s buf)))[i]?
          ≠ (dataPulses (written (acEncodePulses t buf')))[i]? →
        (dataPulses (written (acEncodePulses s buf)))[i]? = some lost) →
      written (acEncodePulses s buf) = written (acEncodePulses t buf')) := by
  have hdiffer : some onePulse ≠ some zeroPulse := by decide
  simp only [written_acEncodePulses]
  refine ⟨?_, ?_, ?_⟩
  · intro state _
    have hone : onePulse = bitPulse true := rfl
    have hzero : zeroPulse = bitPulse false := rfl
    rw [dataPulses_framePulses, hone, hzero,
      List.count_map_of_injective _ _ bitPulse_injective,
      List.count_map_of_injective _ _ bitPulse_injective, List.length_map, length_commandBits,
      count_commandBits, count_false_commandBits, airtime_framePulses]
    exact ⟨rfl, rfl, rfl, rfl⟩
  · intro s t _ _ hne
    obtain ⟨j, ht, hs⟩ := exists_lost_pulse hne.symm
    exact ⟨exists_lost_pulse hne, j, hs, ht⟩
  · intro s t _ _ lost honly
    by_contra hne
    obtain ⟨i, hs, ht⟩ := exists_lost_pulse hne
    obtain ⟨j, ht', hs'⟩ := exists_lost_pulse (Ne.symm hne)
    have hi := honly i (by rw [hs, ht]; exact hdiffer)
    have hj := honly j (by rw [hs', ht']; exact hdiffer.symm)
    rw [hs] at hi
    rw [hs', ← hi] at hj
    exact hdiffer hj.symm

end Shirokumakun
