/-
What the sensor's checksum detects.

`sensirion_crc` is the register of the generator `x^8 + x^5 + x^4 + 1`, started with all
ones.  The two are connected one bit at a time, by the 256 values of a byte; everything about
messages then comes from the general theory, for messages of any length.
-/
import Shirokumakun.Lib.Coding
import Shirokumakun.Lib.Crc
import Shirokumakun.Scd40.Publication

namespace Shirokumakun.Scd40

open Polynomial Crc

/-! ### Bytes on the wire -/

/-- The bits of a byte, the most significant first. -/
def bitsOf (byte : UInt8) : List Bool := (Coding.lsbFirst 8 byte.toNat).reverse

/-- The bits of a message in the order they are sent. -/
def wire (bytes : List UInt8) : List Bool := bytes.flatMap bitsOf

/-- The number of bits in which two lists of one length differ. -/
def distance (a b : List Bool) : Nat := (List.zipWith xor a b).count true

/-- The polynomial 0x31. -/
def sensirion : Generator 8 where
  taps := bitsOf 0x31
  length_taps := by decide +kernel
  odd := by decide +kernel

theorem length_bitsOf (byte : UInt8) : (bitsOf byte).length = 8 := by
  rw [bitsOf, List.length_reverse, Coding.length_lsbFirst]

theorem bitsOf_injective : Function.Injective bitsOf := by
  intro a b h
  have hnat := congrArg Coding.ofLsbFirst (List.reverse_injective h)
  rw [Coding.ofLsbFirst_lsbFirst, Coding.ofLsbFirst_lsbFirst, Nat.mod_eq_of_lt a.toNat_lt,
    Nat.mod_eq_of_lt b.toNat_lt] at hnat
  exact UInt8.toNat_inj.mp hnat

theorem bitsOf_xor (a b : UInt8) : bitsOf (a ^^^ b) = List.zipWith xor (bitsOf a) (bitsOf b) := by
  have hlsb : Coding.lsbFirst 8 (a ^^^ b).toNat
      = List.zipWith xor (Coding.lsbFirst 8 a.toNat) (Coding.lsbFirst 8 b.toNat) := by
    unfold Coding.lsbFirst
    rw [List.zipWith_map, List.zipWith_self, UInt8.toNat_xor]
    apply List.map_congr_left
    intro i _
    exact Nat.testBit_xor ..
  unfold bitsOf
  rw [hlsb, List.reverse_zipWith]
  rw [Coding.length_lsbFirst, Coding.length_lsbFirst]

/-! ### The loop and the register -/

/-- Shift and exclusive or are done in `int`; the assignment keeps the low eight bits. -/
theorem crcBit_toNat (crc : UInt8) :
    (crcBit crc).toNat =
      (if crc.toNat &&& 0x80 ≠ 0 then (crc.toNat <<< 1) ^^^ 0x31 else crc.toNat <<< 1) % 2 ^ 8 := by
  have htop : crc &&& 0x80 ≠ 0 ↔ crc.toNat &&& 0x80 ≠ 0 := by
    rw [ne_eq, ← UInt8.toNat_inj, UInt8.toNat_and]
    rfl
  unfold crcBit
  by_cases hbit : crc.toNat &&& 0x80 ≠ 0
  · rw [if_pos (htop.mpr hbit), if_pos hbit, UInt8.toNat_xor, Nat.xor_mod_two_pow,
      UInt8.toNat_shiftLeft]
    rfl
  · rw [if_neg (mt htop.mp hbit), if_neg hbit, UInt8.toNat_shiftLeft]
    rfl

theorem bitsOf_crcBit (crc : UInt8) : bitsOf (crcBit crc) = sensirion.step (bitsOf crc) := by
  have hall : ∀ n < 2 ^ 8, (Coding.lsbFirst 8
      ((if n &&& 0x80 ≠ 0 then (n <<< 1) ^^^ 0x31 else n <<< 1) % 2 ^ 8)).reverse
        = sensirion.step (Coding.lsbFirst 8 n).reverse := by
    decide +kernel
  rw [bitsOf, crcBit_toNat]
  exact hall crc.toNat crc.toNat_lt

/-- **The loop is the register.** -/
theorem bitsOf_sensirionCrc (d : List UInt8) :
    bitsOf (sensirionCrc d) = sensirion.crc (bitsOf 0xFF) (d.map bitsOf) := by
  have hbyte : ∀ crc byte : UInt8,
      bitsOf (crcBit^[8] (crc ^^^ byte)) = sensirion.word (bitsOf crc) (bitsOf byte) := by
    intro crc byte
    rw [Generator.word, ← bitsOf_xor]
    exact Function.Semiconj.iterate_right bitsOf_crcBit 8 (crc ^^^ byte)
  have hfold : ∀ init : UInt8, bitsOf (d.foldl (fun crc byte => crcBit^[8] (crc ^^^ byte)) init)
      = sensirion.crc (bitsOf init) (d.map bitsOf) := by
    induction d with
    | nil =>
        intro init
        rfl
    | cons byte rest ih =>
        intro init
        rw [List.foldl_cons, ih, hbyte]
        rfl
  exact hfold 0xFF

theorem toPoly_sensirion : sensirion.toPoly = X ^ 8 + X ^ 5 + X ^ 4 + 1 := by
  have htaps : sensirion.taps = [false, false, true, true, false, false, false, true] := by
    decide +kernel
  rw [Generator.toPoly, htaps]
  simp [poly, bit]
  ring

theorem length_of_mem_bits {d : List UInt8} : ∀ bits ∈ d.map bitsOf, bits.length = 8 := by
  intro bits hbits
  obtain ⟨byte, -, rfl⟩ := List.mem_map.mp hbits
  exact length_bitsOf byte

theorem wire_append_singleton (d : List UInt8) (x : UInt8) :
    wire (d ++ [x]) = (d.map bitsOf).flatten ++ bitsOf x := by
  rw [wire, List.flatMap_append, List.flatMap_singleton, List.flatMap_def]

/-- With its checksum behind it, a message leaves zero, and only with its checksum. -/
theorem sensirionCrc_concat_eq_zero_iff (d : List UInt8) (x : UInt8) :
    sensirionCrc (d ++ [x]) = 0 ↔ x = sensirionCrc d := by
  have hzero : bitsOf 0 = List.replicate 8 false := by decide
  rw [← bitsOf_injective.eq_iff, ← bitsOf_injective.eq_iff, bitsOf_sensirionCrc, List.map_append,
    hzero, List.map_singleton, Generator.crc_concat_eq_zero_iff (length_bitsOf 0xFF)
      length_of_mem_bits (length_bitsOf x), bitsOf_sensirionCrc]
  exact eq_comm

/-- **The remainder.** -/
theorem poly_sensirionCrc (d : List UInt8) :
    poly (bitsOf (sensirionCrc d))
      = (poly (bitsOf 0xFF) * X ^ (8 * d.length) + poly (wire d) * X ^ 8)
          %ₘ (X ^ 8 + X ^ 5 + X ^ 4 + 1) := by
  rw [bitsOf_sensirionCrc, Generator.poly_crc (length_bitsOf 0xFF) length_of_mem_bits,
    toPoly_sensirion, List.length_map, wire, List.flatMap_def]

/-! ### Errors -/

/-- An error in a message with its checksum is seen, unless the generator divides it. -/
theorem detected {d d' : List UInt8} {x' : UInt8} (hlen : d'.length = d.length)
    (h : ¬ sensirion.toPoly ∣ poly (wire (d ++ [sensirionCrc d])) + poly (wire (d' ++ [x']))) :
    sensirionCrc d' ≠ x' := by
  intro hpass
  apply h
  rw [wire_append_singleton, wire_append_singleton]
  refine Generator.dvd_error (length_bitsOf 0xFF) length_of_mem_bits length_of_mem_bits
    (length_bitsOf _) (length_bitsOf _) ?_ ?_ ?_
  · rw [List.length_map, List.length_map, hlen]
  · rw [bitsOf_sensirionCrc]
  · rw [← bitsOf_sensirionCrc, hpass]

/-- The bits of a word of a response, its checksum included. -/
def wordBits (buf : Vector UInt8 9) (w : Fin 3) : List Bool :=
  wire (wordBytes buf w)

/-- The way back of the register is longer than a word. -/
theorem step_iterate_one_ne : ∀ m < 24, 0 < m → sensirion.step^[m] (one 8) ≠ one 8 := by
  decide +kernel

theorem length_wire (d : List UInt8) : (wire d).length = 8 * d.length := by
  rw [wire, List.length_flatMap, List.map_congr_left fun byte _ => length_bitsOf byte,
    List.map_const', List.sum_replicate, smul_eq_mul, Nat.mul_comm]

/-- **Few wrong bits in a word** are seen. -/
theorem not_crcMatches {buf buf' : Vector UInt8 9} {w : Fin 3} (h : CrcMatches buf w)
    (hpos : 0 < distance (wordBits buf w) (wordBits buf' w))
    (hle : distance (wordBits buf w) (wordBits buf' w) ≤ 3) : ¬ CrcMatches buf' w := by
  have hlen : (wordBits buf w).length = (wordBits buf' w).length := by
    rw [wordBits, wordBits, length_wire, length_wire]
    rfl
  have hspan : ∀ m, 0 < m → m < (List.zipWith xor (wordBits buf w) (wordBits buf' w)).length →
      sensirion.step^[m] (one 8) ≠ one 8 := by
    intro m hm hlt
    rw [List.length_zipWith, ← hlen, Nat.min_self, wordBits, length_wire] at hlt
    exact step_iterate_one_ne m hlt hm
  have heven : sensirion.taps.count true % 2 = 1 := by decide +kernel
  have herror := Generator.not_dvd_of_count heven hspan hpos hle
  have hsum : sensirionCrc [buf[3 * w.val], buf[3 * w.val + 1]] = buf[3 * w.val + 2] := h
  have hsplit : ∀ buf : Vector UInt8 9, wordBytes buf w
      = [buf[3 * w.val], buf[3 * w.val + 1]] ++ [buf[3 * w.val + 2]] := fun _ => rfl
  rw [poly_zipWith_xor hlen, wordBits, wordBits, hsplit, hsplit, ← hsum] at herror
  have htwo : [buf'[3 * w.val], buf'[3 * w.val + 1]].length
      = [buf[3 * w.val], buf[3 * w.val + 1]].length := rfl
  intro hpass
  exact detected htwo herror hpass

/-- The nested read refuses a response with a checksum that does not match. -/
theorem scd40ReadMeasurement_of_mismatch {β : Type*} {bus : I2cBus β} {b b₁ b₂ : β}
    {buf : Vector UInt8 9} {w : Fin 3} (hacc : CommandAccepted bus scd40CmdReadMeasurement b b₁)
    (hread : bus.read scd40I2cAddr 9 (bus.sleepMsec 1 b₁) = (0, buf, b₂))
    (h : ¬ CrcMatches buf w) (out : Measurement) :
    scd40ReadMeasurement bus out b = (-eio, out, b₂) := by
  have hbad : ∃ w, ¬ CrcMatches buf w := ⟨w, h⟩
  unfold scd40ReadMeasurement
  rw [scd40WriteCmd_eq_zero_iff.mpr hacc]
  simp [hread, hbad]

/-- **The checksum detects what it is meant to.**  It is the remainder of the division by
`x^8 + x^5 + x^4 + 1`, and zero for a message followed by its checksum and for no other byte
there.  For messages of any length it detects every error confined to eight consecutive
bits, and in a word of a measurement one, two or three wrong bits, wherever they are. -/
theorem crc_detects :
    (∀ d x, sensirionCrc (d ++ [x]) = 0 ↔ x = sensirionCrc d) ∧
    (∀ d : List UInt8, poly (bitsOf (sensirionCrc d))
      = (poly (bitsOf 0xFF) * X ^ (8 * d.length) + poly (wire d) * X ^ 8)
          %ₘ (X ^ 8 + X ^ 5 + X ^ 4 + 1)) ∧
    (∀ (d d' : List UInt8) (x' : UInt8), d'.length = d.length →
      Burst 8 (wire (d ++ [sensirionCrc d])) (wire (d' ++ [x'])) →
        sensirionCrc d' ≠ x') ∧
    (∀ (buf buf' : Vector UInt8 9) (w : Fin 3), CrcMatches buf w →
      0 < distance (wordBits buf w) (wordBits buf' w) →
      distance (wordBits buf w) (wordBits buf' w) ≤ 3 →
        ¬ CrcMatches buf' w ∧
        ∀ (β : Type) (bus : I2cBus β) (b b₁ b₂ : β) (out : Measurement),
          CommandAccepted bus scd40CmdReadMeasurement b b₁ →
          bus.read scd40I2cAddr 9 (bus.sleepMsec 1 b₁) = (0, buf', b₂) →
            scd40ReadMeasurement bus out b = (-eio, out, b₂)) := by
  refine ⟨sensirionCrc_concat_eq_zero_iff, poly_sensirionCrc, ?_, ?_⟩
  · intro d d' x' hlen hburst
    exact detected hlen (Generator.not_dvd_of_burst hburst)
  · intro buf buf' w h hpos hle
    have hbad := not_crcMatches h hpos hle
    refine ⟨hbad, ?_⟩
    intro β bus b b₁ b₂ out hacc hread
    exact scd40ReadMeasurement_of_mismatch hacc hread hbad out

end Shirokumakun.Scd40
