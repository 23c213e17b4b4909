/-
The data codewords of a symbol.

The segments are appended to a cleared buffer, then a terminator of at most four zeros,
then zeros up to a whole byte, then alternating pad bytes until the capacity is reached.
Three assertions of the source stand along the way: that the appended bits are as many
as were counted, that they do not exceed the capacity, and that the terminated string is
a whole number of bytes.  They are not checked here but proved: `filled_segments` is the
first, and `length_dataBits` has the other two in it, since a string of whole bytes is
padded to exactly the capacity only if it did not exceed it.

The terminator is shorter than four bits where fewer are left.  Then nothing at all
follows it, and the reader stops for lack of a mode instead.
-/
import Shirokumakun.Qr.Capacity

namespace Shirokumakun.Qr

open Packed

/-! ### The loops -/

/-- The mode, the count and the data of one segment. -/
def appendSegment (version : ℕ) (p : List UInt8 × ℕ) (seg : Segment) : List UInt8 × ℕ :=
  let p := appendBitsToBuffer seg.mode.value 4 p.1 p.2
  let p := appendBitsToBuffer seg.numChars (numCharCountBits seg.mode version) p.1 p.2
  (List.range seg.bitLength).foldl (fun p j =>
    appendBitsToBuffer (((seg.data.getD (j >>> 3) 0).toNat >>> (7 - (j &&& 7))) &&& 1) 1 p.1 p.2) p

/-- Add the terminator, as far as there is room for it. -/
def appendTerminator (dataCapacityBits : ℕ) (p : List UInt8 × ℕ) : List UInt8 × ℕ :=
  appendBitsToBuffer 0 (min (dataCapacityBits - p.2) 4) p.1 p.2

/-- Pad up to a byte. -/
def alignByte (p : List UInt8 × ℕ) : List UInt8 × ℕ :=
  appendBitsToBuffer 0 ((8 - p.2 % 8) % 8) p.1 p.2

/-- Pad with alternating bytes; `fuel` is enough where it is the capacity in bytes. -/
def padLoop (dataCapacityBits : ℕ) : ℕ → ℕ → List UInt8 × ℕ → List UInt8 × ℕ
  | 0, _, p => p
  | fuel + 1, padByte, p =>
      if p.2 < dataCapacityBits then
        padLoop dataCapacityBits fuel (padByte ^^^ (0xEC ^^^ 0x11))
          (appendBitsToBuffer padByte 8 p.1 p.2)
      else p

/-- The data bit string of a symbol, in the buffer the symbol will be drawn in. -/
def concatenate (version : ℕ) (ecl : Ecc) (segs : List Segment) (qrcode : List UInt8) :
    List UInt8 × ℕ :=
  let p := segs.foldl (appendSegment version) (clear qrcode (bufferLenForVersion version), 0)
  let dataCapacityBits := getNumDataCodewords version ecl * 8
  padLoop dataCapacityBits (getNumDataCodewords version ecl) 0xEC
    (alignByte (appendTerminator dataCapacityBits p))

/-! ### The bits they make -/

/-- `n` pad bytes, from this one on. -/
def padBits : ℕ → ℕ → List Bool
  | 0, _ => []
  | n + 1, padByte => msbFirst 8 padByte ++ padBits n (padByte ^^^ (0xEC ^^^ 0x11))

/-- The bits with their terminator. -/
def terminated (capacity : ℕ) (bits : List Bool) : List Bool :=
  bits ++ msbFirst (min (capacity - bits.length) 4) 0

/-- The bits up to a whole byte. -/
def aligned (bits : List Bool) : List Bool := bits ++ msbFirst ((8 - bits.length % 8) % 8) 0

/-- The data bits of the segments at a capacity of so many codewords. -/
def dataBits (codewords : ℕ) (bits : List Bool) : List Bool :=
  let whole := aligned (terminated (codewords * 8) bits)
  whole ++ padBits (codewords - whole.length / 8) 0xEC

theorem length_padBits (n padByte : ℕ) : (padBits n padByte).length = 8 * n := by
  induction n generalizing padByte with
  | zero => rfl
  | succ n ih =>
      rw [padBits, List.length_append, length_msbFirst, ih]
      omega

theorem length_terminated {capacity : ℕ} {bits : List Bool} :
    (terminated capacity bits).length = bits.length + min (capacity - bits.length) 4 := by
  rw [terminated, List.length_append, length_msbFirst]

theorem length_aligned {bits : List Bool} :
    (aligned bits).length = bits.length + (8 - bits.length % 8) % 8 := by
  rw [aligned, List.length_append, length_msbFirst]

/-- Terminated and aligned, the bits are whole bytes within the capacity. -/
theorem length_whole {codewords : ℕ} {bits : List Bool} (h : bits.length ≤ codewords * 8) :
    (aligned (terminated (codewords * 8) bits)).length % 8 = 0 ∧
      (aligned (terminated (codewords * 8) bits)).length ≤ codewords * 8 := by
  rw [length_aligned, length_terminated]
  omega

theorem length_dataBits {codewords : ℕ} {bits : List Bool} (h : bits.length ≤ codewords * 8) :
    (dataBits codewords bits).length = codewords * 8 := by
  obtain ⟨hmod, hle⟩ := length_whole h
  rw [dataBits, List.length_append, length_padBits]
  omega

/-! ### The loops make those bits -/

section

variable {room : ℕ} {rest : List UInt8} {bits : List Bool} {p : List UInt8 × ℕ}

theorem Filled.appendBits (h : Filled room rest bits p) (val n : ℕ)
    (hroom : bits.length + n ≤ 8 * room) :
    Filled room rest (bits ++ msbFirst n val) (appendBitsToBuffer val n p.1 p.2) :=
  h.append val hroom

theorem stream_succ (o : Order) (buffer : List UInt8) (n : ℕ) :
    stream o buffer (n + 1) = stream o buffer n ++ [read o buffer n] := by
  rw [stream, List.range_succ, List.map_append]
  rfl

/-- The bit the source shifts out of the data is the one the stream has there. -/
theorem msbFirst_one_read (data : List UInt8) (j : ℕ) :
    msbFirst 1 (((data.getD (j >>> 3) 0).toNat >>> (7 - (j &&& 7))) &&& 1) = [read msb data j] := by
  have hmod : j &&& 7 = j % 8 := Nat.and_two_pow_sub_one_eq_mod j 3
  rw [and_one_toNat, hmod, Nat.shiftRight_eq_div_pow]
  show [((data.getD (j / 8) 0).toNat.testBit (7 - j % 8)).toNat.testBit 0] =
    [(data.getD (j / 8) 0).toNat.testBit (7 - j % 8)]
  cases (data.getD (j / 8) 0).toNat.testBit (7 - j % 8) with
  | false => rfl
  | true => rfl

theorem Filled.appendStream (h : Filled room rest bits p) (data : List UInt8) {n : ℕ}
    (hroom : bits.length + n ≤ 8 * room) :
    Filled room rest (bits ++ stream msb data n) ((List.range n).foldl (fun p j =>
      appendBitsToBuffer (((data.getD (j >>> 3) 0).toNat >>> (7 - (j &&& 7))) &&& 1) 1 p.1 p.2)
      p) := by
  induction n with
  | zero => simpa [stream] using h
  | succ n ih =>
      have hn := ih (by omega)
      rw [List.range_succ, List.foldl_append, List.foldl_cons, List.foldl_nil, stream_succ,
        ← List.append_assoc, ← msbFirst_one_read data n]
      refine hn.appendBits _ 1 ?_
      rw [List.length_append, length_stream]
      omega

theorem Filled.appendSegment (h : Filled room rest bits p) {version : ℕ} (seg : Segment)
    (hroom : bits.length + (segmentBits version seg).length ≤ 8 * room) :
    Filled room rest (bits ++ segmentBits version seg) (appendSegment version p seg) := by
  rw [length_segmentBits] at hroom
  have hmode := h.appendBits seg.mode.value 4 (by omega)
  have hcount := hmode.appendBits seg.numChars (numCharCountBits seg.mode version) (by
    rw [List.length_append, length_msbFirst]
    omega)
  have hdata := hcount.appendStream seg.data (n := seg.bitLength) (by
    rw [List.length_append, List.length_append, length_msbFirst, length_msbFirst]
    omega)
  rw [segmentBits, ← List.append_assoc, ← List.append_assoc]
  exact hdata

/-- After the loop over the segments the buffer holds their bits. -/
theorem filled_segments (h : Filled room rest bits p) {version : ℕ} (segs : List Segment)
    (hroom : bits.length + (segmentsBits version segs).length ≤ 8 * room) :
    Filled room rest (bits ++ segmentsBits version segs)
      (segs.foldl (Qr.appendSegment version) p) := by
  induction segs generalizing bits p with
  | nil => simpa [segmentsBits] using h
  | cons seg segs ih =>
      have hbits : segmentsBits version (seg :: segs) =
          segmentBits version seg ++ segmentsBits version segs := List.flatMap_cons
      rw [hbits, List.length_append] at hroom
      rw [hbits, List.foldl_cons, ← List.append_assoc]
      refine ih (h.appendSegment seg (by omega)) ?_
      rw [List.length_append]
      omega

theorem Filled.appendTerminator (h : Filled room rest bits p) {capacity : ℕ}
    (hcap : bits.length ≤ capacity) (hroom : capacity ≤ 8 * room) :
    Filled room rest (terminated capacity bits) (appendTerminator capacity p) := by
  rw [Qr.appendTerminator, h.length_eq, terminated, ← h.length_eq]
  exact h.appendBits 0 _ (by rw [h.length_eq]; omega)

theorem Filled.alignByte (h : Filled room rest bits p)
    (hroom : bits.length + (8 - bits.length % 8) % 8 ≤ 8 * room) :
    Filled room rest (aligned bits) (alignByte p) := by
  rw [Qr.alignByte, h.length_eq, aligned, ← h.length_eq]
  exact h.appendBits 0 _ (by rw [h.length_eq]; exact hroom)

theorem Filled.padLoop (h : Filled room rest bits p) {codewords fuel : ℕ} (padByte : ℕ)
    (hmod : bits.length % 8 = 0) (hle : bits.length ≤ codewords * 8)
    (hroom : codewords ≤ room) (hfuel : codewords - bits.length / 8 ≤ fuel) :
    Filled room rest (bits ++ padBits (codewords - bits.length / 8) padByte)
      (padLoop (codewords * 8) fuel padByte p) := by
  have hlen := h.length_eq
  induction fuel generalizing bits p padByte with
  | zero =>
      have hzero : codewords - bits.length / 8 = 0 := by omega
      rw [hzero, padBits, List.append_nil]
      exact h
  | succ fuel ih =>
      rw [Qr.padLoop]
      by_cases hlt : p.2 < codewords * 8
      · obtain ⟨n, hn⟩ : ∃ n, codewords - bits.length / 8 = n + 1 :=
          ⟨codewords - bits.length / 8 - 1, by omega⟩
        have hnext := h.appendBits padByte 8 (by omega)
        have hnextlen : (bits ++ msbFirst 8 padByte).length = bits.length + 8 := by simp
        have hnextpad : codewords - (bits ++ msbFirst 8 padByte).length / 8 = n := by
          rw [hnextlen]
          omega
        have hloop := ih hnext (padByte ^^^ (0xEC ^^^ 0x11)) (by omega) (by omega) (by omega)
          hnext.length_eq
        rw [hnextpad] at hloop
        rw [if_pos hlt, hn, padBits, ← List.append_assoc]
        exact hloop
      · have hzero : codewords - bits.length / 8 = 0 := by omega
        rw [if_neg hlt, hzero, padBits, List.append_nil]
        exact h

end

/-- The buffer ends up holding the data bits, exactly as many as the capacity. -/
theorem filled_concatenate {version : ℕ} {ecl : Ecc} {segs : List Segment} {qrcode : List UInt8}
    (h : Version version) (hfits : Fits segs version ecl)
    (hbuf : bufferLenForVersion version ≤ qrcode.length) :
    Filled (bufferLenForVersion version) (qrcode.drop (bufferLenForVersion version))
      (dataBits (getNumDataCodewords version ecl) (segmentsBits version segs))
      (concatenate version ecl segs qrcode) := by
  have hcap := hfits.2.2
  have hdata := (h.layout ecl).data_le_buffer
  have hsegs := filled_segments (filled_clear hbuf) segs (by
    rw [List.length_nil]
    omega : ([] : List Bool).length + (segmentsBits version segs).length ≤ _)
  rw [List.nil_append] at hsegs
  have hterm := hsegs.appendTerminator hcap (by omega)
  obtain ⟨hmod, hle⟩ := length_whole hcap
  have halign := hterm.alignByte (by
    rw [← length_aligned]
    omega)
  exact halign.padLoop 0xEC hmod hle hdata (Nat.sub_le _ _)

/-- Collecting the data bits leaves room for the symbol. -/
theorem room_concatenate {version : ℕ} {ecl : Ecc} {segs : List Segment} {qrcode : List UInt8}
    (h : Version version) (hfits : Fits segs version ecl)
    (hbuf : bufferLenForVersion version ≤ qrcode.length) :
    bufferLenForVersion version ≤ (concatenate version ecl segs qrcode).1.length :=
  Nat.le_of_mul_le_mul_left (filled_concatenate h hfits hbuf).holds.inside (by decide)

/-! ### Reading them back -/

theorem terminates_pad {codewords : ℕ} {bits : List Bool} (h : bits.length ≤ codewords * 8) :
    ∃ pad, dataBits codewords bits = bits ++ pad ∧ Terminates pad := by
  have hdata : dataBits codewords bits =
      bits ++ (msbFirst (min (codewords * 8 - bits.length) 4) 0 ++
        (msbFirst ((8 - (terminated (codewords * 8) bits).length % 8) % 8) 0 ++
          padBits (codewords - (aligned (terminated (codewords * 8) bits)).length / 8) 0xEC)) := by
    rw [dataBits, aligned, terminated]
    simp only [List.append_assoc]
  refine ⟨_, hdata, ?_⟩
  by_cases hfour : 4 ≤ codewords * 8 - bits.length
  · right
    rw [Nat.min_eq_right hfour]
    exact ⟨_, rfl⟩
  · left
    have hlen := length_dataBits h
    rw [hdata, List.length_append] at hlen
    omega

/-- The data bits of segments read back as their payloads. -/
theorem readSegments_dataBits {version fuel codewords : ℕ} {segs : List Segment}
    {payloads : List Payload} (h : List.Forall₂ Segment.Carries segs payloads)
    (hfit : CountsFit version segs) (hfuel : segs.length < fuel)
    (hcap : (segmentsBits version segs).length ≤ codewords * 8) :
    readSegments version fuel (dataBits codewords (segmentsBits version segs)) = some payloads := by
  obtain ⟨pad, hdata, hpad⟩ := terminates_pad hcap
  rw [hdata]
  exact readSegments_segmentsBits h hfit hfuel hpad

/-- **What the loops leave in the buffer reads back**: exactly as many bits as the level
has for data, from which a reader gets the payloads, and the bytes behind the symbol's
buffer are untouched. -/
theorem readSegments_concatenate {version : ℕ} {ecl : Ecc} {segs : List Segment}
    {payloads : List Payload} {qrcode : List UInt8}
    (hcarries : List.Forall₂ Segment.Carries segs payloads) (h : Version version)
    (hfits : Fits segs version ecl) (hbuf : bufferLenForVersion version ≤ qrcode.length) :
    (concatenate version ecl segs qrcode).2 = getNumDataCodewords version ecl * 8 ∧
      readSegments version (segs.length + 1) (stream msb (concatenate version ecl segs qrcode).1
        (getNumDataCodewords version ecl * 8)) = some payloads ∧
      (concatenate version ecl segs qrcode).1.drop (bufferLenForVersion version) =
        qrcode.drop (bufferLenForVersion version) := by
  have hfilled := filled_concatenate h hfits hbuf
  have hlen := length_dataBits hfits.2.2
  have hstream := hfilled.holds.stream_eq
  rw [hlen] at hstream
  refine ⟨hfilled.length_eq.trans hlen, ?_, hfilled.rest_eq⟩
  rw [hstream]
  exact readSegments_dataBits hcarries hfits.1 (Nat.lt_succ_self _) hfits.2.2

theorem readSegments_concatenate_byte :
    (concatenate 1 .low [⟨.byte, 1, [65] ++ [], 8⟩] (List.replicate 57 7)).2 =
        getNumDataCodewords 1 .low * 8 ∧
      readSegments 1 2 (stream msb
        (concatenate 1 .low [⟨.byte, 1, [65] ++ [], 8⟩] (List.replicate 57 7)).1
        (getNumDataCodewords 1 .low * 8)) = some [.byte [65]] ∧
      (concatenate 1 .low [⟨.byte, 1, [65] ++ [], 8⟩] (List.replicate 57 7)).1.drop
        (bufferLenForVersion 1) = (List.replicate 57 7).drop (bufferLenForVersion 1) :=
  readSegments_concatenate (.cons (carries_byte [65] []) .nil) ⟨by decide, by decide⟩
    ⟨by simp [CountsFit, numCharCountBits], by decide, by decide⟩ (by decide)

end Shirokumakun.Qr
