/-
Segments: text as the bits of a QR Code.

The encoder appends to a buffer it has cleared, one bit at a time, by or-ing it in; it
never looks at what it has written.  `Filled` is the invariant of that: the bits
appended so far stand at the front of the cleared bytes, zeros follow them, and the
bytes behind the cleared ones are still what they were.  `Filled.append` is the step,
and each of the segment makers is a run of it.

A `Payload` is what a segment says, whatever buffer it lies in, and `Segment.Carries`
connects the two.  The assertions of the source are modelled where they can fail: a
maker whose assertion fails returns `none`.
-/
import Shirokumakun.Lib.Radix

namespace Shirokumakun.Qr

open Packed

/-! ### Modes and lengths -/

inductive Mode
  | numeric | alphanumeric | byte | kanji | eci
  deriving DecidableEq, Repr

/-- The mode indicator, as the enumeration numbers it. -/
def Mode.value : Mode → ℕ
  | numeric => 0x1
  | alphanumeric => 0x2
  | byte => 0x4
  | kanji => 0x8
  | eci => 0x7

structure Segment where
  mode : Mode
  numChars : ℕ
  data : List UInt8
  bitLength : ℕ

def int16Max : ℕ := 32767

/-- `SIZE_MAX` of the 32-bit target. -/
def sizeMax : ℕ := 2 ^ 32 - 1

def alphanumericCharset : List UInt8 :=
  "0123456789ABCDEFGHIJKLMNOPQRSTUVWXYZ $%*+-./:".toList.map fun c => UInt8.ofNat c.toNat

/-- `none` stands for the -1 of the source. -/
def calcSegmentBitLength (mode : Mode) (numChars : ℕ) : Option ℕ :=
  if int16Max < numChars then none
  else
    let result : Option ℕ :=
      match mode with
      | .numeric => some ((numChars * 10 + 2) / 3)
      | .alphanumeric => some ((numChars * 11 + 1) / 2)
      | .byte => some (numChars * 8)
      | .kanji => some (numChars * 13)
      | .eci => if numChars = 0 then some (3 * 8) else none
    result.bind fun result => if int16Max < result then none else some result

def calcSegmentBufferSize (mode : Mode) (numChars : ℕ) : ℕ :=
  match calcSegmentBitLength mode numChars with
  | none => sizeMax
  | some temp => (temp + 7) / 8

/-- The width of the character count field. -/
def numCharCountBits (mode : Mode) (version : ℕ) : ℕ :=
  let i := (version + 7) / 17
  match mode with
  | .numeric => [10, 12, 14].getD i 0
  | .alphanumeric => [9, 11, 13].getD i 0
  | .byte => [8, 16, 16].getD i 0
  | .kanji => [8, 10, 12].getD i 0
  | .eci => 0

/-- The loop of `getTotalBits`, `result` being the sum so far. -/
def addTotalBits (version : ℕ) : List Segment → ℕ → Option ℕ
  | [], result => some result
  | seg :: segs, result =>
      let ccbits := numCharCountBits seg.mode version
      if 2 ^ ccbits ≤ seg.numChars then none
      else
        let result := result + (4 + ccbits + seg.bitLength)
        if int16Max < result then none else addTotalBits version segs result

def getTotalBits (segs : List Segment) (version : ℕ) : Option ℕ := addTotalBits version segs 0

/-! ### Buffers -/

/-- Clear the first `n` bytes. -/
def clear (buffer : List UInt8) (n : ℕ) : List UInt8 :=
  List.replicate (min n buffer.length) 0 ++ buffer.drop n

/-- Append the low `numBits` bits of `val`; returns the buffer and its bit length. -/
def appendBitsToBuffer (val : ℕ) : ℕ → List UInt8 → ℕ → List UInt8 × ℕ
  | 0, buffer, bitLen => (buffer, bitLen)
  | i + 1, buffer, bitLen =>
      appendBitsToBuffer val i
        (buffer.modify (bitLen >>> 3) fun x =>
          x ||| UInt8.ofNat (((val >>> i) &&& 1) <<< (7 - (bitLen &&& 7))))
        (bitLen + 1)

/-! ### Making segments -/

def isNumeric (text : List UInt8) : Bool := text.all fun c => !(c < 48 || 57 < c)

def isAlphanumeric (text : List UInt8) : Bool :=
  text.all fun c => (alphanumericCharset.idxOf? c).isSome

def makeBytes (data buf : List UInt8) : Option Segment := do
  let bitLength ← calcSegmentBitLength .byte data.length
  return {
    mode := .byte
    numChars := data.length
    data := data ++ buf.drop data.length
    bitLength }

/-- A digit's value; none where `'0' <= c && c <= '9'` is asserted and fails. -/
def numericCode (c : UInt8) : Option ℕ := if 48 ≤ c ∧ c ≤ 57 then some (c.toNat - 48) else none

theorem numeric_group_pos : 0 < 3 := by decide

def numericRadix : Radix where
  base := 10
  group := 3
  full := 10
  part := fun accumCount => accumCount * 3 + 1
  group_pos := numeric_group_pos
  full_fits := by decide
  part_fits := by decide

/-- A character's place in the character set; none where it is asserted to have one. -/
def alphanumericCode (c : UInt8) : Option ℕ := alphanumericCharset.idxOf? c

theorem alphanumeric_group_pos : 0 < 2 := by decide

def alphanumericRadix : Radix where
  base := 45
  group := 2
  full := 11
  part := fun _ => 6
  group_pos := alphanumeric_group_pos
  full_fits := by decide
  part_fits := by decide

/-- The loop over the characters of `makeNumeric` and `makeAlphanumeric`. -/
def packChars (r : Radix) (code : UInt8 → Option ℕ) :
    List UInt8 → ℕ → ℕ → List UInt8 → ℕ → Option (List UInt8 × ℕ)
  | [], accumData, accumCount, buf, bitLength =>
      some (if 0 < accumCount then appendBitsToBuffer accumData (r.part accumCount) buf bitLength
        else (buf, bitLength))
  | c :: text, accumData, accumCount, buf, bitLength =>
      (code c).bind fun d =>
        let accumData := accumData * r.base + d
        let accumCount := accumCount + 1
        if accumCount = r.group then
          let appended := appendBitsToBuffer accumData r.full buf bitLength
          packChars r code text 0 0 appended.1 appended.2
        else packChars r code text accumData accumCount buf bitLength

def makeText (mode : Mode) (r : Radix) (code : UInt8 → Option ℕ) (text buf : List UInt8) :
    Option Segment := do
  let bitLen ← calcSegmentBitLength mode text.length
  let buf := if 0 < bitLen then clear buf ((bitLen + 7) / 8) else buf
  let packed ← packChars r code text 0 0 buf 0
  if packed.2 = bitLen then
    return { mode, numChars := text.length, data := packed.1, bitLength := packed.2 }
  else none

def makeNumeric (digits buf : List UInt8) : Option Segment :=
  makeText .numeric numericRadix numericCode digits buf

def makeAlphanumeric (text buf : List UInt8) : Option Segment :=
  makeText .alphanumeric alphanumericRadix alphanumericCode text buf

def makeEci (assignVal : ℤ) (buf : List UInt8) : Option Segment :=
  let eci (data : List UInt8 × ℕ) : Segment := ⟨.eci, 0, data.1, data.2⟩
  if assignVal < 0 then none
  else
    let val := assignVal.toNat
    if val < 1 <<< 7 then
      some (eci (appendBitsToBuffer val 8 (clear buf 1) 0))
    else if val < 1 <<< 14 then
      let head := appendBitsToBuffer 2 2 (clear buf 2) 0
      some (eci (appendBitsToBuffer val 14 head.1 head.2))
    else if val < 1000000 then
      let head := appendBitsToBuffer 6 3 (clear buf 3) 0
      let high := appendBitsToBuffer (val >>> 10) 11 head.1 head.2
      some (eci (appendBitsToBuffer (val &&& 0x3FF) 10 high.1 high.2))
    else none

/-! ### What appending does -/

/-- A buffer being filled: its bit length, the bits it holds, and the bytes behind the
cleared ones. -/
structure Filled (room : ℕ) (rest : List UInt8) (bits : List Bool) (p : List UInt8 × ℕ) :
    Prop where
  length_eq : p.2 = bits.length
  holds : Packed.Holds msb p.1 (8 * room) bits
  rest_eq : p.1.drop room = rest

theorem length_clear (buffer : List UInt8) (n : ℕ) : (clear buffer n).length = buffer.length := by
  rw [clear, List.length_append, List.length_replicate, List.length_drop]
  omega

theorem filled_clear {buffer : List UInt8} {n : ℕ} (h : n ≤ buffer.length) :
    Filled n (buffer.drop n) [] (clear buffer n, 0) where
  length_eq := rfl
  holds := by
    rw [clear, Nat.min_eq_left h]
    exact holds_nil msb n _
  rest_eq := by
    rw [clear, Nat.min_eq_left h]
    exact List.drop_left' (List.length_replicate)

theorem and_one_toNat (val i : ℕ) : (val >>> i) &&& 1 = (val.testBit i).toNat := by
  rw [Nat.toNat_testBit, Nat.and_one_is_mod, Nat.shiftRight_eq_div_pow]

theorem modify_eq_orBit (buffer : List UInt8) (val i bitLen : ℕ) :
    (buffer.modify (bitLen >>> 3) fun x =>
      x ||| UInt8.ofNat (((val >>> i) &&& 1) <<< (7 - (bitLen &&& 7)))) =
      orBit msb buffer bitLen (val.testBit i) := by
  have hmod : bitLen &&& 7 = bitLen % 8 := Nat.and_two_pow_sub_one_eq_mod bitLen 3
  rw [and_one_toNat, hmod, Nat.shiftRight_eq_div_pow]
  rfl

theorem drop_orBit (o : Order) {buffer : List UInt8} {i n : ℕ} (b : Bool) (h : i < 8 * n) :
    (orBit o buffer i b).drop n = buffer.drop n := by
  have hbyte : i / 8 < n := by omega
  rw [orBit, List.drop_modify_of_lt _ _ _ _ hbyte]

/-- Appending keeps the invariant, and the stream grows by the bits of the value. -/
theorem Filled.append {room bitLen n : ℕ} {rest buffer : List UInt8} {bits : List Bool} (val : ℕ)
    (h : Filled room rest bits (buffer, bitLen)) (hroom : bits.length + n ≤ 8 * room) :
    Filled room rest (bits ++ msbFirst n val) (appendBitsToBuffer val n buffer bitLen) := by
  induction n generalizing bits bitLen buffer with
  | zero => simpa [appendBitsToBuffer, msbFirst] using h
  | succ n ih =>
      have hlen : bitLen = bits.length := h.length_eq
      have hlt : bits.length < 8 * room := by omega
      have hnext : Filled room rest (bits ++ [val.testBit n])
          (orBit msb buffer bitLen (val.testBit n), bitLen + 1) := by
        refine ⟨?_, ?_, ?_⟩
        · rw [hlen, List.length_append, List.length_singleton]
        · rw [hlen]
          exact h.holds.push _ hlt
        · rw [hlen, drop_orBit msb _ hlt]
          exact h.rest_eq
      rw [appendBitsToBuffer, modify_eq_orBit, msbFirst, List.append_cons]
      exact ih hnext (by rw [List.length_append, List.length_singleton]; omega)

/-! ### Payloads -/

/-- What a segment says. -/
inductive Payload
  | numeric (text : List UInt8)
  | alphanumeric (text : List UInt8)
  | byte (data : List UInt8)
  | kanji (codes : List ℕ)
  | eci (assignVal : ℕ)
  deriving DecidableEq, Repr

/-- The digits a text spells under a code. -/
def codes (code : UInt8 → Option ℕ) (text : List UInt8) : List ℕ :=
  text.map fun c => (code c).getD 0

/-- The designator of a character set, in one, two or three bytes. -/
def eciBits (assignVal : ℕ) : List Bool :=
  if assignVal < 2 ^ 7 then msbFirst 8 assignVal
  else if assignVal < 2 ^ 14 then msbFirst 2 2 ++ msbFirst 14 assignVal
  else msbFirst 3 6 ++ msbFirst 21 assignVal

namespace Payload

def mode : Payload → Mode
  | numeric _ => .numeric
  | alphanumeric _ => .alphanumeric
  | byte _ => .byte
  | kanji _ => .kanji
  | eci _ => .eci

def count : Payload → ℕ
  | numeric text => text.length
  | alphanumeric text => text.length
  | byte data => data.length
  | kanji codes => codes.length
  | eci _ => 0

/-- The characters are ones the mode can say. -/
def WF : Payload → Prop
  | numeric text => isNumeric text = true
  | alphanumeric text => isAlphanumeric text = true
  | byte _ => True
  | kanji codes => ∀ c ∈ codes, c < 2 ^ 13
  | eci assignVal => assignVal < 1000000

def bits : Payload → List Bool
  | numeric text => numericRadix.pack (codes numericCode text) 0 0
  | alphanumeric text => alphanumericRadix.pack (codes alphanumericCode text) 0 0
  | byte data => data.flatMap fun b => msbFirst 8 b.toNat
  | kanji codes => codes.flatMap (msbFirst 13)
  | eci assignVal => eciBits assignVal

end Payload

/-- The segment says the payload, and its data lies inside its buffer. -/
structure Segment.Carries (seg : Segment) (p : Payload) : Prop where
  wf : p.WF
  mode_eq : seg.mode = p.mode
  numChars_eq : seg.numChars = p.count
  stream_eq : stream msb seg.data seg.bitLength = p.bits
  inside : seg.bitLength ≤ 8 * seg.data.length

theorem Segment.Carries.bitLength_eq {seg : Segment} {p : Payload} (h : seg.Carries p) :
    seg.bitLength = p.bits.length := by
  rw [← h.stream_eq, length_stream]

/-! ### The makers -/

section

variable {r : Radix} {code : UInt8 → Option ℕ}

theorem packChars_filled {text : List UInt8} (hcode : ∀ c ∈ text, (code c).isSome)
    (acc count : ℕ) {room bitLen : ℕ} {rest buffer : List UInt8} {bits : List Bool}
    (h : Filled room rest bits (buffer, bitLen))
    (hroom : bits.length + (r.pack (codes code text) acc count).length ≤ 8 * room) :
    ∃ p, packChars r code text acc count buffer bitLen = some p ∧
      Filled room rest (bits ++ r.pack (codes code text) acc count) p := by
  induction text generalizing acc count bitLen buffer bits with
  | nil =>
      refine ⟨_, rfl, ?_⟩
      rw [codes, List.map_nil, Radix.pack] at hroom ⊢
      by_cases hpos : 0 < count
      · rw [if_pos hpos, length_msbFirst] at hroom
        rw [if_pos hpos, if_pos hpos]
        exact h.append acc hroom
      · rw [if_neg hpos, if_neg hpos, List.append_nil]
        exact h
  | cons c text ih =>
      obtain ⟨d, hd⟩ := Option.isSome_iff_exists.mp (hcode c (by simp))
      have hcodes : codes code (c :: text) = d :: codes code text := by
        rw [codes, List.map_cons, hd]
        rfl
      have htext : ∀ c ∈ text, (code c).isSome := fun x hx => hcode x (by simp [hx])
      rw [hcodes, Radix.pack] at hroom ⊢
      rw [packChars, hd, Option.bind_some]
      by_cases hfull : count + 1 = r.group
      · rw [if_pos hfull] at hroom ⊢
        rw [List.length_append, length_msbFirst] at hroom
        have happ := h.append (n := r.full) (acc * r.base + d) (by omega)
        rw [if_pos hfull, ← List.append_assoc]
        refine ih htext 0 0 happ ?_
        rw [List.length_append, length_msbFirst]
        omega
      · rw [if_neg hfull] at hroom ⊢
        rw [if_neg hfull]
        exact ih htext _ _ h hroom

/-- A text of legal characters whose bits fit makes a segment that holds them, and no
byte behind them is touched. -/
theorem makeText_eq {mode : Mode} {text buf : List UInt8} {n : ℕ}
    (hcode : ∀ c ∈ text, (code c).isSome) (hlen : calcSegmentBitLength mode text.length = some n)
    (hbits : (r.pack (codes code text) 0 0).length = n) (hbuf : (n + 7) / 8 ≤ buf.length) :
    ∃ data, makeText mode r code text buf = some ⟨mode, text.length, data, n⟩ ∧
      Filled ((n + 7) / 8) (buf.drop ((n + 7) / 8)) (r.pack (codes code text) 0 0) (data, n) := by
  have hclear : (if 0 < n then clear buf ((n + 7) / 8) else buf) = clear buf ((n + 7) / 8) := by
    by_cases hpos : 0 < n
    · rw [if_pos hpos]
    · obtain rfl : n = 0 := by omega
      rfl
  obtain ⟨⟨data, len⟩, hpack, hfill⟩ :=
    packChars_filled hcode 0 0 (filled_clear hbuf) (by rw [hbits, List.length_nil]; omega)
  rw [List.nil_append] at hfill
  have hn : len = n := hfill.length_eq.trans hbits
  rw [hn] at hpack hfill
  refine ⟨data, ?_, hfill⟩
  simp only [makeText, hlen, hclear, hpack, Option.bind_eq_bind, Option.bind_some, if_true]
  rfl

/-! #### Lengths

`calcSegmentBitLength` rounds up a product, and the groups take that many bits. -/

theorem length_numeric_pack (ds : List ℕ) :
    (numericRadix.pack ds 0 0).length = (ds.length * 10 + 2) / 3 := by
  have hgroup : numericRadix.group = 3 := rfl
  have hfull : numericRadix.full = 10 := rfl
  have hpart : ∀ k, numericRadix.part k = k * 3 + 1 := fun _ => rfl
  rw [Radix.length_pack, hgroup, hfull, hpart]
  by_cases h : ds.length % 3 = 0
  · rw [if_pos h]
    omega
  · rw [if_neg h]
    omega

theorem length_alphanumeric_pack (ds : List ℕ) :
    (alphanumericRadix.pack ds 0 0).length = (ds.length * 11 + 1) / 2 := by
  have hgroup : alphanumericRadix.group = 2 := rfl
  have hfull : alphanumericRadix.full = 11 := rfl
  have hpart : ∀ k, alphanumericRadix.part k = 6 := fun _ => rfl
  rw [Radix.length_pack, hgroup, hfull, hpart]
  by_cases h : ds.length % 2 = 0
  · rw [if_pos h]
    omega
  · rw [if_neg h]
    omega

theorem length_flatMap_msbFirst {α : Type*} (w : ℕ) (f : α → ℕ) (xs : List α) :
    (xs.flatMap fun x => msbFirst w (f x)).length = xs.length * w := by
  induction xs with
  | nil => simp
  | cons x xs ih =>
      rw [List.flatMap_cons, List.length_append, length_msbFirst, ih, List.length_cons,
        Nat.succ_mul, Nat.add_comm]

/-- Except for a character set designator, the length computed from the number of
characters is the length of the bits. -/
theorem calcSegmentBitLength_payload {p : Payload} (hp : p.mode ≠ .eci) :
    calcSegmentBitLength p.mode p.count =
      if int16Max < p.count ∨ int16Max < p.bits.length then none else some p.bits.length := by
  have hlen : ∀ {result : ℕ}, p.bits.length = result → (if int16Max < p.count then none else
      (some result).bind fun result => if int16Max < result then none else some result) =
      if int16Max < p.count ∨ int16Max < p.bits.length then none else some p.bits.length := by
    intro result hresult
    rw [Option.bind_some, hresult]
    by_cases hchars : int16Max < p.count
    · rw [if_pos hchars, if_pos (Or.inl hchars)]
    · by_cases hbits : int16Max < result
      · rw [if_neg hchars, if_pos hbits, if_pos (Or.inr hbits)]
      · rw [if_neg hchars, if_neg hbits, if_neg (not_or.mpr ⟨hchars, hbits⟩)]
  cases p with
  | numeric text =>
      exact hlen (by rw [Payload.bits, length_numeric_pack, codes, List.length_map]; rfl)
  | alphanumeric text =>
      exact hlen (by rw [Payload.bits, length_alphanumeric_pack, codes, List.length_map]; rfl)
  | byte data => exact hlen (length_flatMap_msbFirst 8 UInt8.toNat data)
  | kanji codes => exact hlen (length_flatMap_msbFirst 13 id codes)
  | eci assignVal => exact absurd rfl hp

/-! #### Every maker carries its payload -/

theorem isSome_numericCode {text : List UInt8} (h : isNumeric text = true) :
    ∀ c ∈ text, (numericCode c).isSome := by
  intro c hc
  have hdigit := List.all_eq_true.mp h c hc
  simp only [Bool.not_or, Bool.and_eq_true, Bool.not_eq_true', decide_eq_false_iff_not,
    UInt8.not_lt] at hdigit
  rw [numericCode, if_pos hdigit]
  rfl

theorem isSome_alphanumericCode {text : List UInt8} (h : isAlphanumeric text = true) :
    ∀ c ∈ text, (alphanumericCode c).isSome := fun c hc => List.all_eq_true.mp h c hc

theorem Filled.carries {mode : Mode} {n room numChars : ℕ} {rest data : List UInt8} {p : Payload}
    (h : Filled room rest p.bits (data, n)) (hp : p.WF) (hmode : mode = p.mode)
    (hcount : numChars = p.count) : Segment.Carries ⟨mode, numChars, data, n⟩ p where
  wf := hp
  mode_eq := hmode
  numChars_eq := hcount
  stream_eq := by
    have hlen : n = p.bits.length := h.length_eq
    show stream msb data n = p.bits
    rw [hlen]
    exact h.holds.stream_eq
  inside := by
    have hlen : n = p.bits.length := h.length_eq
    show n ≤ 8 * data.length
    rw [hlen]
    exact h.holds.fits.trans h.holds.inside

/-- The maker returns a segment of the payload, and leaves the bytes behind it alone. -/
def Makes (made : Option Segment) (p : Payload) (buf : List UInt8) : Prop :=
  ∃ seg, made = some seg ∧ seg.Carries p ∧
    seg.data.drop ((p.bits.length + 7) / 8) = buf.drop ((p.bits.length + 7) / 8)

theorem length_of_calcSegmentBitLength {p : Payload} {n : ℕ} (hp : p.mode ≠ .eci)
    (h : calcSegmentBitLength p.mode p.count = some n) : p.bits.length = n := by
  rw [calcSegmentBitLength_payload hp] at h
  by_cases hlong : int16Max < p.count ∨ int16Max < p.bits.length
  · rw [if_pos hlong] at h
    exact absurd h (by simp)
  · rw [if_neg hlong] at h
    exact Option.some.inj h

theorem length_le_of_calcSegmentBufferSize {p : Payload} {n : ℕ} {buf : List UInt8}
    (hcalc : calcSegmentBitLength p.mode p.count = some n)
    (hbuf : calcSegmentBufferSize p.mode p.count ≤ buf.length) : (n + 7) / 8 ≤ buf.length := by
  rwa [calcSegmentBufferSize, hcalc] at hbuf

section

variable {buf : List UInt8}

theorem makes_text {r : Radix} {code : UInt8 → Option ℕ} {text : List UInt8} {p : Payload} {n : ℕ}
    (hp : p.WF) (hmode : p.mode ≠ .eci) (hcount : p.count = text.length)
    (hbits : p.bits = r.pack (codes code text) 0 0) (hcode : ∀ c ∈ text, (code c).isSome)
    (hcalc : calcSegmentBitLength p.mode p.count = some n)
    (hbuf : calcSegmentBufferSize p.mode p.count ≤ buf.length) :
    Makes (makeText p.mode r code text buf) p buf := by
  have hroom := length_le_of_calcSegmentBufferSize hcalc hbuf
  have hlen := length_of_calcSegmentBitLength hmode hcalc
  rw [hcount] at hcalc
  obtain ⟨data, hmake, hfill⟩ := makeText_eq hcode hcalc (by rw [← hbits, hlen]) hroom
  rw [← hbits] at hfill
  refine ⟨_, hmake, hfill.carries hp rfl hcount.symm, ?_⟩
  rw [hlen]
  exact hfill.rest_eq

theorem makes_numeric {digits : List UInt8} (h : isNumeric digits = true)
    {n : ℕ} (hcalc : calcSegmentBitLength .numeric digits.length = some n)
    (hbuf : calcSegmentBufferSize .numeric digits.length ≤ buf.length) :
    Makes (makeNumeric digits buf) (.numeric digits) buf :=
  makes_text (p := .numeric digits) h (by simp [Payload.mode]) rfl rfl (isSome_numericCode h)
    hcalc hbuf

theorem makes_alphanumeric {text : List UInt8} (h : isAlphanumeric text = true)
    {n : ℕ} (hcalc : calcSegmentBitLength .alphanumeric text.length = some n)
    (hbuf : calcSegmentBufferSize .alphanumeric text.length ≤ buf.length) :
    Makes (makeAlphanumeric text buf) (.alphanumeric text) buf :=
  makes_text (p := .alphanumeric text) h (by simp [Payload.mode]) rfl rfl
    (isSome_alphanumericCode h) hcalc hbuf

theorem carries_byte (data rest : List UInt8) :
    Segment.Carries ⟨.byte, data.length, data ++ rest, data.length * 8⟩ (.byte data) where
  wf := trivial
  mode_eq := rfl
  numChars_eq := rfl
  stream_eq := by
    show stream msb (data ++ rest) (data.length * 8) = _
    rw [Nat.mul_comm]
    exact stream_append data rest
  inside := by
    show data.length * 8 ≤ 8 * (data ++ rest).length
    rw [List.length_append]
    omega

theorem makes_byte {data : List UInt8} {n : ℕ}
    (hcalc : calcSegmentBitLength .byte data.length = some n) :
    Makes (makeBytes data buf) (.byte data) buf := by
  have hlen : (Payload.byte data).bits.length = n :=
    length_of_calcSegmentBitLength (by simp [Payload.mode]) hcalc
  have hn : (Payload.byte data).bits.length = data.length * 8 :=
    length_flatMap_msbFirst 8 UInt8.toNat data
  refine ⟨⟨.byte, data.length, data ++ buf.drop data.length, data.length * 8⟩, ?_,
    carries_byte data _, ?_⟩
  · rw [makeBytes, hcalc, ← hlen, hn]
    rfl
  · have hbytes : (data.length * 8 + 7) / 8 = data.length := by omega
    rw [hn, hbytes]
    exact List.drop_left' rfl

theorem makes_eci_of_filled (room : ℕ) {n : ℕ} {data : List UInt8} {assignVal : ℕ}
    (h : Filled room (buf.drop room) (eciBits assignVal) (data, n)) (hval : assignVal < 1000000)
    (hlen : (eciBits assignVal).length = 8 * room) :
    Makes (some ⟨.eci, 0, data, n⟩) (.eci assignVal) buf := by
  refine ⟨_, rfl, h.carries (p := .eci assignVal) hval rfl rfl, ?_⟩
  have hbytes : (8 * room + 7) / 8 = room := by omega
  rw [Payload.bits, hlen, hbytes]
  exact h.rest_eq

theorem makes_eci {assignVal : ℕ} (h : assignVal < 1000000)
    (hbuf : calcSegmentBufferSize .eci 0 ≤ buf.length) :
    Makes (makeEci assignVal buf) (.eci assignVal) buf := by
  have hthree : 3 ≤ buf.length := hbuf
  have hpos : ¬ (assignVal : ℤ) < 0 := by omega
  have hseven : 1 <<< 7 = 2 ^ 7 := rfl
  have hfourteen : 1 <<< 14 = 2 ^ 14 := rfl
  rw [makeEci, if_neg hpos, Int.toNat_natCast, hseven, hfourteen]
  by_cases hone : assignVal < 2 ^ 7
  · rw [if_pos hone]
    have hbits : eciBits assignVal = [] ++ msbFirst 8 assignVal := if_pos hone
    refine makes_eci_of_filled 1 ?_ h (by rw [hbits]; simp)
    rw [hbits]
    exact (filled_clear (by omega)).append assignVal (by simp)
  · rw [if_neg hone]
    by_cases htwo : assignVal < 2 ^ 14
    · rw [if_pos htwo]
      have hbits : eciBits assignVal = [] ++ msbFirst 2 2 ++ msbFirst 14 assignVal := by
        rw [eciBits, if_neg hone, if_pos htwo, List.nil_append]
      refine makes_eci_of_filled 2 ?_ h (by rw [hbits]; simp)
      rw [hbits]
      exact ((filled_clear (by omega)).append 2 (by simp)).append assignVal (by simp)
    · rw [if_neg htwo, if_pos h]
      have hbits : eciBits assignVal = [] ++ msbFirst 3 6 ++ msbFirst 11 (assignVal >>> 10) ++
          msbFirst 10 (assignVal &&& 0x3FF) := by
        have hlow : assignVal &&& 0x3FF = assignVal % 2 ^ 10 :=
          Nat.and_two_pow_sub_one_eq_mod assignVal 10
        rw [eciBits, if_neg hone, if_neg htwo, hlow, List.nil_append, List.append_assoc,
          ← msbFirst_add 11 10]
      refine makes_eci_of_filled 3 ?_ h (by rw [hbits]; simp)
      rw [hbits]
      exact (((filled_clear (by omega)).append 6 (by simp)).append _ (by simp)).append _ (by simp)

end

end

/-- **Every maker says what it was given**: the segment carries the payload, and no byte
behind it in the buffer is touched. -/
theorem makers_carry (text buf : List UInt8) (assignVal : ℕ) :
    (isNumeric text = true → (calcSegmentBitLength .numeric text.length).isSome →
      calcSegmentBufferSize .numeric text.length ≤ buf.length →
        Makes (makeNumeric text buf) (.numeric text) buf) ∧
    (isAlphanumeric text = true → (calcSegmentBitLength .alphanumeric text.length).isSome →
      calcSegmentBufferSize .alphanumeric text.length ≤ buf.length →
        Makes (makeAlphanumeric text buf) (.alphanumeric text) buf) ∧
    ((calcSegmentBitLength .byte text.length).isSome →
      Makes (makeBytes text buf) (.byte text) buf) ∧
    (assignVal < 1000000 → calcSegmentBufferSize .eci 0 ≤ buf.length →
      Makes (makeEci assignVal buf) (.eci assignVal) buf) := by
  refine ⟨fun h hcalc hbuf => ?_, fun h hcalc hbuf => ?_, fun hcalc => ?_, makes_eci⟩
  · obtain ⟨n, hn⟩ := Option.isSome_iff_exists.mp hcalc
    exact makes_numeric h hn hbuf
  · obtain ⟨n, hn⟩ := Option.isSome_iff_exists.mp hcalc
    exact makes_alphanumeric h hn hbuf
  · obtain ⟨n, hn⟩ := Option.isSome_iff_exists.mp hcalc
    exact makes_byte hn

end Shirokumakun.Qr
