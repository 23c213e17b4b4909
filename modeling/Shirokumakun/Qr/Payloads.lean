/-
Payloads: the bits of a symbol's segments read back.

A reader sees one string of bits.  It takes a mode, a count whose width depends on the
mode and on the version, and as many characters as the count says; a zero mode, or
fewer than four bits, ends the text.  Nothing in the string marks where a segment ends,
so the reader and the encoder have to agree on every width, and that is what is proved
here: from the bits of any segments, with any padding that begins like a terminator
behind them, the reader gets the payloads of the segments, in order, and nothing else.

The encoder does not check a count against its field when it writes it.  `getTotalBits`
does, beforehand, and `getTotalBits_eq_some_iff` says that this is all it checks besides
the total.
-/
import Shirokumakun.Qr.Segments

namespace Shirokumakun.Qr

open Packed

/-- The bits of one segment, as they stand in a symbol of the version. -/
def segmentBits (version : ℕ) (seg : Segment) : List Bool :=
  msbFirst 4 seg.mode.value ++ msbFirst (numCharCountBits seg.mode version) seg.numChars ++
    stream msb seg.data seg.bitLength

def segmentsBits (version : ℕ) (segs : List Segment) : List Bool :=
  segs.flatMap (segmentBits version)

/-- Every count fits its field. -/
def CountsFit (version : ℕ) (segs : List Segment) : Prop :=
  ∀ seg ∈ segs, seg.numChars < 2 ^ numCharCountBits seg.mode version

/-! ### How many bits there are -/

theorem length_segmentBits (version : ℕ) (seg : Segment) :
    (segmentBits version seg).length = 4 + numCharCountBits seg.mode version + seg.bitLength := by
  simp [segmentBits, Nat.add_assoc]

theorem addTotalBits_eq_some_iff {version result n : ℕ} {segs : List Segment} :
    addTotalBits version segs result = some n ↔
      CountsFit version segs ∧ n = result + (segmentsBits version segs).length ∧
        (segs ≠ [] → n ≤ int16Max) := by
  induction segs generalizing result with
  | nil => simp [addTotalBits, CountsFit, segmentsBits, eq_comm]
  | cons seg segs ih =>
      have hlen := length_segmentBits version seg
      have hbits : (segmentsBits version (seg :: segs)).length =
          (segmentBits version seg).length + (segmentsBits version segs).length := by
        rw [segmentsBits, List.flatMap_cons, List.length_append]
        rfl
      have hfit : CountsFit version (seg :: segs) ↔
          seg.numChars < 2 ^ numCharCountBits seg.mode version ∧ CountsFit version segs := by
        simp [CountsFit]
      rw [addTotalBits, hfit, hbits]
      by_cases hcount : 2 ^ numCharCountBits seg.mode version ≤ seg.numChars
      · rw [if_pos hcount]
        simp [Nat.not_lt.mpr hcount]
      · rw [if_neg hcount]
        have hlt := Nat.lt_of_not_le hcount
        by_cases hlong : int16Max < result + (4 + numCharCountBits seg.mode version + seg.bitLength)
        · rw [if_pos hlong]
          refine ⟨fun h => absurd h (by simp), ?_⟩
          rintro ⟨-, hn, hmax⟩
          have := hmax (by simp)
          omega
        · rw [if_neg hlong, ih]
          constructor
          · rintro ⟨hrest, hn, hmax⟩
            refine ⟨⟨hlt, hrest⟩, by omega, fun _ => ?_⟩
            by_cases hnil : segs = []
            · subst hnil
              simp [segmentsBits] at hn
              omega
            · exact hmax hnil
          · rintro ⟨⟨-, hrest⟩, hn, hmax⟩
            exact ⟨hrest, by omega, fun _ => hmax (by simp)⟩

/-- The sum of the source is the length of the bits, and -1 stands for a count that does
not fit its field or a length of more than 32767. -/
theorem getTotalBits_eq_some_iff {version n : ℕ} {segs : List Segment} :
    getTotalBits segs version = some n ↔
      CountsFit version segs ∧ n = (segmentsBits version segs).length ∧ n ≤ int16Max := by
  rw [getTotalBits, addTotalBits_eq_some_iff, Nat.zero_add]
  refine and_congr_right fun _ => and_congr_right fun hn => ⟨fun hmax => ?_, fun hmax _ => hmax⟩
  by_cases hnil : segs = []
  · subst hnil
    rw [hn]
    exact Nat.zero_le _
  · exact hmax hnil

/-! ### The reader -/

def Mode.ofValue : ℕ → Option Mode
  | 1 => some .numeric
  | 2 => some .alphanumeric
  | 4 => some .byte
  | 8 => some .kanji
  | 7 => some .eci
  | _ => none

def numericChar (d : ℕ) : UInt8 := UInt8.ofNat (48 + d)

def alphanumericChar (d : ℕ) : UInt8 := alphanumericCharset.getD d 0

/-- Read `n` numbers of `w` bits. -/
def readNats (w : ℕ) : ℕ → List Bool → Option (List ℕ × List Bool)
  | 0, bits => some ([], bits)
  | n + 1, bits =>
      (readNat w bits).bind fun p => (readNats w n p.2).map fun q => (p.1 :: q.1, q.2)

/-- Read a character set designator: the ones in front say how many bytes it has. -/
def readEci (bits : List Bool) : Option (ℕ × List Bool) :=
  match bits with
  | false :: bits => readNat 7 bits
  | true :: false :: bits => readNat 14 bits
  | true :: true :: false :: bits => readNat 21 bits
  | _ => none

def readPayload (mode : Mode) (count : ℕ) (bits : List Bool) : Option (Payload × List Bool) :=
  match mode with
  | .numeric =>
      (numericRadix.unpack count bits).map fun p => (.numeric (p.1.map numericChar), p.2)
  | .alphanumeric =>
      (alphanumericRadix.unpack count bits).map fun p =>
        (.alphanumeric (p.1.map alphanumericChar), p.2)
  | .byte => (readNats 8 count bits).map fun p => (.byte (p.1.map UInt8.ofNat), p.2)
  | .kanji => (readNats 13 count bits).map fun p => (.kanji p.1, p.2)
  | .eci => (readEci bits).map fun p => (.eci p.1, p.2)

/-- Read segments up to a terminator, `fuel` bounding their number. -/
def readSegments (version : ℕ) : ℕ → List Bool → Option (List Payload)
  | 0, _ => none
  | fuel + 1, bits =>
      match readNat 4 bits with
      | none => some []
      | some (value, bits) =>
          if value = 0 then some []
          else
            (Mode.ofValue value).bind fun mode =>
              (readNat (numCharCountBits mode version) bits).bind fun count =>
                (readPayload mode count.1 count.2).bind fun payload =>
                  (readSegments version fuel payload.2).map (payload.1 :: ·)

/-- A string that reads as the end of the segments: four zeros, or too short for a mode. -/
def Terminates (pad : List Bool) : Prop := pad.length < 4 ∨ ∃ rest, pad = msbFirst 4 0 ++ rest

/-! ### Reading one payload -/

theorem numericChar_of_code {c : UInt8} {d : ℕ} (h : numericCode c = some d) :
    numericChar d = c ∧ d < 10 := by
  rw [numericCode] at h
  by_cases hc : 48 ≤ c ∧ c ≤ 57
  · rw [if_pos hc, Option.some.injEq] at h
    have hlow : 48 ≤ c.toNat := hc.1
    have hhigh : c.toNat ≤ 57 := hc.2
    have hd : 48 + d = c.toNat := by omega
    refine ⟨?_, by omega⟩
    rw [numericChar, hd, UInt8.ofNat_toNat]
  · rw [if_neg hc] at h
    exact absurd h (by simp)

theorem alphanumericChar_of_code {c : UInt8} {d : ℕ} (h : alphanumericCode c = some d) :
    alphanumericChar d = c ∧ d < 45 := by
  obtain ⟨hlt, hc, -⟩ := List.idxOf?_eq_some_iff.mp h
  refine ⟨?_, hlt⟩
  rw [alphanumericChar, List.getD_eq_getElem _ _ hlt]
  exact hc

section

variable {code : UInt8 → Option ℕ} {char : ℕ → UInt8} {base : ℕ}

theorem map_codes (hchar : ∀ {c d}, code c = some d → char d = c ∧ d < base) {text : List UInt8}
    (hcode : ∀ c ∈ text, (code c).isSome) :
    (codes code text).map char = text ∧ ∀ d ∈ codes code text, d < base := by
  induction text with
  | nil => simp [codes]
  | cons c text ih =>
      obtain ⟨d, hd⟩ := Option.isSome_iff_exists.mp (hcode c (by simp))
      obtain ⟨hmap, hlt⟩ := ih fun x hx => hcode x (by simp [hx])
      have hcodes : codes code (c :: text) = d :: codes code text := by
        rw [codes, List.map_cons, hd]
        rfl
      rw [hcodes]
      refine ⟨?_, ?_⟩
      · rw [List.map_cons, hmap, (hchar hd).1]
      · intro x hx
        rcases List.mem_cons.mp hx with rfl | hx
        · exact (hchar hd).2
        · exact hlt x hx

end

theorem length_codes (code : UInt8 → Option ℕ) (text : List UInt8) :
    (codes code text).length = text.length := List.length_map ..

theorem readNats_flatMap {w : ℕ} {ns : List ℕ} (h : ∀ n ∈ ns, n < 2 ^ w) (rest : List Bool) :
    readNats w ns.length (ns.flatMap (msbFirst w) ++ rest) = some (ns, rest) := by
  induction ns with
  | nil => rfl
  | cons n ns ih =>
      rw [List.length_cons, List.flatMap_cons, List.append_assoc, readNats,
        readNat_append (h n (by simp)), Option.bind_some, ih fun x hx => h x (by simp [hx])]
      rfl

theorem readEci_eciBits {assignVal : ℕ} (h : assignVal < 1000000) (rest : List Bool) :
    readEci (eciBits assignVal ++ rest) = some (assignVal, rest) := by
  rw [eciBits]
  by_cases hone : assignVal < 2 ^ 7
  · have hbits : msbFirst 8 assignVal = false :: msbFirst 7 assignVal := by
      rw [msbFirst, Nat.testBit_lt_two_pow hone]
    rw [if_pos hone, hbits]
    exact readNat_append hone rest
  · rw [if_neg hone]
    by_cases htwo : assignVal < 2 ^ 14
    · rw [if_pos htwo]
      exact readNat_append htwo rest
    · rw [if_neg htwo]
      exact readNat_append (h.trans (by decide)) rest

/-- Reading as many characters as the payload has gives the payload. -/
theorem readPayload_bits {p : Payload} (h : p.WF) (rest : List Bool) :
    readPayload p.mode p.count (p.bits ++ rest) = some (p, rest) := by
  cases p with
  | numeric text =>
      obtain ⟨hmap, hlt⟩ := map_codes numericChar_of_code (isSome_numericCode h)
      rw [Payload.mode, readPayload, Payload.count, Payload.bits, ← length_codes numericCode,
        numericRadix.unpack_pack hlt, Option.map_some, hmap]
  | alphanumeric text =>
      obtain ⟨hmap, hlt⟩ := map_codes alphanumericChar_of_code (isSome_alphanumericCode h)
      rw [Payload.mode, readPayload, Payload.count, Payload.bits, ← length_codes alphanumericCode,
        alphanumericRadix.unpack_pack hlt, Option.map_some, hmap]
  | byte data =>
      have hbits : (Payload.byte data).bits = (data.map UInt8.toNat).flatMap (msbFirst 8) := by
        rw [Payload.bits, List.flatMap_map]
      have hlt : ∀ n ∈ data.map UInt8.toNat, n < 2 ^ 8 := by
        intro n hn
        obtain ⟨b, -, rfl⟩ := List.mem_map.mp hn
        exact b.toNat_lt
      have hcount : (Payload.byte data).count = (data.map UInt8.toNat).length :=
        (List.length_map _).symm
      have hmap : (data.map UInt8.toNat).map UInt8.ofNat = data := by
        rw [List.map_map]
        exact List.map_id'' (fun b => UInt8.ofNat_toNat) data
      rw [Payload.mode, readPayload, hcount, hbits, readNats_flatMap hlt, Option.map_some, hmap]
  | kanji codes =>
      rw [Payload.mode, readPayload, Payload.count, Payload.bits, readNats_flatMap h,
        Option.map_some]
  | eci assignVal =>
      rw [Payload.mode, readPayload, Payload.bits, readEci_eciBits h, Option.map_some]

/-! ### Reading the segments -/

theorem Mode.ofValue_value (mode : Mode) : Mode.ofValue mode.value = some mode := by
  cases mode <;> rfl

theorem Mode.value_pos (mode : Mode) : mode.value ≠ 0 := by
  cases mode <;> decide

theorem Mode.value_lt (mode : Mode) : mode.value < 2 ^ 4 := by
  cases mode <;> decide

theorem readSegments_terminates {version fuel : ℕ} {pad : List Bool} (h : Terminates pad) :
    readSegments version (fuel + 1) pad = some [] := by
  rcases h with hshort | ⟨rest, rfl⟩
  · have hnone : readNat 4 pad = none := if_neg (by omega)
    rw [readSegments, hnone]
  · rw [readSegments, readNat_append (by decide)]
    rfl

/-- From the bits of the segments, and anything behind them that reads as their end, the
reader gets the payloads. -/
theorem readSegments_segmentsBits {version fuel : ℕ} {segs : List Segment}
    {payloads : List Payload} (h : List.Forall₂ Segment.Carries segs payloads)
    (hfit : CountsFit version segs) (hfuel : segs.length < fuel) {pad : List Bool}
    (hpad : Terminates pad) :
    readSegments version fuel (segmentsBits version segs ++ pad) = some payloads := by
  induction h generalizing fuel with
  | nil =>
      obtain ⟨fuel, rfl⟩ := Nat.exists_eq_succ_of_ne_zero (Nat.ne_zero_of_lt hfuel)
      exact readSegments_terminates hpad
  | @cons seg payload segs payloads hcarries hrest ih =>
      obtain ⟨fuel, rfl⟩ := Nat.exists_eq_succ_of_ne_zero (Nat.ne_zero_of_lt hfuel)
      have hcount := hfit seg (by simp)
      have hsegs := ih (fun s hs => hfit s (by simp [hs])) (Nat.lt_of_succ_lt_succ hfuel)
      have hbits : segmentsBits version (seg :: segs) ++ pad =
          msbFirst 4 seg.mode.value ++ (msbFirst (numCharCountBits seg.mode version) seg.numChars ++
            (payload.bits ++ (segmentsBits version segs ++ pad))) := by
        rw [segmentsBits, List.flatMap_cons, segmentBits, hcarries.stream_eq]
        simp only [List.append_assoc]
        rfl
      have hpayload := readPayload_bits hcarries.wf (segmentsBits version segs ++ pad)
      rw [← hcarries.mode_eq, ← hcarries.numChars_eq] at hpayload
      rw [hbits, readSegments, readNat_append seg.mode.value_lt]
      simp only [if_neg seg.mode.value_pos, Mode.ofValue_value, Option.bind_some,
        readNat_append hcount, hpayload, hsegs, Option.map_some]

end Shirokumakun.Qr
