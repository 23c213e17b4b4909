/-
Encoding a text or a string of bytes.

A text is encoded in the densest of three modes that can say it; the empty text is no
segment at all.  Its segment is made in `tempBuffer`, the buffer the codewords will go to.
Before that the length is compared with what a buffer for the largest version holds, so a
text that cannot fit is refused before it is written (`encodeText_of_not_fits`), and the
refusal never meets a text that does fit.

`encodeText_spec` is what the header promises: within the range of versions the text is
encoded if any version can hold it, in the smallest that can, at a level no lower than the
one asked for; and what a reader gets from the symbol, damaged within the limits of its
codes, is the text.
-/
import Shirokumakun.Qr.Reading

namespace Shirokumakun.Qr

open Packed Hamming

/-! ### The functions -/

/-- The failure of a call: the size byte is set to an invalid value. -/
def failed (tempBuffer qrcode : List UInt8) : Option Encoded :=
  some ⟨false, tempBuffer, qrcode.set 0 0⟩

/-- The text is what stands before the terminating null. -/
def encodeText (text tempBuffer qrcode : List UInt8) (ecl : Ecc) (minVersion maxVersion : ℕ)
    (mask : Mask) (boostEcl : Bool) : Option Encoded :=
  let encode := fun (segs : List Segment) (tempBuffer : List UInt8) =>
    encodeSegmentsAdvanced segs ecl minVersion maxVersion mask boostEcl tempBuffer qrcode
  let textLen := text.length
  if textLen = 0 then encode [] tempBuffer
  else
    let bufLen := bufferLenForVersion maxVersion
    if isNumeric text then
      if bufLen < calcSegmentBufferSize .numeric textLen then failed tempBuffer qrcode
      else (makeNumeric text tempBuffer).bind fun seg => encode [seg] seg.data
    else if isAlphanumeric text then
      if bufLen < calcSegmentBufferSize .alphanumeric textLen then failed tempBuffer qrcode
      else (makeAlphanumeric text tempBuffer).bind fun seg => encode [seg] seg.data
    else if bufLen < textLen then failed tempBuffer qrcode
    else
      let tempBuffer := text ++ tempBuffer.drop textLen
      match calcSegmentBitLength .byte textLen with
      | none => failed tempBuffer qrcode
      | some bitLength => encode [⟨.byte, textLen, tempBuffer, bitLength⟩] tempBuffer

def encodeBinary (dataAndTemp : List UInt8) (dataLen : ℕ) (qrcode : List UInt8) (ecl : Ecc)
    (minVersion maxVersion : ℕ) (mask : Mask) (boostEcl : Bool) : Option Encoded :=
  match calcSegmentBitLength .byte dataLen with
  | none => failed dataAndTemp qrcode
  | some bitLength =>
      encodeSegmentsAdvanced [⟨.byte, dataLen, dataAndTemp, bitLength⟩] ecl minVersion maxVersion
        mask boostEcl dataAndTemp qrcode

/-! ### What is encoded -/

/-- The payloads of a text, in the mode the encoder takes for it. -/
def textPayloads (text : List UInt8) : List Payload :=
  if text.length = 0 then []
  else if isNumeric text then [.numeric text]
  else if isAlphanumeric text then [.alphanumeric text]
  else [.byte text]

/-- The characters payloads spell. -/
def Payload.text : Payload → List UInt8
  | numeric text => text
  | alphanumeric text => text
  | byte data => data
  | kanji _ => []
  | eci _ => []

theorem flatMap_textPayloads (text : List UInt8) :
    (textPayloads text).flatMap Payload.text = text := by
  rw [textPayloads]
  split_ifs with hempty
  · exact (List.length_eq_zero_iff.mp hempty).symm
  all_goals simp [Payload.text]

/-- The length of the payloads in a symbol of the version. -/
def payloadsLength (version : ℕ) (payloads : List Payload) : ℕ :=
  (payloads.map fun p => 4 + numCharCountBits p.mode version + p.bits.length).sum

/-- Every count fits its field, and all of them the level. -/
def PayloadsFit (version : ℕ) (ecl : Ecc) (payloads : List Payload) : Prop :=
  (∀ p ∈ payloads, p.count < 2 ^ numCharCountBits p.mode version) ∧
    payloadsLength version payloads ≤ int16Max ∧
    payloadsLength version payloads ≤ getNumDataCodewords version ecl * 8

section

variable {segs : List Segment} {payloads : List Payload} {version : ℕ}

theorem length_segmentsBits_eq (h : List.Forall₂ Segment.Carries segs payloads) (version : ℕ) :
    (segmentsBits version segs).length = payloadsLength version payloads := by
  induction h with
  | nil => rfl
  | @cons seg p segs payloads hcarries hrest ih =>
      rw [segmentsBits] at ih
      rw [segmentsBits, List.flatMap_cons, List.length_append, ih, length_segmentBits,
        hcarries.mode_eq, hcarries.bitLength_eq]
      rfl

theorem countsFit_iff (h : List.Forall₂ Segment.Carries segs payloads) :
    CountsFit version segs ↔ ∀ p ∈ payloads, p.count < 2 ^ numCharCountBits p.mode version := by
  induction h with
  | nil => simp [CountsFit]
  | @cons seg p segs payloads hcarries hrest ih =>
      rw [CountsFit] at ih
      rw [CountsFit, List.forall_mem_cons, List.forall_mem_cons, ih, hcarries.numChars_eq,
        hcarries.mode_eq]

/-- Whether segments fit depends on what they say only. -/
theorem fits_iff_payloadsFit (h : List.Forall₂ Segment.Carries segs payloads) (ecl : Ecc) :
    Fits segs version ecl ↔ PayloadsFit version ecl payloads := by
  rw [Fits, PayloadsFit, countsFit_iff h, length_segmentsBits_eq h]

/-! ### Encoding payloads -/

/-- The call encodes the payloads into the smallest version that holds them, and damaged or
not they are what is read. -/
def Encodes (call : Option Encoded) (ecl : Ecc) (minVersion maxVersion : ℕ)
    (payloads : List Payload) : Prop :=
  ∃ version ecl' mask e, call = some e ∧ e.ok = true ∧
    (minVersion ≤ version ∧ version ≤ maxVersion ∧ ecl.index ≤ ecl'.index ∧
      PayloadsFit version ecl' payloads ∧
      ∀ w, minVersion ≤ w → w < version → ¬ PayloadsFit w ecl payloads) ∧
    Symbol version e.qrcode ∧
    ∀ damaged, Damaged version ecl' mask e.qrcode damaged → Reads damaged payloads

variable {ecl : Ecc} {minVersion maxVersion : ℕ} {mask : Mask} {boostEcl : Bool}
  {tempBuffer qrcode : List UInt8}

theorem encodes_segments (hrange : Range minVersion maxVersion)
    (htemp : bufferLenForVersion maxVersion ≤ tempBuffer.length)
    (hqrcode : bufferLenForVersion maxVersion ≤ qrcode.length)
    (hcarries : List.Forall₂ Segment.Carries segs payloads)
    (hfits : ∃ w, minVersion ≤ w ∧ w ≤ maxVersion ∧ PayloadsFit w ecl payloads) :
    Encodes (encodeSegmentsAdvanced segs ecl minVersion maxVersion mask boostEcl tempBuffer qrcode)
      ecl minVersion maxVersion payloads := by
  obtain ⟨w, hw, hwmax, hwfits⟩ := hfits
  obtain ⟨version, ecl', k, e, ⟨hmin, hmax, hfit, hindex, hfirst⟩, he, hok, hshows⟩ :=
    encodeSegmentsAdvanced_spec mask boostEcl hrange htemp hqrcode
      ⟨w, hw, hwmax, (fits_iff_payloadsFit hcarries ecl).mpr hwfits⟩
  have hversion := hrange.version hmin hmax
  have hbuffer := bufferLenForVersion_mono hmax
  refine ⟨version, ecl', k, e, he, hok, ⟨hmin, hmax, hindex,
    (fits_iff_payloadsFit hcarries ecl').mp hfit, fun v hv hlt hvfits => ?_⟩, hshows.symbol,
    fun damaged hdamaged => ?_⟩
  · exact hfirst v hv hlt ((fits_iff_payloadsFit hcarries ecl).mpr hvfits)
  · exact reads_of_damaged hcarries hversion hfit (hbuffer.trans htemp) (hbuffer.trans hqrcode)
      hshows hdamaged

theorem refuses_segments (hrange : Range minVersion maxVersion)
    (hcarries : List.Forall₂ Segment.Carries segs payloads)
    (hnone : ∀ w, minVersion ≤ w → w ≤ maxVersion → ¬ PayloadsFit w ecl payloads) :
    encodeSegmentsAdvanced segs ecl minVersion maxVersion mask boostEcl tempBuffer qrcode =
      failed tempBuffer qrcode :=
  encodeSegmentsAdvanced_of_not_fits hrange fun w hmin hmax hfits =>
    hnone w hmin hmax ((fits_iff_payloadsFit hcarries ecl).mp hfits)

/-! ### The checks before a segment is made -/

theorem count_le_length {p : Payload} (hp : p.mode ≠ .eci) : p.count ≤ p.bits.length := by
  cases p with
  | numeric text =>
      rw [Payload.bits, length_numeric_pack, codes, List.length_map, Payload.count]
      omega
  | alphanumeric text =>
      rw [Payload.bits, length_alphanumeric_pack, codes, List.length_map, Payload.count]
      omega
  | byte data =>
      rw [Payload.bits, length_flatMap_msbFirst 8 UInt8.toNat data, Payload.count]
      omega
  | kanji codes =>
      have hlen : (codes.flatMap (msbFirst 13)).length = codes.length * 13 :=
        length_flatMap_msbFirst 13 id codes
      rw [Payload.bits, Payload.count, hlen]
      omega
  | eci assignVal => exact absurd rfl hp

theorem payloadsLength_singleton (version : ℕ) (p : Payload) :
    payloadsLength version [p] = 4 + numCharCountBits p.mode version + p.bits.length := by
  simp [payloadsLength]

/-- A payload that fits a version has a length the source can compute, and its bytes are
fewer than a buffer for any larger version has. -/
theorem calc_of_fits (hrange : Range minVersion maxVersion) {p : Payload} (hp : p.mode ≠ .eci)
    (hfits : ∃ w, minVersion ≤ w ∧ w ≤ maxVersion ∧ PayloadsFit w ecl [p]) :
    calcSegmentBitLength p.mode p.count = some p.bits.length ∧
      (p.bits.length + 7) / 8 ≤ bufferLenForVersion maxVersion := by
  obtain ⟨w, hmin, hmax, -, hlong, hcap⟩ := hfits
  have hdata := ((hrange.version hmin hmax).layout ecl).data_le_buffer
  have hbuffer := bufferLenForVersion_mono hmax
  have hcount := count_le_length hp
  rw [payloadsLength_singleton] at hlong hcap
  rw [calcSegmentBitLength_payload hp, if_neg (by omega)]
  exact ⟨rfl, by omega⟩

theorem Makes.length_eq {made : Option Segment} {p : Payload} {buf : List UInt8} {seg : Segment}
    (h : Makes made p buf) (hseg : made = some seg) (hroom : (p.bits.length + 7) / 8 ≤ buf.length) :
    seg.data.length = buf.length := by
  obtain ⟨seg', hmade, hcarries, hdrop⟩ := h
  obtain rfl := Option.some.inj (hseg.symm.trans hmade)
  have hinside := hcarries.inside
  have hlen := congrArg List.length hdrop
  rw [hcarries.bitLength_eq] at hinside
  rw [List.length_drop, List.length_drop] at hlen
  omega

theorem encodes_made {made : Option Segment} {p : Payload} (hrange : Range minVersion maxVersion)
    (htemp : bufferLenForVersion maxVersion ≤ tempBuffer.length)
    (hqrcode : bufferLenForVersion maxVersion ≤ qrcode.length) (hmakes : Makes made p tempBuffer)
    (hroom : (p.bits.length + 7) / 8 ≤ tempBuffer.length)
    (hfits : ∃ w, minVersion ≤ w ∧ w ≤ maxVersion ∧ PayloadsFit w ecl [p]) :
    Encodes (made.bind fun seg => encodeSegmentsAdvanced [seg] ecl minVersion maxVersion mask
      boostEcl seg.data qrcode) ecl minVersion maxVersion [p] := by
  obtain ⟨seg, hmade, hcarries, hdrop⟩ := hmakes
  have hlen := Makes.length_eq ⟨seg, hmade, hcarries, hdrop⟩ hmade hroom
  rw [hmade]
  exact encodes_segments hrange (htemp.trans hlen.ge) hqrcode (.cons hcarries .nil) hfits

theorem refuses_made {made : Option Segment} {p : Payload} (hrange : Range minVersion maxVersion)
    (hmakes : Makes made p tempBuffer)
    (hnone : ∀ w, minVersion ≤ w → w ≤ maxVersion → ¬ PayloadsFit w ecl [p]) :
    ∃ temp, (made.bind fun seg => encodeSegmentsAdvanced [seg] ecl minVersion maxVersion mask
      boostEcl seg.data qrcode) = failed temp qrcode := by
  obtain ⟨seg, hmade, hcarries, -⟩ := hmakes
  rw [hmade]
  exact ⟨seg.data, refuses_segments hrange (.cons hcarries .nil) hnone⟩

/-! ### The two calls -/

/-- The branch for a mode that packs its characters: the check, the maker, the call. -/
theorem encodes_checked {made : Option Segment} {p : Payload}
    (hrange : Range minVersion maxVersion)
    (htemp : bufferLenForVersion maxVersion ≤ tempBuffer.length)
    (hqrcode : bufferLenForVersion maxVersion ≤ qrcode.length) (hp : p.mode ≠ .eci)
    (hmakes : ∀ {n}, calcSegmentBitLength p.mode p.count = some n →
      calcSegmentBufferSize p.mode p.count ≤ tempBuffer.length → Makes made p tempBuffer)
    (hfits : ∃ w, minVersion ≤ w ∧ w ≤ maxVersion ∧ PayloadsFit w ecl [p]) :
    Encodes (if bufferLenForVersion maxVersion < calcSegmentBufferSize p.mode p.count then
        failed tempBuffer qrcode
      else made.bind fun seg => encodeSegmentsAdvanced [seg] ecl minVersion maxVersion mask
        boostEcl seg.data qrcode) ecl minVersion maxVersion [p] := by
  obtain ⟨hcalc, hroom⟩ := calc_of_fits hrange hp hfits
  have hsize : calcSegmentBufferSize p.mode p.count = (p.bits.length + 7) / 8 := by
    rw [calcSegmentBufferSize, hcalc]
  rw [if_neg (by omega)]
  exact encodes_made hrange htemp hqrcode (hmakes hcalc (by omega)) (hroom.trans htemp) hfits

theorem refuses_checked {made : Option Segment} {p : Payload} (hrange : Range minVersion maxVersion)
    (htemp : bufferLenForVersion maxVersion ≤ tempBuffer.length)
    (hmakes : ∀ {n}, calcSegmentBitLength p.mode p.count = some n →
      calcSegmentBufferSize p.mode p.count ≤ tempBuffer.length → Makes made p tempBuffer)
    (hnone : ∀ w, minVersion ≤ w → w ≤ maxVersion → ¬ PayloadsFit w ecl [p]) :
    ∃ temp, (if bufferLenForVersion maxVersion < calcSegmentBufferSize p.mode p.count then
        failed tempBuffer qrcode
      else made.bind fun seg => encodeSegmentsAdvanced [seg] ecl minVersion maxVersion mask
        boostEcl seg.data qrcode) = failed temp qrcode := by
  by_cases hsmall : bufferLenForVersion maxVersion < calcSegmentBufferSize p.mode p.count
  · rw [if_pos hsmall]
    exact ⟨tempBuffer, rfl⟩
  · rw [if_neg hsmall]
    cases hcalc : calcSegmentBitLength p.mode p.count with
    | some n => exact refuses_made hrange (hmakes hcalc (by omega)) hnone
    | none =>
        -- the size of an impossible segment is larger than any buffer
        have hsize : calcSegmentBufferSize p.mode p.count = sizeMax := by
          rw [calcSegmentBufferSize, hcalc]
        have hbuffer := bufferLenForVersion_mono hrange.max_ok
        have hforty : bufferLenForVersion versionMax = 3918 := rfl
        rw [hsize, sizeMax] at hsmall
        omega

/-- **A text that fits is encoded**, and it is what is read. -/
theorem encodeText_of_fits (text : List UInt8) (hrange : Range minVersion maxVersion)
    (htemp : bufferLenForVersion maxVersion ≤ tempBuffer.length)
    (hqrcode : bufferLenForVersion maxVersion ≤ qrcode.length)
    (hfits : ∃ w, minVersion ≤ w ∧ w ≤ maxVersion ∧ PayloadsFit w ecl (textPayloads text)) :
    Encodes (encodeText text tempBuffer qrcode ecl minVersion maxVersion mask boostEcl) ecl
      minVersion maxVersion (textPayloads text) := by
  rw [encodeText, textPayloads]
  rw [textPayloads] at hfits
  dsimp only
  by_cases hempty : text.length = 0
  · rw [if_pos hempty] at hfits
    rw [if_pos hempty, if_pos hempty]
    exact encodes_segments hrange htemp hqrcode .nil hfits
  · rw [if_neg hempty] at hfits
    rw [if_neg hempty, if_neg hempty]
    by_cases hnumeric : isNumeric text = true
    · rw [if_pos hnumeric] at hfits
      rw [if_pos hnumeric, if_pos hnumeric]
      exact encodes_checked (p := .numeric text) hrange htemp hqrcode (by simp [Payload.mode])
        (makes_numeric hnumeric) hfits
    · rw [if_neg hnumeric] at hfits
      rw [if_neg hnumeric, if_neg hnumeric]
      by_cases halphanumeric : isAlphanumeric text = true
      · rw [if_pos halphanumeric] at hfits
        rw [if_pos halphanumeric, if_pos halphanumeric]
        exact encodes_checked (p := .alphanumeric text) hrange htemp hqrcode
          (by simp [Payload.mode]) (makes_alphanumeric halphanumeric) hfits
      · rw [if_neg halphanumeric] at hfits
        rw [if_neg halphanumeric, if_neg halphanumeric]
        obtain ⟨hcalc, hroom⟩ :=
          calc_of_fits hrange (p := .byte text) (by simp [Payload.mode]) hfits
        have hbits : (Payload.byte text).bits.length = text.length * 8 :=
          length_flatMap_msbFirst 8 UInt8.toNat text
        have hlen : text.length ≤ bufferLenForVersion maxVersion := by omega
        have hcopied : (text ++ tempBuffer.drop text.length).length = tempBuffer.length := by
          rw [List.length_append, List.length_drop]
          omega
        have hcalc' : calcSegmentBitLength .byte text.length = some (text.length * 8) :=
          hcalc.trans (congrArg some hbits)
        rw [if_neg (by omega), hcalc']
        exact encodes_segments hrange (htemp.trans hcopied.ge) hqrcode
          (.cons (carries_byte text _) .nil) hfits

/-- **A text that fits no version is refused.** -/
theorem encodeText_of_not_fits (text : List UInt8) (hrange : Range minVersion maxVersion)
    (htemp : bufferLenForVersion maxVersion ≤ tempBuffer.length)
    (hnone : ∀ w, minVersion ≤ w → w ≤ maxVersion → ¬ PayloadsFit w ecl (textPayloads text)) :
    ∃ temp, encodeText text tempBuffer qrcode ecl minVersion maxVersion mask boostEcl =
      failed temp qrcode := by
  rw [encodeText]
  rw [textPayloads] at hnone
  dsimp only
  by_cases hempty : text.length = 0
  · rw [if_pos hempty] at hnone
    rw [if_pos hempty]
    exact ⟨tempBuffer, refuses_segments hrange .nil hnone⟩
  · rw [if_neg hempty] at hnone
    rw [if_neg hempty]
    by_cases hnumeric : isNumeric text = true
    · rw [if_pos hnumeric] at hnone
      rw [if_pos hnumeric]
      exact refuses_checked (p := .numeric text) hrange htemp (makes_numeric hnumeric) hnone
    · rw [if_neg hnumeric] at hnone
      rw [if_neg hnumeric]
      by_cases halphanumeric : isAlphanumeric text = true
      · rw [if_pos halphanumeric] at hnone
        rw [if_pos halphanumeric]
        exact refuses_checked (p := .alphanumeric text) hrange htemp
          (makes_alphanumeric halphanumeric) hnone
      · rw [if_neg halphanumeric] at hnone
        rw [if_neg halphanumeric]
        by_cases hlong : bufferLenForVersion maxVersion < text.length
        · rw [if_pos hlong]
          exact ⟨tempBuffer, rfl⟩
        · rw [if_neg hlong]
          cases hcalc : calcSegmentBitLength .byte text.length with
          | none => exact ⟨text ++ tempBuffer.drop text.length, rfl⟩
          | some n =>
              have hn : text.length * 8 = n :=
                (length_flatMap_msbFirst 8 UInt8.toNat text).symm.trans
                (length_of_calcSegmentBitLength (p := .byte text) (by simp [Payload.mode]) hcalc)
              obtain rfl := hn
              exact ⟨text ++ tempBuffer.drop text.length,
                refuses_segments hrange (.cons (carries_byte text _) .nil) hnone⟩

/-- The bytes of a binary string are encoded as they are, or refused. -/
theorem encodeBinary_spec (data rest : List UInt8) (hrange : Range minVersion maxVersion)
    (htemp : bufferLenForVersion maxVersion ≤ (data ++ rest).length)
    (hqrcode : bufferLenForVersion maxVersion ≤ qrcode.length) :
    ((∃ w, minVersion ≤ w ∧ w ≤ maxVersion ∧ PayloadsFit w ecl [.byte data]) →
      Encodes (encodeBinary (data ++ rest) data.length qrcode ecl minVersion maxVersion mask
        boostEcl) ecl minVersion maxVersion [.byte data]) ∧
    ((∀ w, minVersion ≤ w → w ≤ maxVersion → ¬ PayloadsFit w ecl [.byte data]) →
      encodeBinary (data ++ rest) data.length qrcode ecl minVersion maxVersion mask boostEcl =
        failed (data ++ rest) qrcode) := by
  have hbits : (Payload.byte data).bits.length = data.length * 8 :=
    length_flatMap_msbFirst 8 UInt8.toNat data
  rw [encodeBinary]
  constructor
  · intro hfits
    have hcalc := (calc_of_fits hrange (p := .byte data) (by simp [Payload.mode]) hfits).1
    have hcalc' : calcSegmentBitLength .byte data.length = some (data.length * 8) :=
      hcalc.trans (congrArg some hbits)
    rw [hcalc']
    exact encodes_segments hrange htemp hqrcode (.cons (carries_byte data rest) .nil) hfits
  · intro hnone
    cases hcalc : calcSegmentBitLength .byte data.length with
    | none => rfl
    | some n =>
        obtain rfl : data.length * 8 = n := hbits.symm.trans
          (length_of_calcSegmentBitLength (p := .byte data) (by simp [Payload.mode]) hcalc)
        exact refuses_segments hrange (.cons (carries_byte data rest) .nil) hnone

theorem encodeBinary_spec_five :
    ((∃ w, 1 ≤ w ∧ w ≤ 2 ∧ PayloadsFit w .medium [.byte [1, 2, 3, 4, 5]]) →
      Encodes (encodeBinary ([1, 2, 3, 4, 5] ++ List.replicate 100 0) 5 (List.replicate 100 7)
        .medium 1 2 .auto true) .medium 1 2 [.byte [1, 2, 3, 4, 5]]) ∧
    ((∀ w, 1 ≤ w → w ≤ 2 → ¬ PayloadsFit w .medium [.byte [1, 2, 3, 4, 5]]) →
      encodeBinary ([1, 2, 3, 4, 5] ++ List.replicate 100 0) 5 (List.replicate 100 7)
        .medium 1 2 .auto true = failed ([1, 2, 3, 4, 5] ++ List.replicate 100 0)
          (List.replicate 100 7)) :=
  encodeBinary_spec [1, 2, 3, 4, 5] (List.replicate 100 0) ⟨by decide, by decide, by decide⟩
    (by decide) (by decide)

/-- **Encoding a text**: the call succeeds exactly when some version of the range holds the
text, takes the smallest, and the symbol reads as the text; otherwise it only clears the
size byte. -/
theorem encodeText_spec (text : List UInt8) (ecl : Ecc) (mask : Mask) (boostEcl : Bool)
    (hrange : Range minVersion maxVersion)
    (htemp : bufferLenForVersion maxVersion ≤ tempBuffer.length)
    (hqrcode : bufferLenForVersion maxVersion ≤ qrcode.length) :
    ∃ e, encodeText text tempBuffer qrcode ecl minVersion maxVersion mask boostEcl = some e ∧
      (e.ok = true ↔
        ∃ w, minVersion ≤ w ∧ w ≤ maxVersion ∧ PayloadsFit w ecl (textPayloads text)) ∧
      (e.ok = true →
        (minVersion ≤ readVersion e.qrcode ∧ readVersion e.qrcode ≤ maxVersion ∧
          ∀ w, minVersion ≤ w → w < readVersion e.qrcode →
            ¬ PayloadsFit w ecl (textPayloads text)) ∧
        ∃ payloads, (∀ p, Reads e.qrcode p ↔ p = payloads) ∧
          payloads.flatMap Payload.text = text) ∧
      (e.ok = false → e.qrcode = qrcode.set 0 0) := by
  by_cases hfits : ∃ w, minVersion ≤ w ∧ w ≤ maxVersion ∧ PayloadsFit w ecl (textPayloads text)
  · have hencodes : Encodes (encodeText text tempBuffer qrcode ecl minVersion maxVersion mask
        boostEcl) ecl minVersion maxVersion (textPayloads text) :=
      encodeText_of_fits text hrange htemp hqrcode hfits
    obtain ⟨version, ecl', k, e, he, hok, ⟨hmin, hmax, -, -, hfirst⟩, hsymbol, hreads⟩ := hencodes
    have hversion := readVersion_eq hsymbol
    have hread := hreads e.qrcode (Damaged.refl hsymbol)
    refine ⟨e, he, ⟨fun _ => hfits, fun _ => hok⟩, fun _ => ⟨?_, textPayloads text, ?_,
      flatMap_textPayloads text⟩, fun hfail => absurd (hok.symm.trans hfail) (by decide)⟩
    · rw [hversion]
      exact ⟨hmin, hmax, hfirst⟩
    · intro p
      refine ⟨fun hp => Reads.unique ?_ hp hread, fun hp => hp ▸ hread⟩
      rw [hversion]
      exact hrange.version hmin hmax
  · have hrefused : ∃ temp, encodeText text tempBuffer qrcode ecl minVersion maxVersion mask
        boostEcl = failed temp qrcode :=
      encodeText_of_not_fits text hrange htemp fun w hmin hmax hw => hfits ⟨w, hmin, hmax, hw⟩
    obtain ⟨temp, he⟩ := hrefused
    exact ⟨_, he, ⟨fun hok => absurd hok Bool.false_ne_true, fun h => absurd h hfits⟩,
      fun hok => absurd hok Bool.false_ne_true, fun _ => rfl⟩

theorem encodeText_spec_hi :
    ∃ e, encodeText [72, 73] (List.replicate 60 0) (List.replicate 60 7) .low 1 1 .auto true =
        some e ∧
      (e.ok = true ↔ ∃ w, 1 ≤ w ∧ w ≤ 1 ∧ PayloadsFit w .low (textPayloads [72, 73])) ∧
      (e.ok = true →
        (1 ≤ readVersion e.qrcode ∧ readVersion e.qrcode ≤ 1 ∧
          ∀ w, 1 ≤ w → w < readVersion e.qrcode → ¬ PayloadsFit w .low (textPayloads [72, 73])) ∧
        ∃ payloads, (∀ p, Reads e.qrcode p ↔ p = payloads) ∧
          payloads.flatMap Payload.text = [72, 73]) ∧
      (e.ok = false → e.qrcode = (List.replicate 60 7).set 0 0) :=
  encodeText_spec [72, 73] .low .auto true ⟨by decide, by decide, by decide⟩ (by decide) (by decide)

end

end Shirokumakun.Qr
