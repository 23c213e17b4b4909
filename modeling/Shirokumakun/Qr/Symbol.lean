/-
Encoding segments into a symbol, from the search for a version to the last format bit.

Two buffers change their roles on the way.  The data bits are collected in `qrcode`, the
codewords go to `tempBuffer`, the modules are drawn over the data in `qrcode`, and at the
end `tempBuffer` holds the map of the function modules.  The segments
are read before `tempBuffer` is written, so the caller may pass segments that lie in it.

`drawSymbol_spec` says what comes of it: a symbol of the version whose format bits name
the level and the mask, and whose data modules, without the mask, are the interleaved
codewords.
-/
import Shirokumakun.Qr.Codewords
import Shirokumakun.Qr.Interleave
import Shirokumakun.Qr.Masking

namespace Shirokumakun.Qr

open Packed

/-! ### The functions -/

/-- What a call returns and what it leaves in the buffers. -/
structure Encoded where
  ok : Bool
  tempBuffer : List UInt8
  qrcode : List UInt8

/-- `qrcodegen_encodeSegmentsAdvanced`, once the data bits are in `qrcode`. -/
def drawSymbol (version : ℕ) (ecl : Ecc) (mask : Mask) (tempBuffer qrcode : List UInt8) :
    Option Encoded :=
  let interleaved := addEccAndInterleave qrcode version ecl tempBuffer
  let qrcode := initializeFunctionModules version interleaved.data
  let qrcode := (drawCodewords interleaved.result (getNumRawDataModules version / 8) qrcode).1
  let qrcode := drawWhiteFunctionModules qrcode version
  let tempBuffer := initializeFunctionModules version interleaved.result
  (handleMasking tempBuffer ecl mask qrcode).map (Encoded.mk true tempBuffer)

/-- `none` is a failed assertion. -/
def encodeSegmentsAdvanced (segs : List Segment) (ecl : Ecc) (minVersion maxVersion : ℕ)
    (mask : Mask) (boostEcl : Bool) (tempBuffer qrcode : List UInt8) : Option Encoded :=
  if versionMin ≤ minVersion ∧ minVersion ≤ maxVersion ∧ maxVersion ≤ versionMax then
    match chooseVersion segs ecl minVersion maxVersion with
    | none => some ⟨false, tempBuffer, qrcode.set 0 0⟩
    | some (version, dataUsedBits) =>
        let ecl := boost boostEcl version dataUsedBits ecl
        drawSymbol version ecl mask tempBuffer (concatenate version ecl segs qrcode).1
  else none

def encodeSegments (segs : List Segment) (ecl : Ecc) (tempBuffer qrcode : List UInt8) :
    Option Encoded :=
  encodeSegmentsAdvanced segs ecl versionMin versionMax .auto true tempBuffer qrcode

/-! ### What a symbol shows -/

/-- The codewords of a symbol, with the mask taken off. -/
def readCodewords (version : ℕ) (mask : Fin 8) (qrcode : List UInt8) : List UInt8 :=
  bytes (getNumRawDataModules version / 8)
    (((dataModules version).take (8 * (getNumRawDataModules version / 8))).map fun p =>
      getModule qrcode p.1 p.2 ^^ maskBit mask p)

/-- The symbol shows these codewords at the level, under the mask. -/
structure Shows (version : ℕ) (ecl : Ecc) (mask : Fin 8) (codewords qrcode : List UInt8) :
    Prop where
  symbol : Symbol version qrcode
  format_eq : readFormat formatPlace qrcode = formatWord ecl mask
  format_eq' : readFormat (formatPlace' (sizeOf version)) qrcode = formatWord ecl mask
  codewords_eq : readCodewords version mask qrcode = codewords

section

variable {version : ℕ} {functionModules qrcode : List UInt8}

/-- A finished symbol shows what its data modules held before the mask. -/
theorem shows_finish (h : Symbol version qrcode) (hmarked : Marked version functionModules)
    (ecl : Ecc) (mask : Fin 8) {codewords : List UInt8}
    (hread : bytes (getNumRawDataModules version / 8)
      (readModules version (8 * (getNumRawDataModules version / 8)) qrcode) = codewords) :
    Shows version ecl mask codewords (finish functionModules ecl qrcode mask) := by
  have hmask := h.of_drawn (drawn_applyMask h functionModules mask)
  have hformat := readFormat_drawFormatBits hmask ecl mask
  refine ⟨hmask.of_drawn (drawn_drawFormatBits hmask ecl mask), hformat.1, hformat.2, ?_⟩
  rw [← hread, readCodewords, readModules]
  congr 1
  refine List.map_congr_left fun p hp => ?_
  have hdata := List.mem_of_mem_take hp
  obtain ⟨⟨hx, hy⟩, hnot⟩ := mem_dataModules.mp hdata
  rw [finish, (Keeps.drawFormatBits hmask ecl mask).data p hdata,
    getModule_applyMask h hmarked mask hx hy, hnot, Bool.not_false, Bool.true_and, Bool.xor_assoc,
    Bool.xor_self, Bool.xor_false]

end

section

variable {version : ℕ} {ecl : Ecc} {tempBuffer qrcode : List UInt8}

/-- The symbol before the mask, as the source has it. -/
def unmasked (version : ℕ) (ecl : Ecc) (tempBuffer qrcode : List UInt8) : List UInt8 :=
  let interleaved := addEccAndInterleave qrcode version ecl tempBuffer
  drawWhiteFunctionModules (drawCodewords interleaved.result (getNumRawDataModules version / 8)
    (initializeFunctionModules version interleaved.data)).1 version

/-- Its data modules hold the interleaved codewords. -/
theorem symbol_unmasked (h : Version version) (ecl : Ecc)
    (htemp : bufferLenForVersion version ≤ tempBuffer.length)
    (hqrcode : bufferLenForVersion version ≤ qrcode.length) :
    Symbol version (unmasked version ecl tempBuffer qrcode) ∧
      bytes (getNumRawDataModules version / 8)
        (readModules version (8 * (getNumRawDataModules version / 8))
          (unmasked version ecl tempBuffer qrcode)) =
        (addEccAndInterleave qrcode version ecl tempBuffer).result.take
          (getNumRawDataModules version / 8) := by
  have hraw := (h.layout ecl).raw_le
  obtain ⟨hdatalen, hresultlen⟩ :=
    length_addEccAndInterleave (h.layout ecl) tempBuffer (hraw.trans hqrcode)
  have hroom : bufferLenForVersion version ≤
      (addEccAndInterleave qrcode version ecl tempBuffer).data.length := by
    rw [hdatalen]
    exact hqrcode
  have hblank := symbol_initializeFunctionModules h hroom
  have hmarked := marked_initializeFunctionModules h hroom
  have hdrawn := drawCodewords_eq hblank hmarked
    (addEccAndInterleave qrcode version ecl tempBuffer).result (getNumRawDataModules version / 8)
  have hcodewords := hblank.drawCodewords hmarked
    (addEccAndInterleave qrcode version ecl tempBuffer).result (getNumRawDataModules version / 8)
  have hkeeps := Keeps.drawWhiteFunctionModules hcodewords
  refine ⟨hkeeps.symbol, ?_⟩
  have hmodules : readModules version (8 * (getNumRawDataModules version / 8))
      (unmasked version ecl tempBuffer qrcode) =
        stream msb (addEccAndInterleave qrcode version ecl tempBuffer).result
          (8 * (getNumRawDataModules version / 8)) := by
    have hlen := length_stream msb (addEccAndInterleave qrcode version ecl tempBuffer).result
      (8 * (getNumRawDataModules version / 8))
    have hfits := Nat.mul_div_le (getNumRawDataModules version) 8
    have hread := readModules_write hblank (hlen.le.trans hfits)
    rw [hlen] at hread
    refine Eq.trans (List.map_congr_left fun p hp => ?_) hread
    refine (hkeeps.data p (List.mem_of_mem_take hp)).trans ?_
    rw [hdrawn, Nat.mul_comm]
  rw [hmodules, bytes_stream_take]
  rw [hresultlen]
  exact hraw.trans htemp

theorem drawSymbol_eq (version : ℕ) (ecl : Ecc) (mask : Mask) (tempBuffer qrcode : List UInt8) :
    drawSymbol version ecl mask tempBuffer qrcode =
      (handleMasking (initializeFunctionModules version
        (addEccAndInterleave qrcode version ecl tempBuffer).result) ecl mask
        (unmasked version ecl tempBuffer qrcode)).map (Encoded.mk true
          (initializeFunctionModules version
            (addEccAndInterleave qrcode version ecl tempBuffer).result)) := rfl

/-- The codewords a symbol shows for the data bits in `qrcode`. -/
def codewords (version : ℕ) (ecl : Ecc) (tempBuffer qrcode : List UInt8) : List UInt8 :=
  (addEccAndInterleave qrcode version ecl tempBuffer).result.take (getNumRawDataModules version / 8)

theorem marked_map (h : Version version) (ecl : Ecc)
    (htemp : bufferLenForVersion version ≤ tempBuffer.length)
    (hqrcode : bufferLenForVersion version ≤ qrcode.length) :
    Marked version (initializeFunctionModules version
      (addEccAndInterleave qrcode version ecl tempBuffer).result) := by
  have hraw := (h.layout ecl).raw_le
  refine marked_initializeFunctionModules h ?_
  rw [(length_addEccAndInterleave (h.layout ecl) tempBuffer (hraw.trans hqrcode)).2]
  exact htemp

/-- With a mask that is given, the symbol shows the codewords under it. -/
theorem drawSymbol_pattern (h : Version version) (ecl : Ecc) (k : Fin 8)
    (htemp : bufferLenForVersion version ≤ tempBuffer.length)
    (hqrcode : bufferLenForVersion version ≤ qrcode.length) :
    ∃ e, drawSymbol version ecl (.pattern k) tempBuffer qrcode = some e ∧ e.ok = true ∧
      Shows version ecl k (codewords version ecl tempBuffer qrcode) e.qrcode := by
  obtain ⟨hsymbol, hread⟩ := symbol_unmasked h ecl htemp hqrcode
  exact ⟨_, rfl, rfl, shows_finish hsymbol (marked_map h ecl htemp hqrcode) ecl k hread⟩

/-- Without one, the symbol is that of the first mask whose symbol scores least. -/
theorem drawSymbol_auto (h : Version version) (ecl : Ecc)
    (htemp : bufferLenForVersion version ≤ tempBuffer.length)
    (hqrcode : bufferLenForVersion version ≤ qrcode.length) :
    ∃ k, drawSymbol version ecl .auto tempBuffer qrcode =
        drawSymbol version ecl (.pattern k) tempBuffer qrcode ∧
      ∀ j e e', drawSymbol version ecl (.pattern k) tempBuffer qrcode = some e →
        drawSymbol version ecl (.pattern j) tempBuffer qrcode = some e' →
          getPenaltyScore e.qrcode ≤ getPenaltyScore e'.qrcode ∧
            (j < k → getPenaltyScore e.qrcode < getPenaltyScore e'.qrcode) := by
  obtain ⟨hsymbol, -⟩ := symbol_unmasked h ecl htemp hqrcode
  obtain ⟨k, hauto, hleast, hfirst⟩ :=
    handleMasking_auto hsymbol (marked_map h ecl htemp hqrcode) ecl
  refine ⟨k, by rw [drawSymbol_eq, drawSymbol_eq, hauto], fun j e e' he he' => ?_⟩
  obtain rfl := Option.some.inj he
  obtain rfl := Option.some.inj he'
  exact ⟨hleast j, hfirst j⟩

theorem drawSymbol_spec (h : Version version) (ecl : Ecc) (mask : Mask)
    (htemp : bufferLenForVersion version ≤ tempBuffer.length)
    (hqrcode : bufferLenForVersion version ≤ qrcode.length) :
    ∃ k e, drawSymbol version ecl mask tempBuffer qrcode = some e ∧ e.ok = true ∧
      Shows version ecl k (codewords version ecl tempBuffer qrcode) e.qrcode := by
  cases mask with
  | pattern k => exact ⟨k, drawSymbol_pattern h ecl k htemp hqrcode⟩
  | auto =>
      obtain ⟨k, hauto, -⟩ := drawSymbol_auto h ecl htemp hqrcode
      rw [hauto]
      exact ⟨k, drawSymbol_pattern h ecl k htemp hqrcode⟩

end

/-! ### Success and failure -/

/-- A range of versions the encoder accepts. -/
structure Range (minVersion maxVersion : ℕ) : Prop where
  min_ok : versionMin ≤ minVersion
  le : minVersion ≤ maxVersion
  max_ok : maxVersion ≤ versionMax

section

variable {segs : List Segment} {ecl : Ecc} {minVersion maxVersion : ℕ} {mask : Mask}
  {boostEcl : Bool} {tempBuffer qrcode : List UInt8}

theorem encodeSegmentsAdvanced_of_fits (hrange : Range minVersion maxVersion) {version : ℕ}
    (hmin : minVersion ≤ version) (hmax : version ≤ maxVersion) (hfits : Fits segs version ecl)
    (hfirst : ∀ w, minVersion ≤ w → w < version → ¬ Fits segs w ecl) :
    encodeSegmentsAdvanced segs ecl minVersion maxVersion mask boostEcl tempBuffer qrcode =
      drawSymbol version (boost boostEcl version (segmentsBits version segs).length ecl) mask
        tempBuffer (concatenate version
          (boost boostEcl version (segmentsBits version segs).length ecl) segs qrcode).1 := by
  have hchoose : chooseVersion segs ecl minVersion maxVersion =
      some (version, (segmentsBits version segs).length) :=
    (chooseVersion_eq_some_iff hrange.le).mpr ⟨hmin, hmax, hfits, hfirst, rfl⟩
  rw [encodeSegmentsAdvanced, if_pos ⟨hrange.min_ok, hrange.le, hrange.max_ok⟩, hchoose]

/-- Where nothing fits the call fails and the size byte says so. -/
theorem encodeSegmentsAdvanced_of_not_fits (hrange : Range minVersion maxVersion)
    (hnone : ∀ w, minVersion ≤ w → w ≤ maxVersion → ¬ Fits segs w ecl) :
    encodeSegmentsAdvanced segs ecl minVersion maxVersion mask boostEcl tempBuffer qrcode =
      some ⟨false, tempBuffer, qrcode.set 0 0⟩ := by
  have hchoose : chooseVersion segs ecl minVersion maxVersion = none :=
    (chooseVersion_eq_none_iff hrange.le).mpr hnone
  rw [encodeSegmentsAdvanced, if_pos ⟨hrange.min_ok, hrange.le, hrange.max_ok⟩, hchoose]

/-- A call that succeeds found a version that the segments fit. -/
theorem exists_fits_of_ok (hrange : Range minVersion maxVersion) {e : Encoded}
    (he : encodeSegmentsAdvanced segs ecl minVersion maxVersion mask boostEcl tempBuffer qrcode =
      some e) (hok : e.ok = true) : ∃ w, minVersion ≤ w ∧ w ≤ maxVersion ∧ Fits segs w ecl := by
  by_contra hfits
  have hnone : ∀ w, minVersion ≤ w → w ≤ maxVersion → ¬ Fits segs w ecl :=
    fun w hmin hmax hw => hfits ⟨w, hmin, hmax, hw⟩
  rw [encodeSegmentsAdvanced_of_not_fits hrange hnone, Option.some.injEq] at he
  rw [← he] at hok
  exact Bool.false_ne_true hok

theorem Range.version (h : Range minVersion maxVersion) {version : ℕ} (hmin : minVersion ≤ version)
    (hmax : version ≤ maxVersion) : Version version :=
  ⟨h.min_ok.trans hmin, hmax.trans h.max_ok⟩

theorem bufferLenForVersion_mono {v w : ℕ} (h : v ≤ w) :
    bufferLenForVersion v ≤ bufferLenForVersion w := by
  have hsize : v * 4 + 17 ≤ w * 4 + 17 := by omega
  have hsquare := Nat.mul_le_mul hsize hsize
  rw [bufferLenForVersion, bufferLenForVersion]
  omega

/-- The first version of the range that fits, where there is one. -/
theorem exists_first {P : ℕ → Prop} {low high : ℕ} (h : ∃ w, low ≤ w ∧ w ≤ high ∧ P w) :
    ∃ v, low ≤ v ∧ v ≤ high ∧ P v ∧ ∀ w, low ≤ w → w < v → ¬ P w := by
  classical
  obtain ⟨hlow, hhigh, hP⟩ := Nat.find_spec h
  refine ⟨Nat.find h, hlow, hhigh, hP, fun w hw hlt hPw => ?_⟩
  exact Nat.find_min h hlt ⟨hw, by omega, hPw⟩

/-- **The call never fails an assertion**: where the segments fit some version it draws the
first that does, at a level no lower than the one asked for. -/
theorem encodeSegmentsAdvanced_spec (mask : Mask) (boostEcl : Bool)
    (hrange : Range minVersion maxVersion)
    (htemp : bufferLenForVersion maxVersion ≤ tempBuffer.length)
    (hqrcode : bufferLenForVersion maxVersion ≤ qrcode.length)
    (hfits : ∃ w, minVersion ≤ w ∧ w ≤ maxVersion ∧ Fits segs w ecl) :
    ∃ version ecl' k e, (minVersion ≤ version ∧ version ≤ maxVersion ∧ Fits segs version ecl' ∧
        ecl.index ≤ ecl'.index ∧ ∀ w, minVersion ≤ w → w < version → ¬ Fits segs w ecl) ∧
      encodeSegmentsAdvanced segs ecl minVersion maxVersion mask boostEcl tempBuffer qrcode =
        some e ∧ e.ok = true ∧
      Shows version ecl' k (codewords version ecl' tempBuffer
        (concatenate version ecl' segs qrcode).1) e.qrcode := by
  obtain ⟨version, hmin, hmax, hfit, hfirst⟩ := exists_first hfits
  have hversion := hrange.version hmin hmax
  have hbuffer := bufferLenForVersion_mono hmax
  have hboost := fits_boost hversion boostEcl hfit
  have hindex := le_index_boost hversion boostEcl hfit
  have hroom := room_concatenate hversion hboost (hbuffer.trans hqrcode)
  obtain ⟨k, e, he, hok, hshows⟩ := drawSymbol_spec hversion
    (boost boostEcl version (segmentsBits version segs).length ecl) mask (hbuffer.trans htemp) hroom
  refine ⟨version, _, k, e, ⟨hmin, hmax, hboost, hindex, hfirst⟩, ?_, hok, hshows⟩
  rw [encodeSegmentsAdvanced_of_fits hrange hmin hmax hfit hfirst, he]

/-- **The mask is the best one**: without a mask the call is the call with the first of the
masks whose symbols score least. -/
theorem encodeSegmentsAdvanced_auto (segs : List Segment) (ecl : Ecc) (boostEcl : Bool)
    (hrange : Range minVersion maxVersion)
    (htemp : bufferLenForVersion maxVersion ≤ tempBuffer.length)
    (hqrcode : bufferLenForVersion maxVersion ≤ qrcode.length) :
    ∃ k, encodeSegmentsAdvanced segs ecl minVersion maxVersion .auto boostEcl tempBuffer qrcode =
        encodeSegmentsAdvanced segs ecl minVersion maxVersion (.pattern k) boostEcl tempBuffer
          qrcode ∧
      ∀ j e e', encodeSegmentsAdvanced segs ecl minVersion maxVersion (.pattern k) boostEcl
          tempBuffer qrcode = some e →
        encodeSegmentsAdvanced segs ecl minVersion maxVersion (.pattern j) boostEcl
          tempBuffer qrcode = some e' → e.ok = true →
          getPenaltyScore e.qrcode ≤ getPenaltyScore e'.qrcode ∧
            (j < k → getPenaltyScore e.qrcode < getPenaltyScore e'.qrcode) := by
  by_cases hfits : ∃ w, minVersion ≤ w ∧ w ≤ maxVersion ∧ Fits segs w ecl
  · obtain ⟨version, hmin, hmax, hfit, hfirst⟩ := exists_first hfits
    have hversion := hrange.version hmin hmax
    have hbuffer := bufferLenForVersion_mono hmax
    have hroom := room_concatenate hversion (fits_boost hversion boostEcl hfit)
      (hbuffer.trans hqrcode)
    simp only [encodeSegmentsAdvanced_of_fits hrange hmin hmax hfit hfirst]
    obtain ⟨k, hauto, hleast⟩ := drawSymbol_auto hversion
      (boost boostEcl version (segmentsBits version segs).length ecl) (hbuffer.trans htemp) hroom
    exact ⟨k, hauto, fun j e e' he he' _ => hleast j e e' he he'⟩
  · have hnone : ∀ w, minVersion ≤ w → w ≤ maxVersion → ¬ Fits segs w ecl :=
      fun w hmin hmax hw => hfits ⟨w, hmin, hmax, hw⟩
    have hcall : ∀ mask, encodeSegmentsAdvanced segs ecl minVersion maxVersion mask boostEcl
        tempBuffer qrcode = some ⟨false, tempBuffer, qrcode.set 0 0⟩ := fun mask =>
      encodeSegmentsAdvanced_of_not_fits hrange hnone
    exact ⟨0, by rw [hcall, hcall], fun j e e' he _ hok =>
      absurd (exists_fits_of_ok hrange he hok) hfits⟩

theorem encodeSegmentsAdvanced_auto_none :
    ∃ k, encodeSegmentsAdvanced [] .low 1 1 .auto false (List.replicate 60 0)
          (List.replicate 60 7) =
        encodeSegmentsAdvanced [] .low 1 1 (.pattern k) false (List.replicate 60 0)
          (List.replicate 60 7) ∧
      ∀ j e e', encodeSegmentsAdvanced [] .low 1 1 (.pattern k) false (List.replicate 60 0)
          (List.replicate 60 7) = some e →
        encodeSegmentsAdvanced [] .low 1 1 (.pattern j) false (List.replicate 60 0)
          (List.replicate 60 7) = some e' → e.ok = true →
          getPenaltyScore e.qrcode ≤ getPenaltyScore e'.qrcode ∧
            (j < k → getPenaltyScore e.qrcode < getPenaltyScore e'.qrcode) :=
  encodeSegmentsAdvanced_auto [] .low false ⟨by decide, by decide, by decide⟩ (by decide)
    (by decide)

end

end Shirokumakun.Qr
