/-
What a camera looks for: the function patterns of a finished symbol.

A reader finds a symbol by its finder, timing and alignment patterns and learns the version,
the level and the mask from bits that are drawn twice, all before it reads a codeword.  In
the source these modules are drawn, drawn over and masked around by five functions; in a
finished symbol they are as the patterns have them (`Landmarks`), whatever the data.  So
either copy of the format bits, and from version 7 on either version block, still says what
it should with up to three of its modules changed.
-/
import Shirokumakun.Qr.Reading

namespace Shirokumakun.Qr

open Hamming

/-- The function modules are as the patterns of the version have them. -/
structure Landmarks (version : ℕ) (qrcode : List UInt8) : Prop where
  painted : ∀ p b, Paints version p b → getModule qrcode p.1 p.2 = b
  black : ∀ p, isFunction version p = true → p ∉ formatPlaces (sizeOf version) →
    (∀ b, ¬ Paints version p b) → getModule qrcode p.1 p.2 = true
  dark : getModule qrcode 8 (sizeOf version - 8) = true

section

variable {version : ℕ} {qrcode functionModules : List UInt8} {p : ℕ × ℕ}

/-- The format bits are drawn beside the patterns. -/
theorem Paints.notMem_formatPlaces (h : Version version) {b : Bool} (hp : Paints version p b) :
    p ∉ formatPlaces (sizeOf version) := by
  have hsize := sizeOf_eq version
  intro hmem
  have hplace := formatPlaces_le h.le_sizeOf hmem
  cases hp with
  | timing hline => omega
  | finder hc hring hx hy =>
      have hcorner := ring_finder (p := p) hc (by omega) (by omega)
      omega
  | alignment hc hring =>
      have hcentre := h.centre hc
      rw [ring] at hring
      omega
  | version hseven hk hin =>
      rcases hin with rfl | rfl
      · dsimp only [versionPlace] at hplace
        omega
      · dsimp only [versionPlace, Prod.swap] at hplace
        omega

/-- A mask and format bits leave the other function modules as they were. -/
theorem getModule_finish (h : Symbol version qrcode) (hmarked : Marked version functionModules)
    (ecl : Ecc) (mask : Fin 8) (hp : isFunction version p = true)
    (hplace : p ∉ formatPlaces (sizeOf version)) :
    getModule (finish functionModules ecl qrcode mask) p.1 p.2 = getModule qrcode p.1 p.2 := by
  obtain ⟨hx, hy⟩ := inGrid_of_isFunction h.version_ok hp
  have hmask := h.of_drawn (drawn_applyMask h functionModules mask)
  have hformat : getModule (finish functionModules ecl qrcode mask) p.1 p.2 =
      getModule (applyMask functionModules qrcode mask) p.1 p.2 := by
    rw [finish, drawFormatBits_eq, hmask.size_eq]
    refine Memory.get_write_of_notMem (m := gridMemory)
      (hmask.allValid fun w hw => isFunction_formatWrites h.version_ok hw) (hmask.inGrid hx hy) ?_
    rwa [fst_formatWrites]
  rw [hformat, getModule_applyMask h hmarked mask hx hy, hp, Bool.not_true, Bool.false_and,
    Bool.xor_false]

/-- The dark module is written with the format bits. -/
theorem getModule_finish_dark (h : Symbol version qrcode) (ecl : Ecc) (mask : Fin 8) :
    getModule (finish functionModules ecl qrcode mask) 8 (sizeOf version - 8) = true := by
  have hmask := h.of_drawn (drawn_applyMask h functionModules mask)
  rw [finish, drawFormatBits_eq, hmask.size_eq]
  refine Memory.get_write_of_mem (m := gridMemory) (j := (8, sizeOf version - 8))
    (hmask.allValid fun w hw => isFunction_formatWrites h.version_ok hw) ?_ ?_
  · rw [fst_formatWrites]
    exact nodup_formatPlaces h.version_ok.le_sizeOf
  · simp [formatWrites]

end

section

variable {version : ℕ} {ecl : Ecc} {tempBuffer qrcode : List UInt8}

/-- Before the mask, the function modules are black but for what the patterns paint. -/
theorem getModule_unmasked (h : Version version) (ecl : Ecc)
    (hqrcode : bufferLenForVersion version ≤ qrcode.length) {p : ℕ × ℕ}
    (hp : isFunction version p = true) :
    (∀ b, Paints version p b →
        getModule (unmasked version ecl tempBuffer qrcode) p.1 p.2 = b) ∧
      ((∀ b, ¬ Paints version p b) →
        getModule (unmasked version ecl tempBuffer qrcode) p.1 p.2 = true) := by
  have hroom : bufferLenForVersion version ≤
      (addEccAndInterleave qrcode version ecl tempBuffer).data.length := by
    rw [(length_addEccAndInterleave (h.layout ecl) tempBuffer
      ((h.layout ecl).raw_le.trans hqrcode)).1]
    exact hqrcode
  have hblank := symbol_initializeFunctionModules h hroom
  have hmarked := marked_initializeFunctionModules h hroom
  have hsymbol := hblank.drawCodewords hmarked
    (addEccAndInterleave qrcode version ecl tempBuffer).result (getNumRawDataModules version / 8)
  obtain ⟨hx, hy⟩ := inGrid_of_isFunction h hp
  refine ⟨fun b hb => getModule_drawWhiteFunctionModules hsymbol hb, fun hnone => ?_⟩
  refine (getModule_drawWhiteFunctionModules_of_not hsymbol (hsymbol.inGrid hx hy) hnone).trans ?_
  rw [getModule_drawCodewords hblank hmarked _ _ hx hy fun hmem => ?_, hp]
  exact absurd ((mem_dataModules.mp (List.mem_of_mem_take hmem)).2.symm.trans hp) (by decide)

theorem drawSymbol_landmarks (h : Version version) (ecl : Ecc) (k : Fin 8) {e : Encoded}
    (htemp : bufferLenForVersion version ≤ tempBuffer.length)
    (hqrcode : bufferLenForVersion version ≤ qrcode.length)
    (he : drawSymbol version ecl (.pattern k) tempBuffer qrcode = some e) :
    Landmarks version e.qrcode := by
  obtain ⟨hsymbol, -⟩ := symbol_unmasked h ecl htemp hqrcode
  have hmarked := marked_map h ecl htemp hqrcode
  have hkeep := fun p => getModule_finish (p := p) hsymbol hmarked ecl k
  obtain rfl := Option.some.inj he
  refine ⟨fun p b hp => ?_, fun p hp hplace hnone => ?_, getModule_finish_dark hsymbol ecl k⟩
  · refine (hkeep p (hp.isFunction h) (hp.notMem_formatPlaces h)).trans ?_
    exact (getModule_unmasked h ecl hqrcode (hp.isFunction h)).1 b hp
  · exact (hkeep p hp hplace).trans ((getModule_unmasked h ecl hqrcode hp).2 hnone)

end

/-! ### Version blocks -/

/-- The bits of one version block, the lowest first. -/
def readVersionBlock (place : ℕ → ℕ × ℕ) (qrcode : List UInt8) : List Bool :=
  (List.range 18).map fun k => getModule qrcode (place k).1 (place k).2

/-- The places of the two version blocks. -/
def versionPlaces (qrsize : ℕ) : List (ℕ → ℕ × ℕ) :=
  [versionPlace qrsize, fun k => (versionPlace qrsize k).swap]

section

variable {version : ℕ} {qrcode damaged : List UInt8} {place : ℕ → ℕ × ℕ}

theorem Landmarks.readVersionBlock (h : Landmarks version qrcode) (hseven : 7 ≤ version)
    (hplace : place ∈ versionPlaces (sizeOf version)) :
    readVersionBlock place qrcode = versionWord version := by
  refine List.map_congr_left fun k hk => h.painted _ _ ?_
  rw [List.mem_range] at hk
  simp only [versionPlaces, List.mem_cons, List.not_mem_nil, or_false] at hplace
  rcases hplace with rfl | rfl
  · exact .version hseven hk (Or.inl rfl)
  · exact .version hseven hk (Or.inr rfl)

/-- Either version block is read with up to three of its bits changed. -/
theorem nearest_readVersionBlock (hversion : Version version) (hseven : 7 ≤ version)
    (hblock : readVersionBlock place qrcode = versionWord version)
    (h : distance (readVersionBlock place qrcode) (readVersionBlock place damaged) ≤ 3) :
    nearest versionWord versions 3 (readVersionBlock place damaged) = some version := by
  have hmax : version ≤ 40 := hversion.2
  refine nearest_eq_some versionWord_apart (fun v _ => ?_) ?_ ?_
  · rw [versionWord, Qr.readVersionBlock, List.length_map, List.length_map]
  · exact List.mem_map.mpr ⟨version - 7, List.mem_range.mpr (by omega), by omega⟩
  · rwa [← hblock]

end

/-! ### Whatever was encoded -/

section

variable {segs : List Segment} {ecl : Ecc} {minVersion maxVersion : ℕ} {mask : Mask}
  {boostEcl : Bool} {tempBuffer qrcode : List UInt8} {e : Encoded}

/-- A call that succeeds draws one symbol, under the mask it was given where it was. -/
theorem exists_drawSymbol (hrange : Range minVersion maxVersion)
    (htemp : bufferLenForVersion maxVersion ≤ tempBuffer.length)
    (hqrcode : bufferLenForVersion maxVersion ≤ qrcode.length)
    (he : encodeSegmentsAdvanced segs ecl minVersion maxVersion mask boostEcl tempBuffer qrcode =
      some e) (hok : e.ok = true) :
    ∃ version ecl' k buffer, Version version ∧
      (bufferLenForVersion version ≤ tempBuffer.length ∧
        bufferLenForVersion version ≤ buffer.length) ∧
      (mask = .auto ∨ mask = .pattern k) ∧ ecl.index ≤ ecl'.index ∧
      drawSymbol version ecl' (.pattern k) tempBuffer buffer = some e := by
  obtain ⟨version, hmin, hmax, hfit, hfirst⟩ := exists_first (exists_fits_of_ok hrange he hok)
  have hversion := hrange.version hmin hmax
  have hbuffer := bufferLenForVersion_mono hmax
  have hroom := room_concatenate hversion (fits_boost hversion boostEcl hfit)
    (hbuffer.trans hqrcode)
  have hindex := le_index_boost hversion boostEcl hfit
  rw [encodeSegmentsAdvanced_of_fits hrange hmin hmax hfit hfirst] at he
  cases mask with
  | pattern k =>
      exact ⟨version, _, k, _, hversion, ⟨hbuffer.trans htemp, hroom⟩, Or.inr rfl, hindex, he⟩
  | auto =>
      obtain ⟨k, hauto, -⟩ := drawSymbol_auto hversion
        (boost boostEcl version (segmentsBits version segs).length ecl) (hbuffer.trans htemp) hroom
      rw [hauto] at he
      exact ⟨version, _, k, _, hversion, ⟨hbuffer.trans htemp, hroom⟩, Or.inl rfl, hindex, he⟩

theorem room_seven (b : UInt8) : bufferLenForVersion 7 ≤ (List.replicate 260 b).length := by
  rw [List.length_replicate]
  decide

theorem range_seven : Range 7 7 := ⟨by decide, by decide, by decide⟩

/-- A text in a symbol with version blocks, for the cases below. -/
theorem encodes_hi (mask : Mask) :
    ∃ e, encodeSegmentsAdvanced [⟨.byte, 2, [72, 105], 16⟩] .low 7 7 mask false
        (List.replicate 260 0) (List.replicate 260 7) = some e ∧ e.ok = true := by
  have hcount : CountsFit 7 [⟨.byte, 2, [72, 105], 16⟩] := by
    simp [CountsFit, numCharCountBits]
  have hfits : Fits [⟨.byte, 2, [72, 105], 16⟩] 7 .low := ⟨hcount, by decide, by decide⟩
  obtain ⟨version, ecl', k, e, -, he, hok, -⟩ := encodeSegmentsAdvanced_spec mask false
    range_seven (room_seven 0) (room_seven 7) ⟨7, le_rfl, le_rfl, hfits⟩
  exact ⟨e, he, hok⟩

/-- **Every symbol has its patterns**, whatever it encodes. -/
theorem encodeSegmentsAdvanced_landmarks (hrange : Range minVersion maxVersion)
    (htemp : bufferLenForVersion maxVersion ≤ tempBuffer.length)
    (hqrcode : bufferLenForVersion maxVersion ≤ qrcode.length)
    (he : encodeSegmentsAdvanced segs ecl minVersion maxVersion mask boostEcl tempBuffer qrcode =
      some e) (hok : e.ok = true) :
    Landmarks (readVersion e.qrcode) e.qrcode := by
  obtain ⟨version, ecl', k, buffer, hversion, hroom, -, -, hdraw⟩ :=
    exists_drawSymbol hrange htemp hqrcode he hok
  obtain ⟨e', he', -, hshows⟩ := drawSymbol_pattern hversion ecl' k hroom.1 hroom.2
  obtain rfl := Option.some.inj (hdraw.symm.trans he')
  rw [readVersion_eq hshows.symbol]
  exact drawSymbol_landmarks hversion ecl' k hroom.1 hroom.2 hdraw

theorem encodeSegmentsAdvanced_landmarks_hi :
    ∃ e, encodeSegmentsAdvanced [⟨.byte, 2, [72, 105], 16⟩] .low 7 7 .auto false
        (List.replicate 260 0) (List.replicate 260 7) = some e ∧
      Landmarks (readVersion e.qrcode) e.qrcode := by
  obtain ⟨e, he, hok⟩ := encodes_hi .auto
  exact ⟨e, he, encodeSegmentsAdvanced_landmarks range_seven (room_seven 0) (room_seven 7) he hok⟩

/-- **Every copy names what it should**: either copy of the format bits the level and the
mask, and either version block the version, each with up to three modules changed. -/
theorem encodeSegmentsAdvanced_identified (hrange : Range minVersion maxVersion)
    (htemp : bufferLenForVersion maxVersion ≤ tempBuffer.length)
    (hqrcode : bufferLenForVersion maxVersion ≤ qrcode.length)
    (he : encodeSegmentsAdvanced segs ecl minVersion maxVersion mask boostEcl tempBuffer qrcode =
      some e) (hok : e.ok = true) :
    ∃ ecl' k, ecl.index ≤ ecl'.index ∧ (mask = .auto ∨ mask = .pattern k) ∧
      (∀ place ∈ [formatPlace, formatPlace' (getSize e.qrcode)], ∀ damaged,
        distance (readFormat place e.qrcode) (readFormat place damaged) ≤ 3 →
          nearest (fun f => formatWord f.1 f.2) formats 3 (readFormat place damaged) =
            some (ecl', k)) ∧
      (7 ≤ readVersion e.qrcode → ∀ place ∈ versionPlaces (getSize e.qrcode), ∀ damaged,
        distance (readVersionBlock place e.qrcode) (readVersionBlock place damaged) ≤ 3 →
          nearest versionWord versions 3 (readVersionBlock place damaged) =
            some (readVersion e.qrcode)) := by
  obtain ⟨version, ecl', k, buffer, hversion, hroom, hmask, hindex, hdraw⟩ :=
    exists_drawSymbol hrange htemp hqrcode he hok
  obtain ⟨e', he', -, hshows⟩ := drawSymbol_pattern hversion ecl' k hroom.1 hroom.2
  obtain rfl := Option.some.inj (hdraw.symm.trans he')
  have hlandmarks := drawSymbol_landmarks hversion ecl' k hroom.1 hroom.2 hdraw
  rw [readVersion_eq hshows.symbol, hshows.symbol.size_eq]
  refine ⟨ecl', k, hindex, hmask, fun place hplace damaged hnear => ?_,
    fun hseven place hplace damaged hnear => ?_⟩
  · simp only [List.mem_cons, List.not_mem_nil, or_false] at hplace
    rcases hplace with rfl | rfl
    · exact nearest_readFormat hshows.format_eq hnear
    · exact nearest_readFormat hshows.format_eq' hnear
  · exact nearest_readVersionBlock hversion hseven
      (hlandmarks.readVersionBlock hseven hplace) hnear

theorem encodeSegmentsAdvanced_identified_hi :
    ∃ e, encodeSegmentsAdvanced [⟨.byte, 2, [72, 105], 16⟩] .low 7 7 (.pattern 2) false
        (List.replicate 260 0) (List.replicate 260 7) = some e ∧
      ∃ ecl' k, Ecc.low.index ≤ ecl'.index ∧
        (Mask.pattern 2 = .auto ∨ Mask.pattern 2 = .pattern k) ∧
        (∀ place ∈ [formatPlace, formatPlace' (getSize e.qrcode)], ∀ damaged,
          distance (readFormat place e.qrcode) (readFormat place damaged) ≤ 3 →
            nearest (fun f => formatWord f.1 f.2) formats 3 (readFormat place damaged) =
              some (ecl', k)) ∧
        (7 ≤ readVersion e.qrcode → ∀ place ∈ versionPlaces (getSize e.qrcode), ∀ damaged,
          distance (readVersionBlock place e.qrcode) (readVersionBlock place damaged) ≤ 3 →
            nearest versionWord versions 3 (readVersionBlock place damaged) =
              some (readVersion e.qrcode)) := by
  obtain ⟨e, he, hok⟩ := encodes_hi (.pattern 2)
  exact ⟨e, he, encodeSegmentsAdvanced_identified range_seven (room_seven 0) (room_seven 7) he hok⟩

end

end Shirokumakun.Qr
