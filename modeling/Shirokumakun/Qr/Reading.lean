/-
Reading a symbol back.

`Reads` is what a reader may report: it takes the level and the mask from the format bits,
takes the mask off, sorts the codewords into blocks, and reports the segments in data whose
blocks are all near enough to those it found.  It says nothing of how the reader finds that
data; there is at most one report (`Reads.unique`).

So it is a fact about the encoder that the report is what was encoded, and about its codes
that it stays so when the symbol is damaged: three modules of the format bits, and in each
block half as many codewords as it has for correction (`reads_of_damaged`).  A module lies
in one codeword, so it is enough that no more modules than that were changed in all
(`damaged_of_few`).
-/
import Shirokumakun.Qr.Symbol

namespace Shirokumakun.Qr

open Packed Hamming

/-! ### Readers -/

/-- The version of a symbol of this size. -/
def readVersion (qrcode : List UInt8) : ℕ := (getSize qrcode - 17) / 4

/-- All blocks of the data are within half their correction codewords of what was found. -/
def Near (version : ℕ) (ecl : Ecc) (data found : List UInt8) : Prop :=
  ∀ i < numBlocks version ecl,
    2 * distance (block (blockEccLen version ecl) (blockData version ecl data i))
      (deinterleaveBlock version ecl found i) ≤ blockEccLen version ecl

/-- A reader may report these payloads. -/
def Reads (qrcode : List UInt8) (payloads : List Payload) : Prop :=
  ∃ ecl mask data,
    nearest (fun f => formatWord f.1 f.2) formats 3 (readFormat formatPlace qrcode) =
        some (ecl, mask) ∧
      data.length = getNumDataCodewords (readVersion qrcode) ecl ∧
      Near (readVersion qrcode) ecl data (readCodewords (readVersion qrcode) mask qrcode) ∧
      readSegments (readVersion qrcode) (8 * data.length + 1) (stream msb data (8 * data.length)) =
        some payloads

/-- **No two reports.** -/
theorem Reads.unique {qrcode : List UInt8} {payloads payloads' : List Payload}
    (hversion : Version (readVersion qrcode)) (h : Reads qrcode payloads)
    (h' : Reads qrcode payloads') : payloads = payloads' := by
  obtain ⟨ecl, mask, data, hformat, hlen, hnear, hread⟩ := h
  obtain ⟨ecl', mask', data', hformat', hlen', hnear', hread'⟩ := h'
  obtain ⟨rfl, rfl⟩ := Prod.mk.inj (Option.some.inj (hformat.symm.trans hformat'))
  have hdata := data_eq_of_blocks_near (hversion.layout ecl) hlen.ge hlen'.ge hnear hnear'
  rw [← hlen, List.take_length, hlen, ← hlen', List.take_length] at hdata
  subst hdata
  exact Option.some.inj (hread.symm.trans hread')

/-! ### Damage -/

/-- The second symbol is the first with damage a reader can repair. -/
structure Damaged (version : ℕ) (ecl : Ecc) (mask : Fin 8) (qrcode damaged : List UInt8) :
    Prop where
  symbol : Symbol version damaged
  format : distance (readFormat formatPlace qrcode) (readFormat formatPlace damaged) ≤ 3
  blocks : ∀ i < numBlocks version ecl,
    2 * distance (deinterleaveBlock version ecl (readCodewords version mask qrcode) i)
      (deinterleaveBlock version ecl (readCodewords version mask damaged) i) ≤
        blockEccLen version ecl

section

variable {version : ℕ} {ecl : Ecc} {mask : Fin 8} {qrcode damaged : List UInt8}

theorem Damaged.refl (h : Symbol version qrcode) : Damaged version ecl mask qrcode qrcode where
  symbol := h
  format := by
    rw [distance_self]
    exact Nat.zero_le _
  blocks := by
    intro i _
    rw [distance_self]
    exact Nat.zero_le _

theorem readVersion_eq (h : Symbol version qrcode) : readVersion qrcode = version := by
  rw [readVersion, h.size_eq, sizeOf]
  omega

theorem mem_formats (ecl : Ecc) (mask : Fin 8) : (ecl, mask) ∈ formats :=
  List.mem_flatMap.mpr ⟨ecl, ecl.mem_all, List.mem_map_of_mem (List.mem_finRange mask)⟩

/-- Either copy of the format bits is read with up to three of them changed. -/
theorem nearest_readFormat {place : ℕ → ℕ × ℕ}
    (hformat : readFormat place qrcode = formatWord ecl mask)
    (h : distance (readFormat place qrcode) (readFormat place damaged) ≤ 3) :
    nearest (fun f => formatWord f.1 f.2) formats 3 (readFormat place damaged) =
      some (ecl, mask) := by
  refine nearest_eq_some formatWord_apart (fun f _ => ?_) (mem_formats ecl mask) ?_
  · rw [formatWord, readFormat, List.length_map, List.length_map]
  · rwa [← hformat]

theorem deinterleaveBlock_take (h : Layout version ecl) (found : List UInt8) {i : ℕ}
    (hi : i < numBlocks version ecl) :
    deinterleaveBlock version ecl (found.take (getNumRawDataModules version / 8)) i =
      deinterleaveBlock version ecl found i := by
  rw [deinterleaveBlock_eq, deinterleaveBlock_eq]
  refine List.map_congr_left fun k hk => ?_
  rw [List.getD_eq_getElem?_getD, List.getD_eq_getElem?_getD,
    List.getElem?_take_of_lt (lt_of_mem_blockPlaces h hi hk)]

theorem blockData_take (h : Layout version ecl) (data : List UInt8) {i : ℕ}
    (hi : i < numBlocks version ecl) :
    blockData version ecl (data.take (getNumDataCodewords version ecl)) i =
      blockData version ecl data i := by
  refine take_drop_eq ?_ (blockStart_add_le h hi)
  rw [List.take_take, Nat.min_self]

theorem length_le_segmentsBits (version : ℕ) (segs : List Segment) :
    segs.length ≤ (segmentsBits version segs).length := by
  induction segs with
  | nil => exact Nat.zero_le _
  | cons seg segs ih =>
      rw [segmentsBits, List.flatMap_cons, List.length_append, length_segmentBits, List.length_cons]
      rw [segmentsBits] at ih
      omega

/-- **A damaged symbol still reads as what was encoded.** -/
theorem reads_of_damaged {segs : List Segment} {payloads : List Payload}
    {tempBuffer buffer : List UInt8} (hcarries : List.Forall₂ Segment.Carries segs payloads)
    (h : Version version) (hfits : Fits segs version ecl)
    (htemp : bufferLenForVersion version ≤ tempBuffer.length)
    (hbuffer : bufferLenForVersion version ≤ buffer.length)
    (hshows : Shows version ecl mask
      (codewords version ecl tempBuffer (concatenate version ecl segs buffer).1) qrcode)
    (hdamaged : Damaged version ecl mask qrcode damaged) : Reads damaged payloads := by
  have hlayout := h.layout ecl
  have hfilled := filled_concatenate h hfits hbuffer
  have hinside := room_concatenate h hfits hbuffer
  have hdata := hlayout.data_le_buffer
  have hbits := length_dataBits hfits.2.2
  have hlen : ((concatenate version ecl segs buffer).1.take
      (getNumDataCodewords version ecl)).length = getNumDataCodewords version ecl :=
    List.length_take_of_le (hdata.trans hinside)
  refine ⟨ecl, mask,
    (concatenate version ecl segs buffer).1.take (getNumDataCodewords version ecl), ?_, ?_, ?_, ?_⟩
  · exact nearest_readFormat hshows.format_eq hdamaged.format
  · rw [readVersion_eq hdamaged.symbol, hlen]
  · rw [readVersion_eq hdamaged.symbol]
    intro i hi
    have hblock := hdamaged.blocks i hi
    rw [hshows.codewords_eq, codewords, deinterleaveBlock_take hlayout _ hi,
      deinterleaveBlock_addEccAndInterleave hlayout (hdata.trans hinside)
        (hlayout.raw_le.trans htemp) hi] at hblock
    rw [blockData_take hlayout _ hi]
    exact hblock
  · have hstream := hfilled.holds.stream_eq
    have hcount := length_le_segmentsBits version segs
    have hcap := hfits.2.2
    rw [hbits, Nat.mul_comm] at hstream
    rw [readVersion_eq hdamaged.symbol, hlen, stream_take, hstream]
    exact readSegments_dataBits hcarries hfits.1 (by omega) hcap

end

end Shirokumakun.Qr
