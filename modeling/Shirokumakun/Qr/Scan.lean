/-
The zigzag scan, and the codewords along it.

The scan goes up and down pairs of columns from the right, leaving out the column of the
vertical timing pattern, and puts the next bit into each module that is white.  It comes
to every module outside that column once (`mem_scanPositions`, `nodup_scanPositions`), so
what was white when it began is exactly what it finds white, and the modules it fills are
those that are not function modules, in the order of the scan.

How many there are is `getNumRawDataModules`, a formula in the source.  Here the function
patterns are cut into rectangles that do not overlap, and the areas are added up: the
formula is the rest of the square (`length_dataModules`).  So every bit of every codeword
gets a module, which is the assertion at the end of the scan.
-/
import Mathlib.Data.List.Perm.Basic
import Shirokumakun.Qr.Modules

namespace Shirokumakun.Qr

open Packed

/-! ### The functions -/

/-- The right columns of the pairs, from this one on. -/
def scanColumns : ℕ → ℕ → List ℕ
  | 0, _ => []
  | fuel + 1, right =>
      if right < 1 then []
      else
        let right := if right = 6 then 5 else right
        right :: scanColumns fuel (right - 2)

/-- The modules in the order the three loops come to them. -/
def scanPositions (qrsize : ℕ) : List (ℕ × ℕ) :=
  (scanColumns qrsize (qrsize - 1)).flatMap fun right =>
    (List.range qrsize).flatMap fun vert =>
      (List.range 2).map fun j =>
        let upward := (right + 1) &&& 2 == 0
        (right - j, if upward then qrsize - 1 - vert else vert)

/-- One module of the scan; the state is the symbol and the bit index into the data. -/
def drawModule (data : List UInt8) (dataLen : ℕ) (s : List UInt8 × ℕ) (p : ℕ × ℕ) :
    List UInt8 × ℕ :=
  if !getModule s.1 p.1 p.2 && decide (s.2 < dataLen * 8) then
    let black := getBit (data.getD (s.2 >>> 3) 0).toNat (7 - (s.2 &&& 7))
    (setModule s.1 p.1 p.2 black, s.2 + 1)
  else s

/-- The symbol, and the number of bits drawn. -/
def drawCodewords (data : List UInt8) (dataLen : ℕ) (qrcode : List UInt8) : List UInt8 × ℕ :=
  (scanPositions (getSize qrcode)).foldl (drawModule data dataLen) (qrcode, 0)

/-! ### The order of the scan -/

/-- The right columns where there are `k` pairs to the right of the timing pattern. -/
def columns : ℕ → List ℕ
  | 0 => [5, 3, 1]
  | k + 1 => (2 * k + 8) :: columns k

theorem scanColumns_eq {fuel k : ℕ} (h : k + 4 ≤ fuel) :
    scanColumns fuel (2 * k + 6) = columns k := by
  induction k generalizing fuel with
  | zero =>
      obtain ⟨f, rfl⟩ := Nat.exists_eq_add_of_le h
      rw [Nat.add_comm]
      rfl
  | succ k ih =>
      obtain ⟨f, rfl⟩ := Nat.exists_eq_add_of_le' (Nat.succ_le_of_lt (Nat.zero_lt_of_lt h))
      have hpos : ¬ 2 * (k + 1) + 6 < 1 := by omega
      have hsix : ¬ 2 * (k + 1) + 6 = 6 := by omega
      have hnext : 2 * (k + 1) + 6 - 2 = 2 * k + 6 := by omega
      rw [scanColumns, if_neg hpos, if_neg hsix]
      show (2 * (k + 1) + 6) :: scanColumns f (2 * (k + 1) + 6 - 2) = columns (k + 1)
      rw [hnext, ih (by omega)]
      rfl

theorem mem_columns {k r : ℕ} :
    r ∈ columns k ↔ (8 ≤ r ∧ r ≤ 2 * k + 6 ∧ r % 2 = 0) ∨ (r ≤ 5 ∧ r % 2 = 1) := by
  induction k with
  | zero =>
      simp only [columns, List.mem_cons, List.not_mem_nil, or_false]
      omega
  | succ k ih =>
      rw [columns, List.mem_cons, ih]
      omega

theorem nodup_columns (k : ℕ) : (columns k).Nodup := by
  induction k with
  | zero => decide
  | succ k ih =>
      rw [columns, List.nodup_cons, mem_columns]
      exact ⟨by omega, ih⟩

section

variable {version : ℕ}

theorem scanColumns_sizeOf (version : ℕ) :
    scanColumns (sizeOf version) (sizeOf version - 1) = columns (2 * version + 5) := by
  have hsize : sizeOf version - 1 = 2 * (2 * version + 5) + 6 := by
    rw [sizeOf]
    omega
  rw [hsize]
  apply scanColumns_eq
  rw [sizeOf]
  omega

theorem mem_scanPositions {p : ℕ × ℕ} :
    p ∈ scanPositions (sizeOf version) ↔
      p.1 < sizeOf version ∧ p.2 < sizeOf version ∧ p.1 ≠ 6 := by
  have hsize : sizeOf version = 4 * version + 17 := by
    rw [sizeOf]
    omega
  simp only [scanPositions, scanColumns_sizeOf, List.mem_flatMap, List.mem_map, List.mem_range,
    mem_columns]
  constructor
  · rintro ⟨right, hright, vert, hvert, j, hj, rfl⟩
    refine ⟨?_, ?_, ?_⟩
    · dsimp only
      omega
    · dsimp only
      split <;> omega
    · dsimp only
      omega
  · rintro ⟨hx, hy, hsix⟩
    -- the pair of columns is found from the parity, on either side of the timing pattern
    obtain ⟨right, j, hright, hj, hcol⟩ : ∃ right j,
        ((8 ≤ right ∧ right ≤ 2 * (2 * version + 5) + 6 ∧ right % 2 = 0) ∨
          (right ≤ 5 ∧ right % 2 = 1)) ∧ j < 2 ∧ right - j = p.1 := by
      by_cases hfar : 6 < p.1
      · by_cases heven : p.1 % 2 = 0
        · exact ⟨p.1, 0, by omega, by omega, rfl⟩
        · exact ⟨p.1 + 1, 1, by omega, by omega, rfl⟩
      · by_cases heven : p.1 % 2 = 0
        · exact ⟨p.1 + 1, 1, by omega, by omega, rfl⟩
        · exact ⟨p.1, 0, by omega, by omega, rfl⟩
    by_cases hup : ((right + 1) &&& 2 == 0) = true
    · refine ⟨right, hright, sizeOf version - 1 - p.2, by omega, j, hj, ?_⟩
      rw [if_pos hup, hcol, Nat.sub_sub_self (by omega)]
    · refine ⟨right, hright, p.2, hy, j, hj, ?_⟩
      rw [if_neg hup, hcol]

/-- **The scan comes to no module twice.** -/
theorem nodup_scanPositions : (scanPositions (sizeOf version)).Nodup := by
  have hsize : sizeOf version = 4 * version + 17 := by
    rw [sizeOf]
    omega
  rw [scanPositions, scanColumns_sizeOf, List.nodup_flatMap]
  refine ⟨fun right hright => ?_, ?_⟩
  · rw [mem_columns] at hright
    rw [List.nodup_flatMap]
    refine ⟨fun vert _ => ?_, ?_⟩
    · refine List.Nodup.map_on (fun j hj j' hj' h => ?_) List.nodup_range
      have hx := (Prod.mk.inj h).1
      rw [List.mem_range] at hj hj'
      omega
    · refine List.Pairwise.imp_of_mem ?_ List.pairwise_lt_range
      intro vert vert' hvert hvert' hlt p hp hp'
      obtain ⟨j, -, rfl⟩ := List.mem_map.mp hp
      obtain ⟨j', -, h⟩ := List.mem_map.mp hp'
      have hy := (Prod.mk.inj h).2
      rw [List.mem_range] at hvert hvert'
      by_cases hup : ((right + 1) &&& 2 == 0) = true
      · rw [if_pos hup, if_pos hup] at hy
        omega
      · rw [if_neg hup, if_neg hup] at hy
        omega
  · refine List.Pairwise.imp_of_mem ?_ (nodup_columns _)
    intro right right' hright hright' hne p hp hp'
    simp only [List.mem_flatMap, List.mem_map, List.mem_range] at hp hp'
    obtain ⟨vert, -, j, hj, rfl⟩ := hp
    obtain ⟨vert', -, j', hj', h⟩ := hp'
    have hx := (Prod.mk.inj h).1
    rw [mem_columns] at hright hright'
    omega

/-! ### How many modules hold data -/

/-- The modules that are not function modules, in the order of the scan. -/
def dataModules (version : ℕ) : List (ℕ × ℕ) :=
  (scanPositions (sizeOf version)).filter fun p => !isFunction version p

/-- The function patterns without overlaps: the timing patterns, and what the others have
beside them. -/
def functionPieces (version : ℕ) : List Rect :=
  [⟨6, 0, 1, sizeOf version⟩, ⟨0, 6, 6, 1⟩, ⟨7, 6, sizeOf version - 7, 1⟩] ++
    ((functionRects version).drop 2).flatMap (Rect.offLines 6 6)

theorem pieces_apart_check :
    ∀ v ∈ List.range 40, Rect.allApart (functionPieces (v + 1)) = true := by
  decide +kernel

theorem pieces_area_check : ∀ v ∈ List.range 40,
    ((functionPieces (v + 1)).map Rect.area).sum + getNumRawDataModules (v + 1) =
      sizeOf (v + 1) * sizeOf (v + 1) := by
  decide +kernel

/-- The timing patterns are a column and a row; the others are the rest of the list. -/
theorem isFunction_iff {p : ℕ × ℕ} (hx : p.1 < sizeOf version) (hy : p.2 < sizeOf version) :
    isFunction version p = true ↔ (p.1 = 6 ∨ p.2 = 6) ∨
      ∃ r ∈ (functionRects version).drop 2, r.contains p = true := by
  have hrects : functionRects version =
      [⟨6, 0, 1, sizeOf version⟩, ⟨0, 6, sizeOf version, 1⟩] ++ (functionRects version).drop 2 :=
    rfl
  rw [isFunction, hrects, List.any_append, Bool.or_eq_true]
  refine or_congr ?_ List.any_eq_true
  simp only [List.any_cons, List.any_nil, Bool.or_false, Bool.or_eq_true, Rect.contains_iff]
  omega

theorem mem_functionPieces_iff {p : ℕ × ℕ} :
    p ∈ (functionPieces version).flatMap Rect.cells ↔
      (p.1 = 6 ∧ p.2 < sizeOf version ∨ p.2 = 6 ∧ p.1 < sizeOf version) ∨
        ∃ r ∈ (functionRects version).drop 2, r.contains p = true ∧ p.1 ≠ 6 ∧ p.2 ≠ 6 := by
  have hsize : sizeOf version = 4 * version + 17 := by
    rw [sizeOf]
    omega
  simp only [functionPieces, List.flatMap_append, List.mem_append, List.flatMap_cons,
    List.flatMap_nil, List.append_nil, Rect.mem_cells]
  refine or_congr ?_ ?_
  · simp only [Rect.contains_iff]
    omega
  · simp only [List.mem_flatMap, Rect.mem_cells]
    constructor
    · rintro ⟨s, ⟨r, hr, hs⟩, hp⟩
      exact ⟨r, hr, (Rect.contains_offLines 6 6 r p).mp ⟨s, hs, hp⟩⟩
    · rintro ⟨r, hr, hp⟩
      obtain ⟨s, hs, hsp⟩ := (Rect.contains_offLines 6 6 r p).mpr hp
      exact ⟨s, ⟨r, hr, hs⟩, hsp⟩

/-- The pieces cover the function modules. -/
theorem mem_cells_functionPieces (h : Version version) {p : ℕ × ℕ} :
    p ∈ (functionPieces version).flatMap Rect.cells ↔
      (p.1 < sizeOf version ∧ p.2 < sizeOf version) ∧ isFunction version p = true := by
  have hsize : sizeOf version = 4 * version + 17 := by
    rw [sizeOf]
    omega
  rw [mem_functionPieces_iff]
  constructor
  · rintro (hline | ⟨r, hr, hp, -⟩)
    · have hx : p.1 < sizeOf version := by omega
      have hy : p.2 < sizeOf version := by omega
      exact ⟨⟨hx, hy⟩, (isFunction_iff hx hy).mpr (Or.inl (by omega))⟩
    · obtain ⟨hwidth, hheight⟩ := h.rect_le (List.mem_of_mem_drop hr)
      have hcontains := Rect.contains_iff.mp hp
      have hx : p.1 < sizeOf version := by omega
      have hy : p.2 < sizeOf version := by omega
      exact ⟨⟨hx, hy⟩, (isFunction_iff hx hy).mpr (Or.inr ⟨r, hr, hp⟩)⟩
  · rintro ⟨⟨hx, hy⟩, hfunction⟩
    rcases (isFunction_iff hx hy).mp hfunction with hline | ⟨r, hr, hp⟩
    · exact Or.inl (by omega)
    · by_cases hline : p.1 = 6 ∨ p.2 = 6
      · exact Or.inl (by omega)
      · rw [not_or] at hline
        exact Or.inr ⟨r, hr, hp, hline⟩

/-- A function module lies in the grid. -/
theorem inGrid_of_isFunction (h : Version version) {p : ℕ × ℕ} (hp : isFunction version p = true) :
    p.1 < sizeOf version ∧ p.2 < sizeOf version := by
  obtain ⟨r, hr, hcontains⟩ := List.any_eq_true.mp hp
  obtain ⟨hwidth, hheight⟩ := h.rect_le hr
  rw [Rect.contains_iff] at hcontains
  omega

theorem nodup_dataModules : (dataModules version).Nodup := nodup_scanPositions.filter _

theorem mem_dataModules {p : ℕ × ℕ} :
    p ∈ dataModules version ↔
      (p.1 < sizeOf version ∧ p.2 < sizeOf version) ∧ isFunction version p = false := by
  rw [dataModules, List.mem_filter, mem_scanPositions, Bool.not_eq_true']
  constructor
  · rintro ⟨⟨hx, hy, -⟩, hfunction⟩
    exact ⟨⟨hx, hy⟩, hfunction⟩
  · rintro ⟨⟨hx, hy⟩, hfunction⟩
    refine ⟨⟨hx, hy, fun hsix => ?_⟩, hfunction⟩
    -- the column the scan leaves out is a timing pattern
    have htiming := (isFunction_iff hx hy).mpr (Or.inl (Or.inl hsix))
    exact absurd (hfunction.symm.trans htiming) (by decide)

/-- All modules of the grid, row by row. -/
def square (qrsize : ℕ) : List (ℕ × ℕ) := Rect.cells ⟨0, 0, qrsize, qrsize⟩

theorem mem_square {qrsize : ℕ} {p : ℕ × ℕ} : p ∈ square qrsize ↔ p.1 < qrsize ∧ p.2 < qrsize := by
  rw [square, Rect.mem_cells, Rect.contains_iff]
  dsimp only
  omega

theorem nodup_square (qrsize : ℕ) : (square qrsize).Nodup := Rect.nodup_cells _

/-- The scan comes to the modules that are not function modules. -/
theorem perm_dataModules (version : ℕ) :
    ((square (sizeOf version)).filter fun p => !isFunction version p).Perm
      (dataModules version) := by
  refine (List.perm_ext_iff_of_nodup ((nodup_square _).filter _) nodup_dataModules).mpr fun p => ?_
  rw [List.mem_filter, mem_square, mem_dataModules, Bool.not_eq_true']

/-- The formula counts the modules: as many as are not function modules. -/
theorem length_dataModules (h : Version version) :
    (dataModules version).length = getNumRawDataModules version := by
  have hsplit := List.length_eq_length_filter_add
    (l := square (sizeOf version)) (isFunction version)
  have hfunction : ((square (sizeOf version)).filter (isFunction version)).Perm
      ((functionPieces version).flatMap Rect.cells) := by
    obtain ⟨v, hv, rfl⟩ := h.exists_mem
    refine (List.perm_ext_iff_of_nodup ((nodup_square _).filter _)
      (Rect.nodup_flatMap_cells (pieces_apart_check v hv))).mpr fun p => ?_
    rw [List.mem_filter, mem_square, mem_cells_functionPieces h]
  have harea : ((functionPieces version).map Rect.area).sum + getNumRawDataModules version =
      sizeOf version * sizeOf version := by
    obtain ⟨v, hv, rfl⟩ := h.exists_mem
    exact pieces_area_check v hv
  have hsquare : (square (sizeOf version)).length = sizeOf version * sizeOf version :=
    Rect.length_cells _
  rw [hsquare, hfunction.length_eq, (perm_dataModules version).length_eq,
    Rect.length_flatMap_cells] at hsplit
  omega

end

/-! ### What the scan draws -/

theorem dataBit_eq_read (data : List UInt8) (i : ℕ) :
    getBit (data.getD (i >>> 3) 0).toNat (7 - (i &&& 7)) = Packed.read msb data i := by
  have hand : i &&& 7 = i % 8 := Nat.and_two_pow_sub_one_eq_mod i 3
  rw [getBit_eq_testBit, hand, Nat.shiftRight_eq_div_pow]
  rfl

theorem drop_stream (o : Order) (buffer : List UInt8) {n i : ℕ} (h : i < n) :
    (stream o buffer n).drop i = Packed.read o buffer i :: (stream o buffer n).drop (i + 1) := by
  have hlen : i < (stream o buffer n).length := by rwa [length_stream]
  rw [List.drop_eq_getElem_cons hlen]
  congr 1
  rw [← List.getD_eq_getElem _ false hlen, getD_stream o buffer h]

/-- **The scan over any places that come once each**: those that are white take the next
bits, in order, as far as there are bits. -/
theorem foldl_drawModule (data : List UInt8) (dataLen : ℕ) {ps : List (ℕ × ℕ)}
    {qrcode : List UInt8} {i : ℕ} (hnodup : ps.Nodup) (hvalid : ∀ p ∈ ps, InGrid qrcode p)
    (hi : i ≤ dataLen * 8) :
    ps.foldl (drawModule data dataLen) (qrcode, i) =
      (gridMemory.write qrcode ((ps.filter fun p => !getModule qrcode p.1 p.2).zip
          ((stream msb data (dataLen * 8)).drop i)),
        min (i + (ps.filter fun p => !getModule qrcode p.1 p.2).length) (dataLen * 8)) := by
  induction ps generalizing qrcode i with
  | nil => simp [Memory.write, Nat.min_eq_left hi]
  | cons p ps ih =>
      obtain ⟨hnotin, hrest⟩ := List.nodup_cons.mp hnodup
      have hp := hvalid p (by simp)
      have hps : ∀ q ∈ ps, InGrid qrcode q := fun q hq => hvalid q (by simp [hq])
      rw [List.foldl_cons, drawModule]
      by_cases hblack : getModule qrcode p.1 p.2 = true
      · have hfilter : (p :: ps).filter (fun p => !getModule qrcode p.1 p.2) =
            ps.filter fun p => !getModule qrcode p.1 p.2 :=
          List.filter_cons_of_neg (by simp [hblack])
        rw [hfilter, if_neg (by simp [hblack]), ih hrest hps hi]
      · have hwhite : getModule qrcode p.1 p.2 = false := Bool.eq_false_of_not_eq_true hblack
        have hfilter : (p :: ps).filter (fun p => !getModule qrcode p.1 p.2) =
            p :: ps.filter fun p => !getModule qrcode p.1 p.2 :=
          List.filter_cons_of_pos (by simp [hwhite])
        rw [hfilter]
        by_cases hlt : i < dataLen * 8
        · rw [if_pos (by simp [hwhite, hlt]), dataBit_eq_read]
          -- the module that is drawn does not come again, so the rest is as it was
          have hkeep : ∀ q ∈ ps, getModule (setModule qrcode p.1 p.2
              (Packed.read msb data i)) q.1 q.2 = getModule qrcode q.1 q.2 := by
            intro q hq
            have hne : q ≠ p := fun h => hnotin (h ▸ hq)
            rw [getModule_setModule _ hp (hps q hq), if_neg hne]
          have hvalid' : ∀ q ∈ ps, InGrid (setModule qrcode p.1 p.2 (Packed.read msb data i)) q :=
            fun q hq => gridMemory.valid_set (hps q hq)
          have hsame : (ps.filter fun q => !getModule (setModule qrcode p.1 p.2
              (Packed.read msb data i)) q.1 q.2) = ps.filter fun q => !getModule qrcode q.1 q.2 :=
            List.filter_congr fun q hq => by rw [hkeep q hq]
          rw [ih hrest hvalid' hlt, hsame, drop_stream msb data hlt, List.zip_cons_cons,
            List.length_cons]
          refine Prod.ext rfl ?_
          show min (i + 1 + _) _ = min (i + (_ + 1)) _
          rw [Nat.add_assoc, Nat.add_comm 1]
        · obtain rfl : i = dataLen * 8 := by omega
          have hend : (stream msb data (dataLen * 8)).drop (dataLen * 8) = [] := by
            rw [List.drop_eq_nil_iff, length_stream]
          rw [if_neg (by simp), ih hrest hps hi, hend, List.zip_nil_right, List.zip_nil_right,
            List.length_cons]
          refine Prod.ext rfl ?_
          show min (_ + _) _ = min (_ + (_ + 1)) _
          omega

section

variable {version : ℕ} {qrcode : List UInt8}

/-- Black is drawn where the function modules are, and nowhere else. -/
def Marked (version : ℕ) (qrcode : List UInt8) : Prop :=
  ∀ p : ℕ × ℕ, p.1 < sizeOf version → p.2 < sizeOf version →
    getModule qrcode p.1 p.2 = isFunction version p

theorem marked_initializeFunctionModules (h : Version version)
    (hroom : bufferLenForVersion version ≤ qrcode.length) :
    Marked version (initializeFunctionModules version qrcode) :=
  fun _ hx hy => getModule_initializeFunctionModules h hroom hx hy

/-- The data modules take the bits of the codewords, in the order of the scan. -/
theorem drawCodewords_eq (h : Symbol version qrcode) (hmarked : Marked version qrcode)
    (data : List UInt8) (dataLen : ℕ) :
    drawCodewords data dataLen qrcode =
      (gridMemory.write qrcode ((dataModules version).zip (stream msb data (dataLen * 8))),
        min (getNumRawDataModules version) (dataLen * 8)) := by
  have hvalid : ∀ p ∈ scanPositions (sizeOf version), InGrid qrcode p := by
    intro p hp
    obtain ⟨hx, hy, -⟩ := mem_scanPositions.mp hp
    exact h.inGrid hx hy
  have hfilter : ((scanPositions (sizeOf version)).filter fun p => !getModule qrcode p.1 p.2) =
      dataModules version := by
    refine List.filter_congr fun p hp => ?_
    obtain ⟨hx, hy, -⟩ := mem_scanPositions.mp hp
    rw [hmarked p hx hy]
  rw [drawCodewords, h.size_eq, foldl_drawModule data dataLen nodup_scanPositions hvalid
    (Nat.zero_le _), hfilter, length_dataModules h.version_ok, List.drop_zero, Nat.zero_add]

/-- **All bits are drawn**: the assertion at the end of the scan holds. -/
theorem drawCodewords_complete (h : Symbol version qrcode) (hmarked : Marked version qrcode)
    (data : List UInt8) :
    (drawCodewords data (getNumRawDataModules version / 8) qrcode).2 =
      getNumRawDataModules version / 8 * 8 := by
  rw [drawCodewords_eq h hmarked]
  exact Nat.min_eq_right (Nat.div_mul_le_self _ 8)

/-- The bits of the first `n` modules of the scan that hold data. -/
def readModules (version n : ℕ) (qrcode : List UInt8) : List Bool :=
  ((dataModules version).take n).map fun p => getModule qrcode p.1 p.2

theorem allValid_zip (h : Symbol version qrcode) (bs : List Bool) :
    gridMemory.AllValid qrcode ((dataModules version).zip bs) := by
  intro w hw
  have hp := mem_dataModules.mp (List.of_mem_zip (a := w.1) (b := w.2) hw).1
  exact h.inGrid hp.1.1 hp.1.2

theorem map_fst_zip_eq_take {α β : Type*} (xs : List α) (ys : List β) :
    (xs.zip ys).map Prod.fst = xs.take ys.length := by
  induction xs generalizing ys with
  | nil => simp
  | cons x xs ih =>
      cases ys with
      | nil => simp
      | cons y ys => simp [ih]

theorem nodup_fst_zip (bs : List Bool) : (((dataModules version).zip bs).map Prod.fst).Nodup := by
  rw [map_fst_zip_eq_take]
  exact nodup_dataModules.sublist (List.take_sublist _ _)

/-- A module that takes no bit is as it was marked. -/
theorem getModule_drawCodewords (h : Symbol version qrcode) (hmarked : Marked version qrcode)
    (data : List UInt8) (dataLen : ℕ) {p : ℕ × ℕ} (hx : p.1 < sizeOf version)
    (hy : p.2 < sizeOf version) (hp : p ∉ (dataModules version).take (dataLen * 8)) :
    getModule (drawCodewords data dataLen qrcode).1 p.1 p.2 = isFunction version p := by
  rw [drawCodewords_eq h hmarked, ← hmarked p hx hy]
  refine Memory.get_write_of_notMem (m := gridMemory) (allValid_zip h _) (h.inGrid hx hy) ?_
  rwa [map_fst_zip_eq_take, length_stream]

theorem Symbol.drawCodewords (h : Symbol version qrcode) (hmarked : Marked version qrcode)
    (data : List UInt8) (dataLen : ℕ) : Symbol version (drawCodewords data dataLen qrcode).1 := by
  rw [drawCodewords_eq h hmarked]
  exact h.write _

/-- What was drawn along the scan is read back along it. -/
theorem readModules_write (h : Symbol version qrcode) {bs : List Bool}
    (hlen : bs.length ≤ getNumRawDataModules version) :
    readModules version bs.length (gridMemory.write qrcode ((dataModules version).zip bs)) =
      bs := by
  have htake : ((dataModules version).take bs.length).length = bs.length := by
    rw [List.length_take, length_dataModules h.version_ok, Nat.min_eq_left hlen]
  apply List.ext_getElem (by rw [readModules, List.length_map, htake])
  intro i hi hi'
  have hmod : i < (dataModules version).length := by
    rw [length_dataModules h.version_ok]
    omega
  simp only [readModules, List.getElem_map, List.getElem_take]
  refine Memory.get_write_of_mem (m := gridMemory) (allValid_zip h bs) (nodup_fst_zip bs) ?_
  rw [← List.getElem_zip (h := by rw [List.length_zip]; omega)]
  exact List.getElem_mem _

/-! #### What a symbol looks like after the scan -/

/-- **The scan**: every bit of the codewords is drawn and can be read along it, the
function modules are still black and the modules left over still white. -/
theorem drawCodewords_spec (h : Version version)
    (hroom : bufferLenForVersion version ≤ qrcode.length) (data : List UInt8) :
    (drawCodewords data (getNumRawDataModules version / 8)
        (initializeFunctionModules version qrcode)).2 = getNumRawDataModules version / 8 * 8 ∧
      readModules version (getNumRawDataModules version / 8 * 8)
          (drawCodewords data (getNumRawDataModules version / 8)
            (initializeFunctionModules version qrcode)).1 =
        stream msb data (getNumRawDataModules version / 8 * 8) ∧
      (∀ p, isFunction version p = true →
        getModule (drawCodewords data (getNumRawDataModules version / 8)
          (initializeFunctionModules version qrcode)).1 p.1 p.2 = true) ∧
      ∀ p ∈ (dataModules version).drop (getNumRawDataModules version / 8 * 8),
        getModule (drawCodewords data (getNumRawDataModules version / 8)
          (initializeFunctionModules version qrcode)).1 p.1 p.2 = false := by
  have hsymbol := symbol_initializeFunctionModules h hroom
  have hmarked := marked_initializeFunctionModules h hroom
  have hlen : (stream msb data (getNumRawDataModules version / 8 * 8)).length =
      getNumRawDataModules version / 8 * 8 := length_stream _ _ _
  have hfits := Nat.div_mul_le_self (getNumRawDataModules version) 8
  have hkeep := fun p => getModule_drawCodewords (p := p) hsymbol hmarked data
    (getNumRawDataModules version / 8)
  refine ⟨drawCodewords_complete hsymbol hmarked data, ?_, fun p hp => ?_, fun p hp => ?_⟩
  · have hread := readModules_write hsymbol (hlen.le.trans hfits)
    rw [hlen] at hread
    rw [drawCodewords_eq hsymbol hmarked]
    exact hread
  · have hgrid := inGrid_of_isFunction h hp
    rw [hkeep p hgrid.1 hgrid.2 fun hmem => ?_, hp]
    exact absurd ((mem_dataModules.mp (List.mem_of_mem_take hmem)).2.symm.trans hp) (by decide)
  · have hdata := mem_dataModules.mp (List.mem_of_mem_drop hp)
    have hsplit := List.take_append_drop (getNumRawDataModules version / 8 * 8)
      (dataModules version)
    have hnodup : ((dataModules version).take (getNumRawDataModules version / 8 * 8) ++
        (dataModules version).drop (getNumRawDataModules version / 8 * 8)).Nodup := by
      rw [hsplit]
      exact nodup_dataModules
    rw [hkeep p hdata.1.1 hdata.1.2 fun hmem => ?_, hdata.2]
    exact (List.nodup_append'.mp hnodup).2.2 hmem hp

theorem drawCodewords_spec_one :
    (drawCodewords [1, 2, 3] (getNumRawDataModules 1 / 8)
        (initializeFunctionModules 1 (List.replicate 57 9))).2 = getNumRawDataModules 1 / 8 * 8 ∧
      readModules 1 (getNumRawDataModules 1 / 8 * 8)
          (drawCodewords [1, 2, 3] (getNumRawDataModules 1 / 8)
            (initializeFunctionModules 1 (List.replicate 57 9))).1 =
        stream msb [1, 2, 3] (getNumRawDataModules 1 / 8 * 8) ∧
      (∀ p, isFunction 1 p = true →
        getModule (drawCodewords [1, 2, 3] (getNumRawDataModules 1 / 8)
          (initializeFunctionModules 1 (List.replicate 57 9))).1 p.1 p.2 = true) ∧
      ∀ p ∈ (dataModules 1).drop (getNumRawDataModules 1 / 8 * 8),
        getModule (drawCodewords [1, 2, 3] (getNumRawDataModules 1 / 8)
          (initializeFunctionModules 1 (List.replicate 57 9))).1 p.1 p.2 = false :=
  drawCodewords_spec ⟨by decide, by decide⟩ (by decide) [1, 2, 3]

/-- **The formula counts what the marking leaves white**, in every version. -/
theorem getNumRawDataModules_eq_count (h : Version version)
    (hroom : bufferLenForVersion version ≤ qrcode.length) :
    getNumRawDataModules version = (square (sizeOf version)).countP fun p =>
      !getModule (initializeFunctionModules version qrcode) p.1 p.2 := by
  have hcount : (square (sizeOf version)).countP (fun p =>
      !getModule (initializeFunctionModules version qrcode) p.1 p.2) =
        (square (sizeOf version)).countP fun p => !isFunction version p := by
    refine List.countP_congr fun p hp => ?_
    obtain ⟨hx, hy⟩ := mem_square.mp hp
    rw [marked_initializeFunctionModules h hroom p hx hy]
  rw [hcount, List.countP_eq_length_filter, (perm_dataModules version).length_eq,
    length_dataModules h]

theorem getNumRawDataModules_eq_count_seven :
    getNumRawDataModules 7 = (square (sizeOf 7)).countP fun p =>
      !getModule (initializeFunctionModules 7 (List.replicate 300 0)) p.1 p.2 :=
  getNumRawDataModules_eq_count ⟨by decide, by decide⟩ (by rw [List.length_replicate]; decide)

end

end Shirokumakun.Qr
