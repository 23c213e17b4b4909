/-
The grid of modules, and which of them are function modules.

A symbol is one buffer: its size in the first byte, then one bit for each module, row by
row, the lowest bit of a byte first.  `gridMemory` is that buffer as a memory with
coordinates for places, so that every drawing function of the source is a list of writes
and the general facts about writes say what it leaves behind.

`initializeFunctionModules` marks the modules that carry no data.  `isFunction` is the
same set by its geometry, and the two agree on every module of every version
(`getModule_initializeFunctionModules`).
-/
import Shirokumakun.Lib.Rects
import Shirokumakun.Lib.Writes
import Shirokumakun.Qr.Capacity

namespace Shirokumakun.Qr

open Packed

/-! ### Single modules -/

/-- Whether bit `i` of `x` is set. -/
def getBit (x i : ℕ) : Bool := (x >>> i) &&& 1 != 0

def getSize (qrcode : List UInt8) : ℕ := (qrcode.getD 0 0).toNat

def getModule (qrcode : List UInt8) (x y : ℕ) : Bool :=
  let index := y * getSize qrcode + x
  getBit (qrcode.getD ((index >>> 3) + 1) 0).toNat (index &&& 7)

def setModule (qrcode : List UInt8) (x y : ℕ) (isBlack : Bool) : List UInt8 :=
  let index := y * getSize qrcode + x
  let bitIndex := index &&& 7
  let byteIndex := (index >>> 3) + 1
  if isBlack then qrcode.modify byteIndex fun b => b ||| UInt8.ofNat (1 <<< bitIndex)
  else qrcode.modify byteIndex fun b => b &&& UInt8.ofNat ((1 <<< bitIndex) ^^^ 0xFF)

def setModuleBounded (qrcode : List UInt8) (x y : ℤ) (isBlack : Bool) : List UInt8 :=
  let qrsize : ℤ := getSize qrcode
  if 0 ≤ x ∧ x < qrsize ∧ 0 ≤ y ∧ y < qrsize then setModule qrcode x.toNat y.toNat isBlack
  else qrcode

/-- `qrcodegen_getModule`: white outside the symbol. -/
def getModuleBounded (qrcode : List UInt8) (x y : ℤ) : Bool :=
  let qrsize : ℤ := getSize qrcode
  decide (0 ≤ x ∧ x < qrsize ∧ 0 ≤ y ∧ y < qrsize) && getModule qrcode x.toNat y.toNat

/-! ### The grid as a memory -/

/-- The index of the bit in the whole buffer, the size byte included. -/
def bitIndex (size x y : ℕ) : ℕ := y * size + x + 8

theorem getBit_eq_testBit (x i : ℕ) : getBit x i = x.testBit i := by
  rw [getBit, Nat.testBit_eq_decide_div_mod_eq, Nat.and_one_is_mod, Nat.shiftRight_eq_div_pow]
  rcases Nat.mod_two_eq_zero_or_one (x / 2 ^ i) with h | h <;> simp [h]

theorem getModule_eq_read (qrcode : List UInt8) (x y : ℕ) :
    getModule qrcode x y = Packed.read lsb qrcode (bitIndex (getSize qrcode) x y) := by
  have hbyte : (y * getSize qrcode + x + 8) / 8 = (y * getSize qrcode + x) / 8 + 1 :=
    Nat.add_div_right _ (by decide)
  have hplace : (y * getSize qrcode + x + 8) % 8 = (y * getSize qrcode + x) % 8 :=
    Nat.add_mod_right _ _
  have hand : (y * getSize qrcode + x) &&& 7 = (y * getSize qrcode + x) % 8 :=
    Nat.and_two_pow_sub_one_eq_mod _ 3
  rw [getModule, getBit_eq_testBit, hand, Nat.shiftRight_eq_div_pow, Packed.read, byteBit,
    bitIndex, hbyte]
  show _ = (_ : ℕ).testBit ((y * getSize qrcode + x + 8) % 8)
  rw [hplace]

theorem setModule_eq (qrcode : List UInt8) (x y : ℕ) (isBlack : Bool) :
    setModule qrcode x y isBlack =
      if isBlack then orBit lsb qrcode (bitIndex (getSize qrcode) x y) true
      else clearBit lsb qrcode (bitIndex (getSize qrcode) x y) := by
  have hbyte : (y * getSize qrcode + x + 8) / 8 = (y * getSize qrcode + x) / 8 + 1 :=
    Nat.add_div_right _ (by decide)
  have hplace : lsb.place (y * getSize qrcode + x + 8) = (y * getSize qrcode + x) % 8 :=
    Nat.add_mod_right _ _
  have hand : (y * getSize qrcode + x) &&& 7 = (y * getSize qrcode + x) % 8 :=
    Nat.and_two_pow_sub_one_eq_mod _ 3
  rw [setModule, hand, Nat.shiftRight_eq_div_pow, orBit, clearBit, bitIndex, hbyte, hplace]
  rfl

/-- The module is in the grid, and the grid in the buffer. -/
def InGrid (qrcode : List UInt8) (p : ℕ × ℕ) : Prop :=
  p.1 < getSize qrcode ∧ p.2 < getSize qrcode ∧
    getSize qrcode * getSize qrcode + 8 ≤ 8 * qrcode.length

theorem bitIndex_lt {size x y : ℕ} (hx : x < size) (hy : y < size) :
    bitIndex size x y < size * size + 8 := by
  have hle := Nat.mul_le_mul_right size (Nat.succ_le_of_lt hy)
  rw [Nat.succ_mul] at hle
  rw [bitIndex]
  omega

theorem bitIndex_inj {size x x' y y' : ℕ} (hx : x < size) (hx' : x' < size)
    (h : bitIndex size x y = bitIndex size x' y') : x = x' ∧ y = y' := by
  have hpos : 0 < size := Nat.zero_lt_of_lt hx
  have hsum : y * size + x = y' * size + x' := Nat.add_right_cancel h
  have hmod := congrArg (· % size) hsum
  have hdiv := congrArg (· / size) hsum
  simp only [Nat.mul_add_mod_self_right, Nat.mod_eq_of_lt hx, Nat.mod_eq_of_lt hx'] at hmod
  rw [Nat.add_comm, Nat.add_comm (y' * size)] at hdiv
  simp only [Nat.add_mul_div_right _ _ hpos, Nat.div_eq_of_lt hx, Nat.div_eq_of_lt hx',
    Nat.zero_add] at hdiv
  exact ⟨hmod, hdiv⟩

theorem length_setModule (qrcode : List UInt8) (x y : ℕ) (isBlack : Bool) :
    (setModule qrcode x y isBlack).length = qrcode.length := by
  rw [setModule_eq]
  cases isBlack with
  | false => simp
  | true => simp

theorem getSize_setModule (qrcode : List UInt8) (x y : ℕ) (isBlack : Bool) :
    getSize (setModule qrcode x y isBlack) = getSize qrcode := by
  have hkeep : ∀ (k : ℕ) (f : UInt8 → UInt8),
      (qrcode.modify (k + 1) f).getD 0 0 = qrcode.getD 0 0 := by
    intro k f
    cases qrcode with
    | nil => simp
    | cons a rest => simp
  rw [getSize, setModule, getSize]
  cases isBlack with
  | false => exact congrArg UInt8.toNat (hkeep _ _)
  | true => exact congrArg UInt8.toNat (hkeep _ _)

theorem getModule_setModule {qrcode : List UInt8} {p q : ℕ × ℕ} (isBlack : Bool)
    (hp : InGrid qrcode p) (hq : InGrid qrcode q) :
    getModule (setModule qrcode p.1 p.2 isBlack) q.1 q.2 =
      if q = p then isBlack else getModule qrcode q.1 q.2 := by
  have hin : bitIndex (getSize qrcode) p.1 p.2 < 8 * qrcode.length :=
    (bitIndex_lt hp.1 hp.2.1).trans_le hp.2.2
  have hiff : bitIndex (getSize qrcode) q.1 q.2 = bitIndex (getSize qrcode) p.1 p.2 ↔ q = p := by
    refine ⟨fun h => ?_, fun h => by rw [h]⟩
    obtain ⟨hx, hy⟩ := bitIndex_inj hq.1 hp.1 h
    exact Prod.ext hx hy
  rw [getModule_eq_read, getSize_setModule, setModule_eq, getModule_eq_read]
  cases isBlack with
  | false =>
      rw [if_neg (by decide), read_clearBit lsb hin]
      by_cases h : q = p
      · simp [h]
      · simp [h, hiff]
  | true =>
      rw [if_pos rfl, read_orBit lsb true hin]
      by_cases h : q = p
      · simp [h]
      · simp [h, hiff]

/-- The modules of a symbol, read and written by their coordinates. -/
def gridMemory : Memory (List UInt8) (ℕ × ℕ) Bool where
  get := fun qrcode p => getModule qrcode p.1 p.2
  set := fun qrcode p isBlack => setModule qrcode p.1 p.2 isBlack
  Valid := InGrid
  valid_set := fun h => by
    rw [InGrid, getSize_setModule, length_setModule]
    exact h
  get_set_self := fun h => by
    rw [getModule_setModule _ h h, if_pos rfl]
  get_set_ne := fun hi hj hne => by
    rw [getModule_setModule _ hi hj, if_neg hne]

theorem getSize_write (qrcode : List UInt8) (ws : List ((ℕ × ℕ) × Bool)) :
    getSize (gridMemory.write qrcode ws) = getSize qrcode := by
  induction ws generalizing qrcode with
  | nil => rfl
  | cons w ws ih => exact (ih _).trans (getSize_setModule _ _ _ _)

theorem length_write (qrcode : List UInt8) (ws : List ((ℕ × ℕ) × Bool)) :
    (gridMemory.write qrcode ws).length = qrcode.length := by
  induction ws generalizing qrcode with
  | nil => rfl
  | cons w ws ih => exact (ih _).trans (length_setModule _ _ _ _)

/-! #### Nothing else in the buffer -/

/-- Every bit of the buffer that is no module of the grid stays as it is. -/
theorem read_write_of_outside {qrcode : List UInt8} {ws : List ((ℕ × ℕ) × Bool)} {i : ℕ}
    (h : gridMemory.AllValid qrcode ws)
    (hi : ∀ p, InGrid qrcode p → i ≠ bitIndex (getSize qrcode) p.1 p.2) :
    Packed.read lsb (gridMemory.write qrcode ws) i = Packed.read lsb qrcode i := by
  induction ws generalizing qrcode with
  | nil => rfl
  | cons w ws ih =>
      have hw : InGrid qrcode w.1 := h w (by simp)
      have hlt : bitIndex (getSize qrcode) w.1.1 w.1.2 < 8 * qrcode.length :=
        (bitIndex_lt hw.1 hw.2.1).trans_le hw.2.2
      have hset : Packed.read lsb (setModule qrcode w.1.1 w.1.2 w.2) i =
          Packed.read lsb qrcode i := by
        rw [setModule_eq]
        cases w.2 with
        | false => simp [read_clearBit lsb hlt, hi w.1 hw]
        | true => simp [read_orBit lsb true hlt, hi w.1 hw]
      have hrest := ih h.tail fun p hp => by
        have hp' : InGrid (setModule qrcode w.1.1 w.1.2 w.2) p := hp
        rw [InGrid, getSize_setModule, length_setModule] at hp'
        show i ≠ bitIndex (getSize (setModule qrcode w.1.1 w.1.2 w.2)) p.1 p.2
        rw [getSize_setModule]
        exact hi p hp'
      exact hrest.trans hset

/-- Modules of the grid were written, and nothing else. -/
def Drawn (qrcode drawn : List UInt8) : Prop :=
  ∃ ws, gridMemory.AllValid qrcode ws ∧ drawn = gridMemory.write qrcode ws

theorem inGrid_write (qrcode : List UInt8) (ws : List ((ℕ × ℕ) × Bool)) (p : ℕ × ℕ) :
    InGrid (gridMemory.write qrcode ws) p ↔ InGrid qrcode p := by
  rw [InGrid, getSize_write, length_write, InGrid]

section

variable {qrcode drawn drawn' : List UInt8}

theorem Drawn.refl (qrcode : List UInt8) : Drawn qrcode qrcode :=
  ⟨[], fun _ hw => absurd hw List.not_mem_nil, rfl⟩

theorem Drawn.trans (h : Drawn qrcode drawn) (h' : Drawn drawn drawn') : Drawn qrcode drawn' := by
  obtain ⟨ws, hws, rfl⟩ := h
  obtain ⟨vs, hvs, rfl⟩ := h'
  refine ⟨ws ++ vs, fun w hw => ?_, (Memory.write_append _ _ _ _).symm⟩
  rw [List.mem_append] at hw
  rcases hw with hw | hw
  · exact hws w hw
  · exact (inGrid_write qrcode ws w.1).mp (hvs w hw)

/-- What was drawn on one buffer is equal where its modules are. -/
theorem Drawn.ext (h : Drawn qrcode drawn) (h' : Drawn qrcode drawn')
    (hmodules : ∀ p, InGrid qrcode p → getModule drawn p.1 p.2 = getModule drawn' p.1 p.2) :
    drawn = drawn' := by
  obtain ⟨ws, hws, rfl⟩ := h
  obtain ⟨vs, hvs, rfl⟩ := h'
  have hbit : ∀ i, Packed.read lsb (gridMemory.write qrcode ws) i =
      Packed.read lsb (gridMemory.write qrcode vs) i := by
    intro i
    by_cases hin : ∃ p, InGrid qrcode p ∧ i = bitIndex (getSize qrcode) p.1 p.2
    · obtain ⟨p, hp, rfl⟩ := hin
      have hmodule := hmodules p hp
      rw [getModule_eq_read, getModule_eq_read, getSize_write, getSize_write] at hmodule
      exact hmodule
    · have hout : ∀ p, InGrid qrcode p → i ≠ bitIndex (getSize qrcode) p.1 p.2 :=
        fun p hp hip => hin ⟨p, hp, hip⟩
      rw [read_write_of_outside hws hout, read_write_of_outside hvs hout]
  exact ext_of_read ((length_write _ _).trans (length_write _ _).symm) hbit

end

/-! ### Function modules -/

def fillRectangle (left top width height : ℕ) (qrcode : List UInt8) : List UInt8 :=
  (List.range height).foldl (fun qrcode dy =>
    (List.range width).foldl (fun qrcode dx =>
      setModule qrcode (left + dx) (top + dy) true) qrcode) qrcode

/-- The loop that fills the positions from the last down to the second. -/
def alignmentLoop (step : ℕ) : ℕ → ℕ → List ℕ → List ℕ
  | 0, _, result => result
  | i + 1, pos, result => alignmentLoop step i (pos - step) (pos :: result)

def getAlignmentPatternPositions (version : ℕ) : List ℕ :=
  if version = 1 then []
  else
    let numAlign := version / 7 + 2
    let step := if version = 32 then 26
      else (version * 4 + numAlign * 2 + 1) / (numAlign * 2 - 2) * 2
    6 :: alignmentLoop step (numAlign - 1) (version * 4 + 10) []

/-- The centres the two loops over the positions come to: all but the finder corners. -/
def alignmentCentres (alignPatPos : List ℕ) : List (ℕ × ℕ) :=
  let numAlign := alignPatPos.length
  (List.range numAlign).flatMap fun i =>
    ((List.range numAlign).filter fun j =>
      !((i == 0 && j == 0) || (i == 0 && j == numAlign - 1) || (i == numAlign - 1 && j == 0))).map
      fun j => (alignPatPos.getD i 0, alignPatPos.getD j 0)

/-- The size of a symbol of the version. -/
def sizeOf (version : ℕ) : ℕ := version * 4 + 17

def initializeFunctionModules (version : ℕ) (qrcode : List UInt8) : List UInt8 :=
  let qrsize := sizeOf version
  let qrcode := clear qrcode ((qrsize * qrsize + 7) / 8 + 1)
  let qrcode := qrcode.set 0 (UInt8.ofNat qrsize)
  let qrcode := fillRectangle 6 0 1 qrsize qrcode
  let qrcode := fillRectangle 0 6 qrsize 1 qrcode
  let qrcode := fillRectangle 0 0 9 9 qrcode
  let qrcode := fillRectangle (qrsize - 8) 0 8 9 qrcode
  let qrcode := fillRectangle 0 (qrsize - 8) 9 8 qrcode
  let qrcode := (alignmentCentres (getAlignmentPatternPositions version)).foldl
    (fun qrcode c => fillRectangle (c.1 - 2) (c.2 - 2) 5 5 qrcode) qrcode
  if 7 ≤ version then
    fillRectangle 0 (qrsize - 11) 6 3 (fillRectangle (qrsize - 11) 0 3 6 qrcode)
  else qrcode

/-! #### The same set by its geometry -/

/-- The function patterns of a version: timing, finders with their format bits, alignment
and version blocks. -/
def functionRects (version : ℕ) : List Rect :=
  let size := sizeOf version
  [⟨6, 0, 1, size⟩, ⟨0, 6, size, 1⟩, ⟨0, 0, 9, 9⟩, ⟨size - 8, 0, 8, 9⟩, ⟨0, size - 8, 9, 8⟩] ++
    (alignmentCentres (getAlignmentPatternPositions version)).map
      (fun c => ⟨c.1 - 2, c.2 - 2, 5, 5⟩) ++
    if 7 ≤ version then [⟨size - 11, 0, 3, 6⟩, ⟨0, size - 11, 6, 3⟩] else []

def isFunction (version : ℕ) (p : ℕ × ℕ) : Bool := (functionRects version).any (·.contains p)

/-- Black written to every module of a rectangle. -/
def fillWrites (r : Rect) : List ((ℕ × ℕ) × Bool) := r.cells.map fun p => (p, true)

theorem fillRectangle_eq (r : Rect) (qrcode : List UInt8) :
    fillRectangle r.left r.top r.width r.height qrcode =
      gridMemory.write qrcode (fillWrites r) := by
  have hrow : ∀ (qrcode : List UInt8) (dy : ℕ), (List.range r.width).foldl (fun qrcode dx =>
      setModule qrcode (r.left + dx) (r.top + dy) true) qrcode =
        gridMemory.write qrcode ((List.range r.width).map fun dx =>
          ((r.left + dx, r.top + dy), true)) := by
    intro qrcode dy
    rw [Memory.write, List.foldl_map]
    rfl
  have hfill : fillWrites r = (List.range r.height).flatMap fun dy =>
      (List.range r.width).map fun dx => ((r.left + dx, r.top + dy), true) := by
    rw [fillWrites, Rect.cells, List.map_flatMap]
    simp only [List.map_map]
    rfl
  rw [fillRectangle, hfill, Memory.write_flatMap]
  simp only [hrow]

/-- The cleared buffer with its size byte. -/
def blank (version : ℕ) (qrcode : List UInt8) : List UInt8 :=
  (clear qrcode ((sizeOf version * sizeOf version + 7) / 8 + 1)).set 0
    (UInt8.ofNat (sizeOf version))

/-- Filling rectangles one after the other. -/
theorem foldl_fillRectangle (rects : List Rect) (qrcode : List UInt8) :
    rects.foldl (fun qrcode r => fillRectangle r.left r.top r.width r.height qrcode) qrcode =
      gridMemory.write qrcode (rects.flatMap fillWrites) := by
  rw [Memory.write_flatMap]
  congr 1
  funext qrcode r
  exact fillRectangle_eq r qrcode

theorem initializeFunctionModules_eq (version : ℕ) (qrcode : List UInt8) :
    initializeFunctionModules version qrcode =
      gridMemory.write (blank version qrcode) ((functionRects version).flatMap fillWrites) := by
  rw [← foldl_fillRectangle, initializeFunctionModules, functionRects, blank]
  by_cases h : 7 ≤ version
  · simp only [if_pos h, List.foldl_append, List.foldl_map, List.foldl_cons, List.foldl_nil]
  · simp only [if_neg h, List.foldl_append, List.foldl_map, List.foldl_cons, List.foldl_nil]

/-! #### Everything lies in the grid -/

theorem positions_check : ∀ v ∈ List.range 40, ∀ p ∈ getAlignmentPatternPositions (v + 1),
    6 ≤ p ∧ p ≤ (v + 1) * 4 + 10 := by
  decide +kernel

theorem Version.positions {version p : ℕ} (h : Version version)
    (hp : p ∈ getAlignmentPatternPositions version) : 6 ≤ p ∧ p ≤ version * 4 + 10 := by
  obtain ⟨v, hv, rfl⟩ := h.exists_mem
  exact positions_check v hv p hp

theorem mem_alignmentCentres {positions : List ℕ} {c : ℕ × ℕ}
    (h : c ∈ alignmentCentres positions) : c.1 ∈ positions ∧ c.2 ∈ positions := by
  have hget : ∀ i < positions.length, positions.getD i 0 ∈ positions := by
    intro i hi
    rw [List.getD_eq_getElem _ _ hi]
    exact List.getElem_mem hi
  simp only [alignmentCentres, List.mem_flatMap, List.mem_map, List.mem_filter,
    List.mem_range] at h
  obtain ⟨i, hi, j, ⟨hj, -⟩, rfl⟩ := h
  exact ⟨hget i hi, hget j hj⟩

/-- Every function pattern lies in the grid. -/
theorem Version.rect_le {version : ℕ} (h : Version version) {r : Rect}
    (hr : r ∈ functionRects version) :
    r.left + r.width ≤ sizeOf version ∧ r.top + r.height ≤ sizeOf version := by
  have hmin : 1 ≤ version := h.1
  simp only [functionRects, sizeOf, List.mem_append, List.mem_cons, List.not_mem_nil, or_false,
    List.mem_map] at hr ⊢
  rcases hr with (hfixed | ⟨c, hc, rfl⟩) | hversion
  · rcases hfixed with rfl | rfl | rfl | rfl | rfl <;> (dsimp only; omega)
  · obtain ⟨hx, hy⟩ := mem_alignmentCentres hc
    obtain ⟨hx6, hxle⟩ := h.positions hx
    obtain ⟨hy6, hyle⟩ := h.positions hy
    dsimp only
    omega
  · by_cases hseven : 7 ≤ version
    · rw [if_pos hseven] at hversion
      simp only [List.mem_cons, List.not_mem_nil, or_false] at hversion
      rcases hversion with rfl | rfl <;> (dsimp only; omega)
    · rw [if_neg hseven] at hversion
      exact absurd hversion List.not_mem_nil

/-- A symbol of the version in a buffer with room for it. -/
structure Symbol (version : ℕ) (qrcode : List UInt8) : Prop where
  version_ok : Version version
  size_eq : getSize qrcode = sizeOf version
  room : bufferLenForVersion version ≤ qrcode.length

theorem buffer_bits (version : ℕ) :
    sizeOf version * sizeOf version + 8 ≤ 8 * bufferLenForVersion version := by
  rw [bufferLenForVersion, sizeOf]
  omega

theorem Symbol.inGrid {version : ℕ} {qrcode : List UInt8} (h : Symbol version qrcode) {p : ℕ × ℕ}
    (hx : p.1 < sizeOf version) (hy : p.2 < sizeOf version) : InGrid qrcode p := by
  have hbits := buffer_bits version
  have hroom := h.room
  rw [InGrid, h.size_eq]
  exact ⟨hx, hy, by omega⟩

theorem Symbol.write {version : ℕ} {qrcode : List UInt8} (h : Symbol version qrcode)
    (ws : List ((ℕ × ℕ) × Bool)) : Symbol version (gridMemory.write qrcode ws) where
  version_ok := h.version_ok
  size_eq := (getSize_write qrcode ws).trans h.size_eq
  room := by
    rw [length_write]
    exact h.room

theorem symbol_blank {version : ℕ} (h : Version version) {qrcode : List UInt8}
    (hroom : bufferLenForVersion version ≤ qrcode.length) :
    Symbol version (blank version qrcode) where
  version_ok := h
  size_eq := by
    have hpos : 0 < bufferLenForVersion version := by
      rw [bufferLenForVersion]
      omega
    have hlt : sizeOf version < 256 := by
      have := h.2
      rw [versionMax] at this
      rw [sizeOf]
      omega
    have hfirst : (blank version qrcode).getD 0 0 = UInt8.ofNat (sizeOf version) := by
      rw [blank, List.getD_eq_getElem?_getD, List.getElem?_set_self (by
        rw [length_clear]
        exact hpos.trans_le hroom)]
      rfl
    rw [getSize, hfirst, UInt8.toNat_ofNat', Nat.mod_eq_of_lt hlt]
  room := by
    rw [blank, List.length_set, length_clear]
    exact hroom

/-- A blank symbol is white. -/
theorem getModule_blank {version : ℕ} (h : Version version) {qrcode : List UInt8}
    (hroom : bufferLenForVersion version ≤ qrcode.length) {p : ℕ × ℕ}
    (hx : p.1 < sizeOf version) (hy : p.2 < sizeOf version) :
    getModule (blank version qrcode) p.1 p.2 = false := by
  have hlen : (sizeOf version * sizeOf version + 7) / 8 + 1 = bufferLenForVersion version := rfl
  have hsize := (symbol_blank h hroom).size_eq
  have hlt := bitIndex_lt hx hy
  have hbits := buffer_bits version
  have hbyte : bitIndex (sizeOf version) p.1 p.2 / 8 ≠ 0 := by
    rw [bitIndex]
    omega
  have hkeep : Packed.read lsb (blank version qrcode) (bitIndex (sizeOf version) p.1 p.2) =
      Packed.read lsb (clear qrcode (bufferLenForVersion version))
        (bitIndex (sizeOf version) p.1 p.2) := by
    rw [blank, hlen, Packed.read, Packed.read, List.getD_eq_getElem?_getD,
      List.getD_eq_getElem?_getD, List.getElem?_set_ne (Ne.symm hbyte)]
  have hzero := (holds_nil lsb (bufferLenForVersion version)
    (qrcode.drop (bufferLenForVersion version))).reads _ (hlt.trans_le hbits)
  rw [getModule_eq_read, hsize, hkeep, clear, Nat.min_eq_left hroom, hzero]
  rfl

/-- **The function modules are marked**, and nothing else. -/
theorem getModule_initializeFunctionModules {version : ℕ} (h : Version version)
    {qrcode : List UInt8} (hroom : bufferLenForVersion version ≤ qrcode.length) {p : ℕ × ℕ}
    (hx : p.1 < sizeOf version) (hy : p.2 < sizeOf version) :
    getModule (initializeFunctionModules version qrcode) p.1 p.2 = isFunction version p := by
  have hblank := symbol_blank h hroom
  have hfst : ((functionRects version).flatMap fillWrites).map Prod.fst =
      (functionRects version).flatMap Rect.cells := by
    rw [List.map_flatMap]
    congr 1
    funext r
    rw [fillWrites, List.map_map]
    exact List.map_id _
  have hvalid : gridMemory.AllValid (blank version qrcode)
      ((functionRects version).flatMap fillWrites) := by
    intro w hw
    obtain ⟨r, hr, hwr⟩ := List.mem_flatMap.mp hw
    obtain ⟨q, hq, rfl⟩ := List.mem_map.mp hwr
    have hq := Rect.mem_cells.mp hq
    obtain ⟨hwidth, hheight⟩ := h.rect_le hr
    rw [Rect.contains, decide_eq_true_eq] at hq
    have hx : q.1 < sizeOf version := by omega
    have hy : q.2 < sizeOf version := by omega
    exact hblank.inGrid hx hy
  have htrue : ∀ w ∈ (functionRects version).flatMap fillWrites, w.2 = true := by
    intro w hw
    obtain ⟨r, -, hwr⟩ := List.mem_flatMap.mp hw
    obtain ⟨q, -, rfl⟩ := List.mem_map.mp hwr
    rfl
  have hmem : p ∈ (functionRects version).flatMap Rect.cells ↔ isFunction version p = true := by
    rw [List.mem_flatMap, isFunction, List.any_eq_true]
    simp only [Rect.mem_cells]
  have hwrite : getModule (initializeFunctionModules version qrcode) p.1 p.2 = _ :=
    (congrArg (fun q => gridMemory.get q p) (initializeFunctionModules_eq version qrcode)).trans
      (Memory.get_write_const hvalid (hblank.inGrid hx hy) htrue)
  have hwhite : gridMemory.get (blank version qrcode) p = false := getModule_blank h hroom hx hy
  rw [hwrite, hfst, hwhite]
  by_cases hp : isFunction version p = true
  · rw [if_pos (hmem.mpr hp), hp]
  · rw [if_neg (mt hmem.mp hp)]
    exact (Bool.eq_false_of_not_eq_true hp).symm

theorem symbol_initializeFunctionModules {version : ℕ} (h : Version version) {qrcode : List UInt8}
    (hroom : bufferLenForVersion version ≤ qrcode.length) :
    Symbol version (initializeFunctionModules version qrcode) := by
  rw [initializeFunctionModules_eq]
  exact (symbol_blank h hroom).write _

end Shirokumakun.Qr
