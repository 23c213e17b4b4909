/-
The format bits.

They say at which level and under which mask a symbol is to be read, and are drawn twice,
after the mask.  Both copies can be read (`readFormat_drawFormatBits`).  As words of a code
they are seven apart, and the words of the version blocks eight, so a reader of any copy
finds the word that was drawn with up to three modules changed.
-/
import Shirokumakun.Lib.Hamming
import Shirokumakun.Qr.Patterns

namespace Shirokumakun.Qr

/-! ### The functions -/

/-- The format bits of a level and a mask. -/
def formatBits (ecl : Ecc) (mask : Fin 8) : ℕ :=
  let data := ([1, 0, 3, 2].getD ecl.index 0 <<< 3) ||| mask.val
  let rem := (List.range 10).foldl (fun rem _ => (rem <<< 1) ^^^ ((rem >>> 9) * 0x537)) data
  ((data <<< 10) ||| rem) ^^^ 0x5412

/-- Where format bit `i` is drawn the first time. -/
def formatPlace (i : ℕ) : ℕ × ℕ :=
  if i ≤ 5 then (8, i)
  else if i = 6 then (8, 7)
  else if i = 7 then (8, 8)
  else if i = 8 then (7, 8)
  else (14 - i, 8)

/-- Where it is drawn the second time. -/
def formatPlace' (qrsize i : ℕ) : ℕ × ℕ :=
  if i < 8 then (qrsize - 1 - i, 8) else (8, qrsize - 15 + i)

def drawFormatBits (ecl : Ecc) (mask : Fin 8) (qrcode : List UInt8) : List UInt8 :=
  let bits := formatBits ecl mask
  let qrcode := (List.range 15).foldl (fun qrcode i =>
    setModule qrcode (formatPlace i).1 (formatPlace i).2 (getBit bits i)) qrcode
  let qrsize := getSize qrcode
  let qrcode := (List.range 15).foldl (fun qrcode i =>
    setModule qrcode (formatPlace' qrsize i).1 (formatPlace' qrsize i).2 (getBit bits i)) qrcode
  setModule qrcode 8 (qrsize - 8) true

/-! ### What is written -/

/-- What is written for a level and a mask: two copies and the module that is always
black. -/
def formatWrites (ecl : Ecc) (mask : Fin 8) (qrsize : ℕ) : List ((ℕ × ℕ) × Bool) :=
  (List.range 15).map (fun i => (formatPlace i, getBit (formatBits ecl mask) i)) ++
    ((List.range 15).map (fun i => (formatPlace' qrsize i, getBit (formatBits ecl mask) i)) ++
      [((8, qrsize - 8), true)])

section

variable {version : ℕ} {qrcode : List UInt8} {ecl : Ecc} {mask : Fin 8}

theorem foldl_setModule {ι : Type*} (place : ι → ℕ × ℕ) (bit : ι → Bool) (is : List ι)
    (qrcode : List UInt8) :
    is.foldl (fun qrcode i => setModule qrcode (place i).1 (place i).2 (bit i)) qrcode =
      gridMemory.write qrcode (is.map fun i => (place i, bit i)) := by
  rw [Memory.write, List.foldl_map]
  rfl

theorem drawFormatBits_eq (ecl : Ecc) (mask : Fin 8) (qrcode : List UInt8) :
    drawFormatBits ecl mask qrcode =
      gridMemory.write qrcode (formatWrites ecl mask (getSize qrcode)) := by
  have hblack : ∀ (qrcode : List UInt8) (y : ℕ), setModule qrcode 8 y true =
      gridMemory.write qrcode [((8, y), true)] := fun _ _ => rfl
  rw [drawFormatBits, formatWrites, Memory.write_append, Memory.write_append]
  simp only [foldl_setModule, getSize_write, hblack]

/-- The format bits lie in the rectangles of the finder patterns. -/
theorem isFunction_formatWrites (h : Version version) {w : (ℕ × ℕ) × Bool}
    (hw : w ∈ formatWrites ecl mask (sizeOf version)) : isFunction version w.1 = true := by
  have hsize := h.le_sizeOf
  obtain ⟨hfirst, hsecond, hthird⟩ := mem_functionRects_finder version
  rw [formatWrites, List.mem_append, List.mem_append, List.mem_singleton] at hw
  rcases hw with hcopy | hcopy | rfl
  · obtain ⟨i, hi, rfl⟩ := List.mem_map.mp hcopy
    rw [List.mem_range] at hi
    refine isFunction_of_mem hfirst (Rect.contains_iff.mpr ?_)
    simp only [formatPlace]
    split_ifs <;> (dsimp only; omega)
  · obtain ⟨i, hi, rfl⟩ := List.mem_map.mp hcopy
    rw [List.mem_range] at hi
    by_cases hrow : i < 8
    · refine isFunction_of_mem hsecond (Rect.contains_iff.mpr ?_)
      simp only [formatPlace', if_pos hrow]
      omega
    · refine isFunction_of_mem hthird (Rect.contains_iff.mpr ?_)
      simp only [formatPlace', if_neg hrow]
      omega
  · refine isFunction_of_mem hthird (Rect.contains_iff.mpr ?_)
    dsimp only
    omega

/-- The modules of the format bits. -/
def formatPlaces (qrsize : ℕ) : List (ℕ × ℕ) :=
  (List.range 15).map formatPlace ++ ((List.range 15).map (formatPlace' qrsize) ++
    [(8, qrsize - 8)])

theorem fst_formatWrites (ecl : Ecc) (mask : Fin 8) (qrsize : ℕ) :
    (formatWrites ecl mask qrsize).map Prod.fst = formatPlaces qrsize := by
  simp [formatWrites, formatPlaces, Function.comp_def]

/-- No module takes two of the format bits. -/
theorem nodup_formatPlaces {qrsize : ℕ} (h : 21 ≤ qrsize) : (formatPlaces qrsize).Nodup := by
  have hfirst : ∀ p ∈ (List.range 15).map formatPlace, p.1 ≤ 8 ∧ p.2 ≤ 8 := by decide
  rw [formatPlaces, List.nodup_append', List.nodup_append']
  refine ⟨by decide, ⟨?_, List.nodup_singleton _, ?_⟩, ?_⟩
  · refine List.Nodup.map_on (fun i hi j hj hij => ?_) List.nodup_range
    rw [List.mem_range] at hi hj
    simp only [formatPlace'] at hij
    by_cases hirow : i < 8
    · by_cases hjrow : j < 8
      · rw [if_pos hirow, if_pos hjrow, Prod.mk.injEq] at hij
        omega
      · rw [if_pos hirow, if_neg hjrow, Prod.mk.injEq] at hij
        omega
    · by_cases hjrow : j < 8
      · rw [if_neg hirow, if_pos hjrow, Prod.mk.injEq] at hij
        omega
      · rw [if_neg hirow, if_neg hjrow, Prod.mk.injEq] at hij
        omega
  · intro p hp hblack
    rw [List.mem_singleton] at hblack
    obtain ⟨i, hi, rfl⟩ := List.mem_map.mp hp
    rw [List.mem_range] at hi
    simp only [formatPlace'] at hblack
    by_cases hrow : i < 8
    · rw [if_pos hrow, Prod.mk.injEq] at hblack
      omega
    · rw [if_neg hrow, Prod.mk.injEq] at hblack
      omega
  · intro p hp hlater
    obtain ⟨hx, hy⟩ := hfirst p hp
    rw [List.mem_append, List.mem_singleton] at hlater
    rcases hlater with hcopy | rfl
    · obtain ⟨i, hi, rfl⟩ := List.mem_map.mp hcopy
      rw [List.mem_range] at hi
      simp only [formatPlace'] at hx hy
      by_cases hrow : i < 8
      · rw [if_pos hrow] at hx
        dsimp only at hx
        omega
      · rw [if_neg hrow] at hy
        dsimp only at hy
        omega
    · dsimp only at hy
      omega

/-- They lie along column 8 and row 8, near the corners. -/
theorem formatPlaces_le {qrsize : ℕ} (h : 21 ≤ qrsize) {p : ℕ × ℕ} (hp : p ∈ formatPlaces qrsize) :
    (p.1 = 8 ∧ p.2 ≠ 6 ∧ (p.2 ≤ 8 ∨ qrsize ≤ p.2 + 8)) ∨
      (p.2 = 8 ∧ p.1 ≠ 6 ∧ (p.1 ≤ 8 ∨ qrsize ≤ p.1 + 8)) := by
  have hfirst : ∀ p ∈ (List.range 15).map formatPlace,
      (p.1 = 8 ∧ p.2 ≠ 6 ∧ p.2 ≤ 8) ∨ (p.2 = 8 ∧ p.1 ≠ 6 ∧ p.1 ≤ 8) := by decide
  rw [formatPlaces, List.mem_append, List.mem_append, List.mem_singleton] at hp
  rcases hp with hcopy | hcopy | rfl
  · have hplace := hfirst p hcopy
    omega
  · obtain ⟨i, hi, rfl⟩ := List.mem_map.mp hcopy
    rw [List.mem_range] at hi
    by_cases hrow : i < 8
    · rw [formatPlace', if_pos hrow]
      exact Or.inr ⟨rfl, by dsimp only; omega⟩
    · rw [formatPlace', if_neg hrow]
      exact Or.inl ⟨rfl, by dsimp only; omega⟩
  · exact Or.inl ⟨rfl, by dsimp only; omega⟩

/-- **The format bits** leave the data modules alone. -/
theorem Keeps.drawFormatBits (h : Symbol version qrcode) (ecl : Ecc) (mask : Fin 8) :
    Keeps version qrcode (drawFormatBits ecl mask qrcode) := by
  rw [drawFormatBits_eq, h.size_eq]
  exact Keeps.write h fun w hw => isFunction_formatWrites h.version_ok hw

/-- The bits of one copy, the lowest first. -/
def readFormat (place : ℕ → ℕ × ℕ) (qrcode : List UInt8) : List Bool :=
  (List.range 15).map fun i => getModule qrcode (place i).1 (place i).2

/-- The format bits, the lowest first. -/
def formatWord (ecl : Ecc) (mask : Fin 8) : List Bool :=
  (List.range 15).map (getBit (formatBits ecl mask))

/-- Both copies are there to read. -/
theorem readFormat_drawFormatBits (h : Symbol version qrcode) (ecl : Ecc) (mask : Fin 8) :
    readFormat formatPlace (drawFormatBits ecl mask qrcode) = formatWord ecl mask ∧
      readFormat (formatPlace' (sizeOf version)) (drawFormatBits ecl mask qrcode) =
        formatWord ecl mask := by
  have hvalid : gridMemory.AllValid qrcode (formatWrites ecl mask (sizeOf version)) :=
    h.allValid fun w hw => isFunction_formatWrites h.version_ok hw
  have hread : ∀ p v, (p, v) ∈ formatWrites ecl mask (sizeOf version) →
      getModule (drawFormatBits ecl mask qrcode) p.1 p.2 = v := by
    intro p v hpv
    rw [drawFormatBits_eq, h.size_eq]
    refine Memory.get_write_of_mem (m := gridMemory) hvalid ?_ hpv
    rw [fst_formatWrites]
    exact nodup_formatPlaces h.version_ok.le_sizeOf
  refine ⟨List.map_congr_left fun i hi => hread _ _ ?_,
    List.map_congr_left fun i hi => hread _ _ ?_⟩
  · exact List.mem_append_left _ (List.mem_map_of_mem hi)
  · exact List.mem_append_right _ (List.mem_append_left _ (List.mem_map_of_mem hi))

end

/-! ### Both kinds of bits are codes -/

/-- Every level with every mask. -/
def formats : List (Ecc × Fin 8) :=
  Ecc.all.flatMap fun ecl => (List.finRange 8).map fun mask => (ecl, mask)

/-- The versions that have a version block. -/
def versions : List ℕ := (List.range 34).map (7 + ·)

/-- The bits of a version block, the lowest first. -/
def versionWord (version : ℕ) : List Bool := (List.range 18).map (getBit (versionBits version))

theorem formatWord_apart : ∀ f ∈ formats, ∀ g ∈ formats,
    f = g ∨ 2 * 3 < Hamming.distance (formatWord f.1 f.2) (formatWord g.1 g.2) := by
  decide +kernel

theorem versionWord_apart : ∀ v ∈ versions, ∀ w ∈ versions,
    v = w ∨ 2 * 3 < Hamming.distance (versionWord v) (versionWord w) := by
  decide +kernel

end Shirokumakun.Qr
