/-
The white function modules.

The source draws them with four loops.  `Paints` is the same drawing by its geometry:
rings around the centres of the finder and alignment patterns, every other module of two
lines, and two blocks of the bits of the version.  The loops are a list of writes, and
those are exactly what `Paints` says (`mem_whiteWrites`).  Patterns overlap, so a module
can be written more than once; it is never written in two colours (`Paints.not_white`).

They are drawn after the codewords.  `Keeps` is what makes that harmless: a step that
draws on function modules only leaves the data modules and the size as they were.
-/
import Shirokumakun.Qr.Scan

namespace Shirokumakun.Qr

/-! ### The functions -/

/-- The integers from `-n` to `n`. -/
def offsets (n : ℕ) : List ℤ := (List.range (2 * n + 1)).map fun k : ℕ => (k : ℤ) - n

/-- Every other module of the timing patterns, from the seventh on. -/
def drawTiming (qrcode : List UInt8) : List UInt8 :=
  (List.range ((getSize qrcode - 13) / 2)).foldl (fun qrcode k =>
    let i := 7 + 2 * k
    setModule (setModule qrcode 6 i false) i 6 false) qrcode

/-- The white rings of the three finder patterns. -/
def drawFinders (qrcode : List UInt8) : List UInt8 :=
  let qrsize : ℤ := getSize qrcode
  (offsets 4).foldl (fun qrcode dy =>
    (offsets 4).foldl (fun qrcode dx =>
      let dist := max |dx| |dy|
      if dist = 2 ∨ dist = 4 then
        let qrcode := setModuleBounded qrcode (3 + dx) (3 + dy) false
        let qrcode := setModuleBounded qrcode (qrsize - 4 + dx) (3 + dy) false
        setModuleBounded qrcode (3 + dx) (qrsize - 4 + dy) false
      else qrcode) qrcode) qrcode

/-- The inner modules of the alignment patterns. -/
def drawAlignment (version : ℕ) (qrcode : List UInt8) : List UInt8 :=
  (alignmentCentres (getAlignmentPatternPositions version)).foldl (fun qrcode c =>
    (offsets 1).foldl (fun qrcode dy =>
      (offsets 1).foldl (fun qrcode dx =>
        setModule qrcode (c.1 + dx).toNat (c.2 + dy).toNat (dx == 0 && dy == 0)) qrcode) qrcode)
    qrcode

/-- The version and its error correction code. -/
def versionBits (version : ℕ) : ℕ :=
  let rem := (List.range 12).foldl (fun rem _ => (rem <<< 1) ^^^ ((rem >>> 11) * 0x1F25)) version
  (version <<< 12) ||| rem

/-- Both copies of the version block; the bits are shifted out as they are drawn. -/
def drawVersion (version : ℕ) (qrcode : List UInt8) : List UInt8 :=
  let qrsize := getSize qrcode
  ((List.range 6).foldl (fun s i =>
    (List.range 3).foldl (fun s j =>
      let k := qrsize - 11 + j
      let bit := s.2 &&& 1 != 0
      (setModule (setModule s.1 k i bit) i k bit, s.2 >>> 1)) s) (qrcode, versionBits version)).1

def drawWhiteFunctionModules (qrcode : List UInt8) (version : ℕ) : List UInt8 :=
  let qrcode := drawTiming qrcode
  let qrcode := drawFinders qrcode
  let qrcode := drawAlignment version qrcode
  if 7 ≤ version then drawVersion version qrcode else qrcode

/-! ### Drawing on function modules -/

/-- The symbol is still one of the version, and its data modules are as they were. -/
structure Keeps (version : ℕ) (qrcode qrcode' : List UInt8) : Prop where
  symbol : Symbol version qrcode'
  data : ∀ p ∈ dataModules version, getModule qrcode' p.1 p.2 = getModule qrcode p.1 p.2

section

variable {version : ℕ} {qrcode : List UInt8} {ws : List ((ℕ × ℕ) × Bool)}

theorem isFunction_of_mem {p : ℕ × ℕ} {r : Rect} (hr : r ∈ functionRects version)
    (hp : r.contains p = true) : isFunction version p = true := List.any_eq_true.mpr ⟨r, hr, hp⟩

theorem Symbol.allValid (h : Symbol version qrcode)
    (hws : ∀ w ∈ ws, isFunction version w.1 = true) : gridMemory.AllValid qrcode ws := by
  intro w hw
  obtain ⟨hx, hy⟩ := inGrid_of_isFunction h.version_ok (hws w hw)
  exact h.inGrid hx hy

/-- Writing to function modules only keeps the data modules. -/
theorem Keeps.write (h : Symbol version qrcode) (hws : ∀ w ∈ ws, isFunction version w.1 = true) :
    Keeps version qrcode (gridMemory.write qrcode ws) where
  symbol := h.write ws
  data := by
    intro p hp
    obtain ⟨⟨hx, hy⟩, hnot⟩ := mem_dataModules.mp hp
    refine Memory.get_write_of_notMem (m := gridMemory) (h.allValid hws) (h.inGrid hx hy) ?_
    intro hmem
    obtain ⟨w, hw, rfl⟩ := List.mem_map.mp hmem
    exact absurd (hnot.symm.trans (hws w hw)) (by decide)

theorem mem_functionRects_timing (version : ℕ) :
    (⟨6, 0, 1, sizeOf version⟩ : Rect) ∈ functionRects version ∧
      (⟨0, 6, sizeOf version, 1⟩ : Rect) ∈ functionRects version := by
  simp [functionRects]

theorem mem_functionRects_finder (version : ℕ) :
    (⟨0, 0, 9, 9⟩ : Rect) ∈ functionRects version ∧
      (⟨sizeOf version - 8, 0, 8, 9⟩ : Rect) ∈ functionRects version ∧
        (⟨0, sizeOf version - 8, 9, 8⟩ : Rect) ∈ functionRects version := by
  simp [functionRects]

end

/-! ### The patterns by their geometry -/

/-- The centres of the three finder patterns. -/
def finderCentres (qrsize : ℕ) : List (ℕ × ℕ) := [(3, 3), (qrsize - 4, 3), (3, qrsize - 4)]

/-- The centres of the alignment patterns of a version. -/
def centres (version : ℕ) : List (ℕ × ℕ) := alignmentCentres (getAlignmentPatternPositions version)

/-- How far a module is from a centre, in the direction in which it is farther. -/
def ring (c p : ℕ × ℕ) : ℕ := max (p.1 - c.1 + (c.1 - p.1)) (p.2 - c.2 + (c.2 - p.2))

/-- Where version bit `k` is drawn, above the block it is drawn in a second time. -/
def versionPlace (qrsize k : ℕ) : ℕ × ℕ := (qrsize - 11 + k % 3, k / 3)

/-- Some pattern of the version has the module in this colour. -/
inductive Paints (version : ℕ) (p : ℕ × ℕ) : Bool → Prop
  | timing (hline : p.1 = 6 ∧ p.2 % 2 = 1 ∧ 7 ≤ p.2 ∧ p.2 + 8 ≤ sizeOf version ∨
      p.2 = 6 ∧ p.1 % 2 = 1 ∧ 7 ≤ p.1 ∧ p.1 + 8 ≤ sizeOf version) : Paints version p false
  | finder {c : ℕ × ℕ} (hc : c ∈ finderCentres (sizeOf version))
      (hring : ring c p = 2 ∨ ring c p = 4) (hx : p.1 < sizeOf version)
      (hy : p.2 < sizeOf version) : Paints version p false
  | alignment {c : ℕ × ℕ} (hc : c ∈ centres version) (hring : ring c p ≤ 1) :
      Paints version p (decide (ring c p = 0))
  | version {k : ℕ} (hseven : 7 ≤ version) (hk : k < 18)
      (hplace : p = versionPlace (sizeOf version) k ∨ p = (versionPlace (sizeOf version) k).swap) :
      Paints version p (getBit (versionBits version) k)

theorem centres_check : ∀ v ∈ List.range 40, ∀ c ∈ centres (v + 1),
    (c.1 % 2 = 0 ∧ c.2 % 2 = 0) ∧ (6 ≤ c.1 ∧ 6 ≤ c.2) ∧
      (c.1 + 7 ≤ sizeOf (v + 1) ∧ c.2 + 7 ≤ sizeOf (v + 1)) ∧
      (16 ≤ c.1 ∨ 16 ≤ c.2 ∧ c.2 + 14 ≤ sizeOf (v + 1)) ∧
      (16 ≤ c.2 ∨ 16 ≤ c.1 ∧ c.1 + 14 ≤ sizeOf (v + 1)) := by
  decide +kernel

theorem positions_apart_check : ∀ v ∈ List.range 40,
    ∀ a ∈ getAlignmentPatternPositions (v + 1), ∀ b ∈ getAlignmentPatternPositions (v + 1),
      a = b ∨ a + 5 ≤ b ∨ b + 5 ≤ a := by
  decide +kernel

section

variable {version : ℕ} {p : ℕ × ℕ}

/-- The centres are on even modules, and away from the finder patterns and version blocks. -/
theorem Version.centre (h : Version version) {c : ℕ × ℕ} (hc : c ∈ centres version) :
    (c.1 % 2 = 0 ∧ c.2 % 2 = 0) ∧ (6 ≤ c.1 ∧ 6 ≤ c.2) ∧
      (c.1 + 7 ≤ sizeOf version ∧ c.2 + 7 ≤ sizeOf version) ∧
      (16 ≤ c.1 ∨ 16 ≤ c.2 ∧ c.2 + 14 ≤ sizeOf version) ∧
      (16 ≤ c.2 ∨ 16 ≤ c.1 ∧ c.1 + 14 ≤ sizeOf version) := by
  obtain ⟨v, hv, rfl⟩ := h.exists_mem
  exact centres_check v hv c hc

/-- No module is near two centres. -/
theorem Version.centre_unique (h : Version version) {c d : ℕ × ℕ} (hc : c ∈ centres version)
    (hd : d ∈ centres version) (hcp : ring c p ≤ 2) (hdp : ring d p ≤ 2) : c = d := by
  obtain ⟨hc1, hc2⟩ := mem_alignmentCentres hc
  obtain ⟨hd1, hd2⟩ := mem_alignmentCentres hd
  obtain ⟨v, hv, rfl⟩ := h.exists_mem
  have hx := positions_apart_check v hv c.1 hc1 d.1 hd1
  have hy := positions_apart_check v hv c.2 hc2 d.2 hd2
  rw [ring] at hcp hdp
  exact Prod.ext (by omega) (by omega)

theorem sizeOf_eq (version : ℕ) : sizeOf version = 4 * version + 17 := by
  rw [sizeOf]
  omega

theorem Version.le_sizeOf (h : Version version) : 21 ≤ sizeOf version := by
  have hmin : 1 ≤ version := h.1
  rw [sizeOf]
  omega

/-- A module near a finder centre lies in the corner of that centre. -/
theorem ring_finder {qrsize : ℕ} {c : ℕ × ℕ} (hc : c ∈ finderCentres qrsize) (hroom : 4 ≤ qrsize)
    (hring : ring c p ≤ 4) :
    (p.1 ≤ 7 ∧ p.2 ≤ 7) ∨ (qrsize ≤ p.1 + 8 ∧ p.2 ≤ 7) ∨ (p.1 ≤ 7 ∧ qrsize ≤ p.2 + 8) := by
  simp only [finderCentres, List.mem_cons, List.not_mem_nil, or_false] at hc
  rw [ring] at hring
  rcases hc with rfl | rfl | rfl <;> (dsimp only at hring; omega)

/-- A painted module is a function module. -/
theorem Paints.isFunction {b : Bool} (h : Version version) (hp : Paints version p b) :
    isFunction version p = true := by
  have hsize := sizeOf_eq version
  cases hp with
  | timing hline =>
      rcases hline with hline | hline
      · refine isFunction_of_mem (mem_functionRects_timing version).1 (Rect.contains_iff.mpr ?_)
        dsimp only
        omega
      · refine isFunction_of_mem (mem_functionRects_timing version).2 (Rect.contains_iff.mpr ?_)
        dsimp only
        omega
  | finder hc hring hx hy =>
      obtain ⟨hfirst, hsecond, hthird⟩ := mem_functionRects_finder version
      rcases ring_finder (p := p) hc (by omega) (by omega) with hcorner | hcorner | hcorner
      · refine isFunction_of_mem hfirst (Rect.contains_iff.mpr ?_)
        dsimp only
        omega
      · refine isFunction_of_mem hsecond (Rect.contains_iff.mpr ?_)
        dsimp only
        omega
      · refine isFunction_of_mem hthird (Rect.contains_iff.mpr ?_)
        dsimp only
        omega
  | @alignment c hc hring =>
      have hrect : (⟨c.1 - 2, c.2 - 2, 5, 5⟩ : Rect) ∈ functionRects version := by
        rw [functionRects]
        refine List.mem_append_left _ (List.mem_append_right _ ?_)
        exact List.mem_map_of_mem (f := fun c : ℕ × ℕ => (⟨c.1 - 2, c.2 - 2, 5, 5⟩ : Rect)) hc
      obtain ⟨-, hlow, -⟩ := h.centre hc
      rw [ring] at hring
      refine isFunction_of_mem hrect (Rect.contains_iff.mpr ?_)
      dsimp only
      omega
  | version hseven hk hplace =>
      have hrects : (⟨sizeOf version - 11, 0, 3, 6⟩ : Rect) ∈ functionRects version ∧
          (⟨0, sizeOf version - 11, 6, 3⟩ : Rect) ∈ functionRects version := by
        simp [functionRects, hseven]
      rcases hplace with rfl | rfl
      · refine isFunction_of_mem hrects.1 (Rect.contains_iff.mpr ?_)
        dsimp only [versionPlace]
        omega
      · refine isFunction_of_mem hrects.2 (Rect.contains_iff.mpr ?_)
        dsimp only [versionPlace, Prod.swap]
        omega

/-- **No module has two colours**, though patterns overlap. -/
theorem Paints.not_white (h : Version version) (hblack : Paints version p true) :
    ¬ Paints version p false := by
  have hsize := sizeOf_eq version
  intro hwhite
  generalize hb : true = b at hblack
  generalize hb' : false = b' at hwhite
  cases hblack with
  | timing hline => exact absurd hb (by decide)
  | finder hc hring hx hy => exact absurd hb (by decide)
  | @alignment c hc hring =>
      have hcentre := of_decide_eq_true hb.symm
      have heven := h.centre hc
      rw [ring] at hcentre
      cases hwhite with
      | timing hline => omega
      | finder hd hring' hx hy =>
          have hcorner := ring_finder (p := p) hd (by omega) (by omega)
          omega
      | @alignment d hd hring' =>
          have hnear : ring c p ≤ 2 := by
            rw [ring]
            omega
          obtain rfl := h.centre_unique hc hd hnear (by omega)
          exact absurd hb' (by rw [ring, hcentre]; decide)
      | version hseven hk hplace =>
          rcases hplace with rfl | rfl
          · dsimp only [versionPlace] at hcentre
            omega
          · dsimp only [versionPlace, Prod.swap] at hcentre
            omega
  | @version k hseven hk hplace =>
      have hin : (p.1 = sizeOf version - 11 + k % 3 ∧ p.2 = k / 3) ∨
          (p.1 = k / 3 ∧ p.2 = sizeOf version - 11 + k % 3) := by
        rcases hplace with rfl | rfl
        · exact Or.inl ⟨rfl, rfl⟩
        · exact Or.inr ⟨rfl, rfl⟩
      cases hwhite with
      | timing hline => omega
      | finder hd hring' hx hy =>
          have hcorner := ring_finder (p := p) hd (by omega) (by omega)
          omega
      | alignment hd hring' =>
          have heven := h.centre hd
          rw [ring] at hring'
          omega
      | @version j hseven' hj hplace' =>
          have hin' : (p.1 = sizeOf version - 11 + j % 3 ∧ p.2 = j / 3) ∨
              (p.1 = j / 3 ∧ p.2 = sizeOf version - 11 + j % 3) := by
            rcases hplace' with rfl | rfl
            · exact Or.inl ⟨rfl, rfl⟩
            · exact Or.inr ⟨rfl, rfl⟩
          have hsame : k = j := by omega
          rw [hsame] at hb
          exact Bool.noConfusion (hb.trans hb'.symm)

end

/-! ### The loops as writes -/

/-- What `setModuleBounded` writes. -/
def boundedWrite (qrsize : ℕ) (x y : ℤ) (isBlack : Bool) : List ((ℕ × ℕ) × Bool) :=
  if 0 ≤ x ∧ x < qrsize ∧ 0 ≤ y ∧ y < qrsize then [((x.toNat, y.toNat), isBlack)] else []

def timingWrites (qrsize : ℕ) : List ((ℕ × ℕ) × Bool) :=
  (List.range ((qrsize - 13) / 2)).flatMap fun k =>
    [((6, 7 + 2 * k), false), ((7 + 2 * k, 6), false)]

def finderWrites (qrsize : ℕ) : List ((ℕ × ℕ) × Bool) :=
  (offsets 4).flatMap fun dy => (offsets 4).flatMap fun dx =>
    if max |dx| |dy| = 2 ∨ max |dx| |dy| = 4 then
      (finderCentres qrsize).flatMap fun c => boundedWrite qrsize (c.1 + dx) (c.2 + dy) false
    else []

def alignmentWrites (version : ℕ) : List ((ℕ × ℕ) × Bool) :=
  (centres version).flatMap fun c => (offsets 1).flatMap fun dy => (offsets 1).map fun dx =>
    (((c.1 + dx).toNat, (c.2 + dy).toNat), dx == 0 && dy == 0)

def versionWrites (version qrsize : ℕ) : List ((ℕ × ℕ) × Bool) :=
  (List.range 18).flatMap fun k =>
    [(versionPlace qrsize k, getBit (versionBits version) k),
      ((versionPlace qrsize k).swap, getBit (versionBits version) k)]

def whiteWrites (version : ℕ) : List ((ℕ × ℕ) × Bool) :=
  timingWrites (sizeOf version) ++ (finderWrites (sizeOf version) ++ (alignmentWrites version ++
    if 7 ≤ version then versionWrites version (sizeOf version) else []))

section

variable {version : ℕ} {qrcode : List UInt8}

/-- A loop whose body writes what depends on the size only. -/
theorem foldl_eq_write {β : Type*} {step : List UInt8 → β → List UInt8}
    {writes : β → List ((ℕ × ℕ) × Bool)} {qrsize : ℕ} (bs : List β)
    (hstep : ∀ q, getSize q = qrsize → ∀ b, step q b = gridMemory.write q (writes b))
    (hsize : getSize qrcode = qrsize) :
    bs.foldl step qrcode = gridMemory.write qrcode (bs.flatMap writes) := by
  induction bs generalizing qrcode with
  | nil => rfl
  | cons b bs ih =>
      rw [List.foldl_cons, List.flatMap_cons, Memory.write_append, hstep qrcode hsize b]
      exact ih ((getSize_write _ _).trans hsize)

theorem setModuleBounded_eq (qrcode : List UInt8) (x y : ℤ) (isBlack : Bool) :
    setModuleBounded qrcode x y isBlack =
      gridMemory.write qrcode (boundedWrite (getSize qrcode) x y isBlack) := by
  rw [setModuleBounded, boundedWrite]
  by_cases hin : 0 ≤ x ∧ x < (getSize qrcode : ℤ) ∧ 0 ≤ y ∧ y < (getSize qrcode : ℤ)
  · rw [if_pos hin, if_pos hin]
    rfl
  · rw [if_neg hin, if_neg hin]
    rfl

theorem drawTiming_eq (qrcode : List UInt8) :
    drawTiming qrcode = gridMemory.write qrcode (timingWrites (getSize qrcode)) :=
  foldl_eq_write _ (fun _ _ _ => rfl) rfl

theorem drawFinders_eq {qrsize : ℕ} (h : getSize qrcode = qrsize) (hroom : 4 ≤ qrsize) :
    drawFinders qrcode = gridMemory.write qrcode (finderWrites qrsize) := by
  rw [drawFinders, h]
  refine foldl_eq_write _ (fun q hq dy => foldl_eq_write _ (fun q hq dx => ?_) hq) h
  dsimp only
  by_cases hring : max |dx| |dy| = 2 ∨ max |dx| |dy| = 4
  · rw [if_pos hring, if_pos hring]
    simp only [finderCentres, List.flatMap_cons, List.flatMap_nil, List.append_nil,
      Memory.write_append, setModuleBounded_eq, getSize_write, hq, Nat.cast_ofNat,
      Nat.cast_sub hroom]
  · rw [if_neg hring, if_neg hring]
    rfl

theorem drawAlignment_eq (version : ℕ) (qrcode : List UInt8) :
    drawAlignment version qrcode = gridMemory.write qrcode (alignmentWrites version) := by
  refine foldl_eq_write _ (fun q hq c => foldl_eq_write _ (fun q hq dy => ?_) hq) rfl
  rw [Memory.write, List.foldl_map]
  rfl

/-- Bits that are shifted out one by one are the bits of the word. -/
theorem foldl_shift {σ : Type*} (step : σ → ℕ → Bool → σ) (s : σ) (bits n : ℕ) :
    (List.range n).foldl (fun s k => (step s.1 k (s.2 &&& 1 != 0), s.2 >>> 1)) (s, bits) =
      ((List.range n).foldl (fun s k => step s k (getBit bits k)) s, bits >>> n) := by
  induction n with
  | zero => rfl
  | succ n ih =>
      rw [List.range_succ, List.foldl_append, List.foldl_append, ih]
      rfl

theorem drawVersion_eq (version : ℕ) (qrcode : List UInt8) :
    drawVersion version qrcode =
      gridMemory.write qrcode (versionWrites version (getSize qrcode)) := by
  -- the two loops over rows and columns are one over the bits
  have hbits : (List.range 6).flatMap (fun i => (List.range 3).map fun j => (i, j)) =
      (List.range 18).map fun k => (k / 3, k % 3) := by decide
  have hloop : ∀ (step : List UInt8 × ℕ → ℕ → ℕ → List UInt8 × ℕ) (s : List UInt8 × ℕ),
      (List.range 6).foldl (fun s i => (List.range 3).foldl (fun s j => step s i j) s) s =
        (List.range 18).foldl (fun s k => step s (k / 3) (k % 3)) s := by
    intro step s
    have hflat := congrArg (List.foldl (fun s (ij : ℕ × ℕ) => step s ij.1 ij.2) s) hbits
    rwa [List.foldl_flatMap, List.foldl_map] at hflat
  rw [drawVersion, hloop, foldl_shift fun q k bit =>
    setModule (setModule q (getSize qrcode - 11 + k % 3) (k / 3) bit) (k / 3)
      (getSize qrcode - 11 + k % 3) bit]
  exact foldl_eq_write _ (fun _ _ _ => rfl) rfl

/-- Drawing the white function modules is writing them. -/
theorem drawWhiteFunctionModules_eq (h : getSize qrcode = sizeOf version) :
    drawWhiteFunctionModules qrcode version =
      gridMemory.write qrcode (whiteWrites version) := by
  have hroom : 4 ≤ sizeOf version := by
    rw [sizeOf]
    omega
  have hfinders := fun ws => drawFinders_eq ((getSize_write qrcode ws).trans h) hroom
  rw [drawWhiteFunctionModules, whiteWrites, drawTiming_eq, h, hfinders, drawAlignment_eq,
    Memory.write_append, Memory.write_append, Memory.write_append]
  by_cases hseven : 7 ≤ version
  · rw [if_pos hseven, if_pos hseven, drawVersion_eq]
    simp only [getSize_write, h]
  · rw [if_neg hseven, if_neg hseven]
    rfl

end

/-! ### The writes are the patterns -/

section

variable {version : ℕ} {w : (ℕ × ℕ) × Bool}

theorem mem_offsets {n : ℕ} {d : ℤ} : d ∈ offsets n ↔ -(n : ℤ) ≤ d ∧ d ≤ n := by
  simp only [offsets, List.mem_map, List.mem_range]
  constructor
  · rintro ⟨k, hk, rfl⟩
    omega
  · intro h
    exact ⟨(d + n).toNat, by omega, by omega⟩

theorem mem_boundedWrite {qrsize : ℕ} {x y : ℤ} {isBlack : Bool} :
    w ∈ boundedWrite qrsize x y isBlack ↔
      (w.1.1 < qrsize ∧ w.1.2 < qrsize) ∧ ((w.1.1 : ℤ) = x ∧ (w.1.2 : ℤ) = y) ∧ w.2 = isBlack := by
  obtain ⟨⟨i, j⟩, b⟩ := w
  rw [boundedWrite]
  by_cases hin : 0 ≤ x ∧ x < (qrsize : ℤ) ∧ 0 ≤ y ∧ y < (qrsize : ℤ)
  · simp only [if_pos hin, List.mem_singleton, Prod.mk.injEq]
    rw [← and_assoc]
    exact and_congr_left' (by omega)
  · simp only [if_neg hin, List.not_mem_nil, false_iff]
    rintro ⟨hgrid, hplace, -⟩
    omega

theorem mem_timingWrites :
    w ∈ timingWrites (sizeOf version) ↔
      (w.1.1 = 6 ∧ w.1.2 % 2 = 1 ∧ 7 ≤ w.1.2 ∧ w.1.2 + 8 ≤ sizeOf version ∨
        w.1.2 = 6 ∧ w.1.1 % 2 = 1 ∧ 7 ≤ w.1.1 ∧ w.1.1 + 8 ≤ sizeOf version) ∧ w.2 = false := by
  have hsize := sizeOf_eq version
  obtain ⟨⟨i, j⟩, b⟩ := w
  simp only [timingWrites, List.mem_flatMap, List.mem_range, List.mem_cons, List.not_mem_nil,
    or_false, Prod.mk.injEq]
  constructor
  · rintro ⟨k, hk, ⟨⟨rfl, rfl⟩, rfl⟩ | ⟨⟨rfl, rfl⟩, rfl⟩⟩
    · exact ⟨Or.inl (by omega), rfl⟩
    · exact ⟨Or.inr (by omega), rfl⟩
  · rintro ⟨hline | hline, rfl⟩
    · exact ⟨(j - 7) / 2, by omega, Or.inl ⟨by omega, rfl⟩⟩
    · exact ⟨(i - 7) / 2, by omega, Or.inr ⟨by omega, rfl⟩⟩

theorem mem_finderWrites {qrsize : ℕ} :
    w ∈ finderWrites qrsize ↔ ((∃ c ∈ finderCentres qrsize, ring c w.1 = 2 ∨ ring c w.1 = 4) ∧
      w.1.1 < qrsize ∧ w.1.2 < qrsize) ∧ w.2 = false := by
  simp only [finderWrites, List.mem_flatMap, mem_offsets]
  constructor
  · rintro ⟨dy, hdy, dx, hdx, hw⟩
    by_cases hring : max |dx| |dy| = 2 ∨ max |dx| |dy| = 4
    · rw [if_pos hring, List.mem_flatMap] at hw
      obtain ⟨c, hc, hw⟩ := hw
      obtain ⟨hgrid, hplace, hwhite⟩ := mem_boundedWrite.mp hw
      refine ⟨⟨⟨c, hc, ?_⟩, hgrid⟩, hwhite⟩
      rw [abs_eq_max_neg, abs_eq_max_neg] at hring
      rw [ring]
      omega
    · rw [if_neg hring] at hw
      exact absurd hw List.not_mem_nil
  · rintro ⟨⟨⟨c, hc, hring⟩, hgrid⟩, hwhite⟩
    rw [ring] at hring
    refine ⟨(w.1.2 : ℤ) - c.2, by omega, (w.1.1 : ℤ) - c.1, by omega, ?_⟩
    rw [if_pos (by rw [abs_eq_max_neg, abs_eq_max_neg]; omega), List.mem_flatMap]
    exact ⟨c, hc, mem_boundedWrite.mpr ⟨hgrid, by omega, hwhite⟩⟩

theorem mem_alignmentWrites (h : Version version) :
    w ∈ alignmentWrites version ↔
      ∃ c ∈ centres version, ring c w.1 ≤ 1 ∧ w.2 = decide (ring c w.1 = 0) := by
  obtain ⟨⟨i, j⟩, b⟩ := w
  simp only [alignmentWrites, List.mem_flatMap, List.mem_map, mem_offsets]
  refine exists_congr fun c => and_congr_right fun hc => ?_
  obtain ⟨-, hlow, -⟩ := h.centre hc
  constructor
  · rintro ⟨dy, hdy, dx, hdx, hw⟩
    simp only [Prod.mk.injEq] at hw
    obtain ⟨⟨rfl, rfl⟩, rfl⟩ := hw
    refine ⟨by rw [ring]; omega, ?_⟩
    rw [Bool.eq_iff_iff, Bool.and_eq_true, beq_iff_eq, beq_iff_eq, decide_eq_true_iff, ring]
    omega
  · rintro ⟨hring, hblack⟩
    rw [ring] at hring
    refine ⟨(j : ℤ) - c.2, by omega, (i : ℤ) - c.1, by omega, ?_⟩
    simp only [Prod.mk.injEq]
    refine ⟨by omega, ?_⟩
    rw [show b = _ from hblack, Bool.eq_iff_iff, Bool.and_eq_true, beq_iff_eq, beq_iff_eq,
      decide_eq_true_iff, ring]
    omega

theorem mem_versionWrites {qrsize : ℕ} :
    w ∈ versionWrites version qrsize ↔ ∃ k < 18,
      (w.1 = versionPlace qrsize k ∨ w.1 = (versionPlace qrsize k).swap) ∧
        w.2 = getBit (versionBits version) k := by
  simp only [versionWrites, List.mem_flatMap, List.mem_range, List.mem_cons, List.not_mem_nil,
    or_false, Prod.ext_iff (x := w), or_and_right]

/-- **What is written is what the patterns are.** -/
theorem mem_whiteWrites (h : Version version) :
    w ∈ whiteWrites version ↔ Paints version w.1 w.2 := by
  rw [whiteWrites, List.mem_append, List.mem_append, List.mem_append, mem_timingWrites,
    mem_finderWrites, mem_alignmentWrites h]
  constructor
  · rintro (⟨hline, hwhite⟩ | ⟨⟨⟨c, hc, hring⟩, hgrid⟩, hwhite⟩ | ⟨c, hc, hring, hb⟩ | hw)
    · rw [hwhite]
      exact .timing hline
    · rw [hwhite]
      exact .finder hc hring hgrid.1 hgrid.2
    · rw [hb]
      exact .alignment hc hring
    · by_cases hseven : 7 ≤ version
      · rw [if_pos hseven, mem_versionWrites] at hw
        obtain ⟨k, hk, hplace, hb⟩ := hw
        rw [hb]
        exact .version hseven hk hplace
      · rw [if_neg hseven] at hw
        exact absurd hw List.not_mem_nil
  · obtain ⟨p, b⟩ := w
    intro (hp : Paints version p b)
    cases hp with
    | timing hline => exact Or.inl ⟨hline, rfl⟩
    | finder hc hring hx hy => exact Or.inr (Or.inl ⟨⟨⟨_, hc, hring⟩, hx, hy⟩, rfl⟩)
    | alignment hc hring => exact Or.inr (Or.inr (Or.inl ⟨_, hc, hring, rfl⟩))
    | version hseven hk hplace =>
        rw [if_pos hseven, mem_versionWrites]
        exact Or.inr (Or.inr (Or.inr ⟨_, hk, hplace, rfl⟩))

theorem isFunction_whiteWrites (h : Version version) (hw : w ∈ whiteWrites version) :
    isFunction version w.1 = true := ((mem_whiteWrites h).mp hw).isFunction h

variable {qrcode : List UInt8} {p : ℕ × ℕ}

/-- **The white function modules** leave the data modules alone. -/
theorem Keeps.drawWhiteFunctionModules (h : Symbol version qrcode) :
    Keeps version qrcode (drawWhiteFunctionModules qrcode version) := by
  rw [drawWhiteFunctionModules_eq h.size_eq]
  exact Keeps.write h fun w hw => isFunction_whiteWrites h.version_ok hw

/-- A painted module takes its colour. -/
theorem getModule_drawWhiteFunctionModules (h : Symbol version qrcode) {b : Bool}
    (hp : Paints version p b) :
    getModule (drawWhiteFunctionModules qrcode version) p.1 p.2 = b := by
  have hvalid := h.allValid fun w hw => isFunction_whiteWrites h.version_ok hw
  have hmem : (p, b) ∈ whiteWrites version := (mem_whiteWrites h.version_ok).mpr hp
  obtain ⟨v, hv, hget⟩ := Memory.exists_of_get_write hvalid
    (List.mem_map_of_mem (f := Prod.fst) hmem)
  rw [drawWhiteFunctionModules_eq h.size_eq]
  refine Eq.trans hget ?_
  -- another write to the module has the same colour
  have hpv : Paints version p v := (mem_whiteWrites h.version_ok).mp hv
  cases b with
  | false =>
      cases v with
      | false => rfl
      | true => exact absurd hp (hpv.not_white h.version_ok)
  | true =>
      cases v with
      | false => exact absurd hpv (hp.not_white h.version_ok)
      | true => rfl

/-- What no pattern paints is as it was. -/
theorem getModule_drawWhiteFunctionModules_of_not (h : Symbol version qrcode)
    (hgrid : InGrid qrcode p) (hp : ∀ b, ¬ Paints version p b) :
    getModule (drawWhiteFunctionModules qrcode version) p.1 p.2 = getModule qrcode p.1 p.2 := by
  rw [drawWhiteFunctionModules_eq h.size_eq]
  refine Memory.get_write_of_notMem (m := gridMemory)
    (h.allValid fun w hw => isFunction_whiteWrites h.version_ok hw) hgrid fun hmem => ?_
  obtain ⟨w, hw, rfl⟩ := List.mem_map.mp hmem
  exact hp w.2 ((mem_whiteWrites h.version_ok).mp hw)

end

end Shirokumakun.Qr
