/-
Masking, and the choice of a mask.

A mask inverts the data modules its pattern chooses and leaves the function modules alone
(`getModule_applyMask`), so applying it a second time takes it off, as the source says.

To find the best mask each is applied, its format bits are drawn, the symbol is scored and
the mask is taken off again; the format bits stay, to be drawn over in the next turn.  So
the symbol is not quite what it was, and the loop does not obviously score the symbols it
could return.  It does: format bits are always drawn whole, so what was drawn before makes
no difference (`finish_of_unmasked`), and the mask returned is the first of those whose
finished symbol scores least (`handleMasking_auto`).
-/
import Mathlib.Order.Fin.Basic
import Shirokumakun.Lib.Least
import Shirokumakun.Qr.Format
import Shirokumakun.Qr.Penalty

namespace Shirokumakun.Qr

/-! ### The functions -/

/-- The mask that is asked for. -/
inductive Mask
  | auto
  | pattern (k : Fin 8)
  deriving DecidableEq, Repr

/-- Whether the pattern inverts the module. -/
def maskBit (mask : Fin 8) (p : ℕ × ℕ) : Bool :=
  match mask with
  | 0 => (p.1 + p.2) % 2 == 0
  | 1 => p.2 % 2 == 0
  | 2 => p.1 % 3 == 0
  | 3 => (p.1 + p.2) % 3 == 0
  | 4 => (p.1 / 3 + p.2 / 2) % 2 == 0
  | 5 => p.1 * p.2 % 2 + p.1 * p.2 % 3 == 0
  | 6 => (p.1 * p.2 % 2 + p.1 * p.2 % 3) % 2 == 0
  | 7 => ((p.1 + p.2) % 2 + p.1 * p.2 % 3) % 2 == 0

def applyMask (functionModules qrcode : List UInt8) (mask : Fin 8) : List UInt8 :=
  let qrsize := getSize qrcode
  (List.range qrsize).foldl (fun qrcode y =>
    (List.range qrsize).foldl (fun qrcode x =>
      if getModule functionModules x y then qrcode
      else
        let invert := maskBit mask (x, y)
        let val := getModule qrcode x y
        setModule qrcode x y (val ^^ invert)) qrcode) qrcode

/-- The symbol, and the mask with the least penalty so far. -/
structure Choice where
  qrcode : List UInt8
  mask : Mask
  minPenalty : ℤ

def tryMask (functionModules : List UInt8) (ecl : Ecc) (s : Choice) (msk : Fin 8) : Choice :=
  let qrcode := drawFormatBits ecl msk (applyMask functionModules s.qrcode msk)
  let penalty := getPenaltyScore qrcode
  let undone := applyMask functionModules qrcode msk
  if penalty < s.minPenalty then ⟨undone, .pattern msk, penalty⟩
  else ⟨undone, s.mask, s.minPenalty⟩

/-- The mask that is asked for, or the loop over all of them. -/
def chooseMask (functionModules : List UInt8) (ecl : Ecc) (mask : Mask)
    (qrcode : List UInt8) : Choice :=
  match mask with
  | .auto => (List.finRange 8).foldl (tryMask functionModules ecl) ⟨qrcode, .auto, longMax⟩
  | .pattern k => ⟨qrcode, .pattern k, longMax⟩

/-- The end of `qrcodegen_encodeSegmentsAdvanced`; `none` is the failed assertion that a
mask was found. -/
def handleMasking (functionModules : List UInt8) (ecl : Ecc) (mask : Mask)
    (qrcode : List UInt8) : Option (List UInt8) :=
  let s := chooseMask functionModules ecl mask qrcode
  match s.mask with
  | .auto => none
  | .pattern k => some (drawFormatBits ecl k (applyMask functionModules s.qrcode k))

/-! ### One mask -/

theorem applyMask_eq (functionModules qrcode : List UInt8) (mask : Fin 8) :
    applyMask functionModules qrcode mask =
      gridMemory.modifyAll (fun p => !getModule functionModules p.1 p.2)
        (fun p val => val ^^ maskBit mask p) qrcode (square (getSize qrcode)) := by
  rw [applyMask, Memory.modifyAll, square, Rect.cells, List.foldl_flatMap]
  simp only [List.foldl_map, Nat.zero_add]
  refine List.foldl_ext _ _ _ fun qrcode y _ => List.foldl_ext _ _ _ fun qrcode x _ => ?_
  cases getModule functionModules x y with
  | false => rfl
  | true => rfl

section

variable {version : ℕ} {functionModules qrcode : List UInt8}

theorem Symbol.inGrid_iff (h : Symbol version qrcode) {p : ℕ × ℕ} :
    InGrid qrcode p ↔ p.1 < sizeOf version ∧ p.2 < sizeOf version := by
  constructor
  · intro hp
    rw [← h.size_eq]
    exact ⟨hp.1, hp.2.1⟩
  · intro hp
    exact h.inGrid hp.1 hp.2

theorem Symbol.of_drawn {drawn : List UInt8} (h : Symbol version qrcode) (hd : Drawn qrcode drawn) :
    Symbol version drawn := by
  obtain ⟨ws, -, rfl⟩ := hd
  exact h.write ws

theorem Symbol.valid_square (h : Symbol version qrcode) :
    ∀ p ∈ square (getSize qrcode), gridMemory.Valid qrcode p := by
  intro p hp
  rw [h.size_eq, mem_square] at hp
  exact h.inGrid hp.1 hp.2

theorem drawn_applyMask (h : Symbol version qrcode) (functionModules : List UInt8)
    (mask : Fin 8) : Drawn qrcode (applyMask functionModules qrcode mask) := by
  rw [applyMask_eq, Memory.modifyAll_eq_write _ _ (nodup_square _) h.valid_square]
  refine ⟨_, fun w hw => ?_, rfl⟩
  obtain ⟨p, hp, rfl⟩ := List.mem_map.mp hw
  exact h.valid_square p (List.mem_of_mem_filter hp)

theorem drawn_drawFormatBits (h : Symbol version qrcode) (ecl : Ecc) (mask : Fin 8) :
    Drawn qrcode (drawFormatBits ecl mask qrcode) := by
  rw [drawFormatBits_eq, h.size_eq]
  exact ⟨_, h.allValid fun w hw => isFunction_formatWrites h.version_ok hw, rfl⟩

/-- **A mask** leaves the function modules and inverts what its pattern chooses. -/
theorem getModule_applyMask (h : Symbol version qrcode) (hmarked : Marked version functionModules)
    (mask : Fin 8) {p : ℕ × ℕ} (hx : p.1 < sizeOf version) (hy : p.2 < sizeOf version) :
    getModule (applyMask functionModules qrcode mask) p.1 p.2 =
      (getModule qrcode p.1 p.2 ^^ (!isFunction version p && maskBit mask p)) := by
  have hmem : p ∈ square (getSize qrcode) := by
    rw [h.size_eq, mem_square]
    exact ⟨hx, hy⟩
  have hget := Memory.get_modifyAll (m := gridMemory) (fun p => !getModule functionModules p.1 p.2)
    (fun p val => val ^^ maskBit mask p) (nodup_square _) h.valid_square hmem
  rw [applyMask_eq]
  refine hget.trans ?_
  rw [hmarked p hx hy]
  cases isFunction version p with
  | false => simp [gridMemory]
  | true => simp [gridMemory]

/-- **Applying a mask twice undoes it.** -/
theorem applyMask_applyMask (h : Symbol version qrcode) (hmarked : Marked version functionModules)
    (mask : Fin 8) :
    applyMask functionModules (applyMask functionModules qrcode mask) mask = qrcode := by
  have honce := drawn_applyMask h functionModules mask
  have htwice := drawn_applyMask (h.of_drawn honce) functionModules mask
  refine (honce.trans htwice).ext (Drawn.refl qrcode) fun p hp => ?_
  obtain ⟨hx, hy⟩ := h.inGrid_iff.mp hp
  rw [getModule_applyMask (h.of_drawn honce) hmarked mask hx hy,
    getModule_applyMask h hmarked mask hx hy, Bool.xor_assoc, Bool.xor_self, Bool.xor_false]

/-! ### Format bits are drawn whole -/

/-- On the places of the format bits it makes no difference what was there. -/
theorem getModule_drawFormatBits_congr {qrcode' : List UInt8} (h : Symbol version qrcode)
    (h' : Symbol version qrcode') (ecl : Ecc) (mask : Fin 8) {p : ℕ × ℕ} (hp : InGrid qrcode p)
    (hsame : p ∈ formatPlaces (sizeOf version) ∨
      getModule qrcode p.1 p.2 = getModule qrcode' p.1 p.2) :
    getModule (drawFormatBits ecl mask qrcode) p.1 p.2 =
      getModule (drawFormatBits ecl mask qrcode') p.1 p.2 := by
  have hp' := h'.inGrid_iff.mpr (h.inGrid_iff.mp hp)
  rw [drawFormatBits_eq, drawFormatBits_eq, h.size_eq, h'.size_eq]
  refine Memory.get_write_congr (m := gridMemory)
    (h.allValid fun w hw => isFunction_formatWrites h.version_ok hw)
    (h'.allValid fun w hw => isFunction_formatWrites h.version_ok hw) hp hp' ?_
  rw [fst_formatWrites]
  exact hsame

theorem drawFormatBits_drawFormatBits (h : Symbol version qrcode) (ecl ecl' : Ecc)
    (mask mask' : Fin 8) :
    drawFormatBits ecl mask (drawFormatBits ecl' mask' qrcode) =
      drawFormatBits ecl mask qrcode := by
  have hfirst := drawn_drawFormatBits h ecl' mask'
  have hsymbol := h.of_drawn hfirst
  refine (hfirst.trans (drawn_drawFormatBits hsymbol ecl mask)).ext
    (drawn_drawFormatBits h ecl mask) fun p hp => ?_
  refine getModule_drawFormatBits_congr hsymbol h ecl mask
    (hsymbol.inGrid_iff.mpr (h.inGrid_iff.mp hp)) ?_
  by_cases hplace : p ∈ formatPlaces (sizeOf version)
  · exact Or.inl hplace
  · right
    rw [drawFormatBits_eq, h.size_eq]
    refine Memory.get_write_of_notMem (m := gridMemory)
      (h.allValid fun w hw => isFunction_formatWrites h.version_ok hw) hp ?_
    rwa [fst_formatWrites]

/-- Masking and drawing the format bits do not meet. -/
theorem applyMask_drawFormatBits (h : Symbol version qrcode)
    (hmarked : Marked version functionModules) (ecl : Ecc) (mask mask' : Fin 8) :
    applyMask functionModules (drawFormatBits ecl mask qrcode) mask' =
      drawFormatBits ecl mask (applyMask functionModules qrcode mask') := by
  have hformat := drawn_drawFormatBits h ecl mask
  have hmask := drawn_applyMask h functionModules mask'
  have hsymbol := h.of_drawn hmask
  refine (hformat.trans (drawn_applyMask (h.of_drawn hformat) functionModules mask')).ext
    (hmask.trans (drawn_drawFormatBits hsymbol ecl mask)) fun p hp => ?_
  obtain ⟨hx, hy⟩ := h.inGrid_iff.mp hp
  rw [getModule_applyMask (h.of_drawn hformat) hmarked mask' hx hy]
  by_cases hfunction : isFunction version p = true
  · have hsame := getModule_applyMask h hmarked mask' hx hy
    rw [hfunction, Bool.not_true, Bool.false_and, Bool.xor_false] at hsame
    rw [hfunction, Bool.not_true, Bool.false_and, Bool.xor_false]
    exact getModule_drawFormatBits_congr h hsymbol ecl mask hp (Or.inr hsame.symm)
  · have hdata : p ∈ dataModules version :=
      mem_dataModules.mpr ⟨⟨hx, hy⟩, Bool.eq_false_of_not_eq_true hfunction⟩
    rw [(Keeps.drawFormatBits h ecl mask).data p hdata,
      (Keeps.drawFormatBits hsymbol ecl mask).data p hdata,
      getModule_applyMask h hmarked mask' hx hy]

/-! ### The choice -/

/-- The symbol with a mask and its format bits. -/
def finish (functionModules : List UInt8) (ecl : Ecc) (qrcode : List UInt8) (mask : Fin 8) :
    List UInt8 :=
  drawFormatBits ecl mask (applyMask functionModules qrcode mask)

/-- Without a mask, with any format bits or none. -/
def Unmasked (qrcode unmasked : List UInt8) : Prop :=
  unmasked = qrcode ∨ ∃ ecl mask, unmasked = drawFormatBits ecl mask qrcode

theorem finish_of_unmasked (h : Symbol version qrcode) (hmarked : Marked version functionModules)
    {unmasked : List UInt8} (hu : Unmasked qrcode unmasked) (ecl : Ecc) (mask : Fin 8) :
    finish functionModules ecl unmasked mask = finish functionModules ecl qrcode mask := by
  rcases hu with rfl | ⟨ecl', mask', rfl⟩
  · rfl
  · have hsymbol := h.of_drawn (drawn_applyMask h functionModules mask)
    rw [finish, applyMask_drawFormatBits h hmarked, drawFormatBits_drawFormatBits hsymbol, finish]

/-- Taking the mask off leaves the format bits. -/
theorem unmasked_applyMask (h : Symbol version qrcode) (hmarked : Marked version functionModules)
    (ecl : Ecc) (mask : Fin 8) :
    Unmasked qrcode (applyMask functionModules (finish functionModules ecl qrcode mask) mask) := by
  have hsymbol := h.of_drawn (drawn_applyMask h functionModules mask)
  right
  refine ⟨ecl, mask, ?_⟩
  rw [finish, applyMask_drawFormatBits hsymbol hmarked, applyMask_applyMask h hmarked]

/-- What was chosen, as the mask that is returned. -/
def Mask.ofChoice : Option (Fin 8) → Mask
  | none => .auto
  | some k => .pattern k

/-- The loop over masks keeps the least of the scores of the finished symbols. -/
theorem foldl_tryMask (h : Symbol version qrcode) (hmarked : Marked version functionModules)
    (ecl : Ecc) {unmasked : List UInt8} (hu : Unmasked qrcode unmasked)
    (chosen : Option (Fin 8) × ℤ) (masks : List (Fin 8)) :
    ∃ unmasked', Unmasked qrcode unmasked' ∧
      masks.foldl (tryMask functionModules ecl) ⟨unmasked, .ofChoice chosen.1, chosen.2⟩ =
        ⟨unmasked', .ofChoice (masks.foldl
            (leastStep fun k => getPenaltyScore (finish functionModules ecl qrcode k)) chosen).1,
          (masks.foldl
            (leastStep fun k => getPenaltyScore (finish functionModules ecl qrcode k)) chosen).2⟩ := by
  induction masks generalizing unmasked chosen with
  | nil => exact ⟨unmasked, hu, rfl⟩
  | cons k masks ih =>
      have hfinish := finish_of_unmasked h hmarked hu ecl k
      have hundone := unmasked_applyMask h hmarked ecl k
      obtain ⟨unmasked', hu', hrest⟩ := ih hundone
        (leastStep (fun k => getPenaltyScore (finish functionModules ecl qrcode k)) chosen k)
      refine ⟨unmasked', hu', ?_⟩
      rw [List.foldl_cons, List.foldl_cons, ← hrest]
      congr 1
      rw [tryMask]
      show (if getPenaltyScore (finish functionModules ecl unmasked k) < chosen.2 then
          (⟨applyMask functionModules (finish functionModules ecl unmasked k) k, .pattern k,
            getPenaltyScore (finish functionModules ecl unmasked k)⟩ : Choice)
        else ⟨applyMask functionModules (finish functionModules ecl unmasked k) k,
          .ofChoice chosen.1, chosen.2⟩) = _
      rw [hfinish, leastStep]
      by_cases hless : getPenaltyScore (finish functionModules ecl qrcode k) < chosen.2
      · rw [if_pos hless, if_pos hless]
        rfl
      · rw [if_neg hless, if_neg hless]

/-- **The chosen mask is the best**: the symbol that is returned is the one finished with
the first of the masks that score least. -/
theorem handleMasking_auto (h : Symbol version qrcode) (hmarked : Marked version functionModules)
    (ecl : Ecc) :
    ∃ k, handleMasking functionModules ecl .auto qrcode =
        handleMasking functionModules ecl (.pattern k) qrcode ∧
      (∀ j, getPenaltyScore (finish functionModules ecl qrcode k) ≤
        getPenaltyScore (finish functionModules ecl qrcode j)) ∧
      ∀ j < k, getPenaltyScore (finish functionModules ecl qrcode k) <
        getPenaltyScore (finish functionModules ecl qrcode j) := by
  have hbelow : ∃ k ∈ List.finRange 8,
      getPenaltyScore (finish functionModules ecl qrcode k) < longMax := by
    have hsymbol := h.of_drawn (drawn_applyMask h functionModules 0)
    exact ⟨0, List.mem_finRange 0,
      (getPenaltyScore_bounds (hsymbol.of_drawn (drawn_drawFormatBits hsymbol ecl 0))).2⟩
  obtain ⟨k, hleft, hleast⟩ := least_eq hbelow
  obtain ⟨unmasked, hu, hloop⟩ :=
    foldl_tryMask h hmarked ecl (Or.inl rfl) (none, longMax) (List.finRange 8)
  rw [← least, hleast] at hloop
  have hsame := finish_of_unmasked h hmarked hu ecl k
  have hauto : handleMasking functionModules ecl .auto qrcode =
      some (finish functionModules ecl unmasked k) := by
    have hchoice : chooseMask functionModules ecl .auto qrcode = ⟨unmasked, .pattern k, _⟩ := hloop
    rw [handleMasking, hchoice]
    rfl
  refine ⟨k, ?_, fun j => hleft.le (List.mem_finRange j), fun j hj =>
    hleft.lt (List.pairwise_lt_finRange 8) (List.mem_finRange j) hj⟩
  rw [hauto, hsame]
  rfl

end

end Shirokumakun.Qr
