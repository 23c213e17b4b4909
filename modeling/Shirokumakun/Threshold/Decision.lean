/-
What the work handler decides, over exact numbers.

The detection is written once, over any arithmetic, and reads the buffer of the FFT with its
bounds checked.  With floats it is the test of the detection threshold; over the rationals
its decision is a law about the powers of 21 bins, from which everything else follows by the
general theory of such detectors.
-/
import Mathlib.Order.Interval.Finset.Nat
import Shirokumakun.Lib.Cfar
import Shirokumakun.Threshold.Model

namespace Shirokumakun.Threshold

/-! ### The handler over any arithmetic -/

def pdmBufSamples : ℕ := 1024

/-- The operations of the detection.  Integer constants are converted exactly. -/
structure Arith (R : Type) where
  ofNat : (n : ℕ) → n < 2 ^ 24 → R
  add : R → R → R
  mul : R → R → R
  div : R → R → R
  lt : R → R → Bool

section

variable {R : Type} (A : Arith R) (fft_out : Vector R pdmBufSamples)

/-- `r * r + im * im` of bin `k`; `none` if it is not in the buffer. -/
def binPower (k : ℕ) : Option R := do
  let r ← fft_out[2 * k]?
  let im_k ← fft_out[2 * k + 1]?
  pure (A.add (A.mul r r) (A.mul im_k im_k))

/-- The body of the loop over the window. -/
def addBin (noise_sum : R) (k : ℕ) : Option R :=
  if pdmCfarGuardCells < ((k : ℤ) - pdmTargetBin).natAbs then do
    let power ← binPower A fft_out k
    pure (A.add noise_sum power)
  else pure noise_sum

/-- The first bin of the window; it ends as far behind the target bin. -/
def firstBin : ℕ := pdmTargetBin - pdmCfarGuardCells - pdmCfarTrainCells

theorem cfarCells_lt : 2 * pdmCfarTrainCells < 2 ^ 24 := by
  decide

/-- `cut > cfar_thresh`, read off the buffer. -/
def cfarTest (detect_threshold : R) : Option Bool := do
  let cut ← binPower A fft_out pdmTargetBin
  let noise_sum ← (List.range' firstBin (2 * (pdmCfarGuardCells + pdmCfarTrainCells) + 1)).foldlM
    (addBin A fft_out) (A.ofNat 0 (by decide))
  let noise_est := A.div noise_sum (A.ofNat (2 * pdmCfarTrainCells) cfarCells_lt)
  let cfar_thresh := A.mul noise_est detect_threshold
  pure (A.lt cfar_thresh cut)

end

/-- Single precision. -/
def floatArith : Arith Single where
  ofNat := single
  add := Binary.Value.add
  mul := Binary.Value.mul
  div := Binary.Value.div
  lt := Binary.Value.lt

/-- Exact numbers. -/
def exactArith : Arith ℚ where
  ofNat n _ := n
  add := (· + ·)
  mul := (· * ·)
  div := (· / ·)
  lt x y := decide (x < y)

/-! ### Nothing is read outside the buffer -/

section

variable {R : Type} (A : Arith R) (fft_out : Vector R pdmBufSamples)

/-- The buffer as a function of the index. -/
def sample (i : ℕ) : R := fft_out[i]?.getD (A.ofNat 0 (by decide))

def powerOf (k : ℕ) : R :=
  A.add (A.mul (sample A fft_out (2 * k)) (sample A fft_out (2 * k)))
    (A.mul (sample A fft_out (2 * k + 1)) (sample A fft_out (2 * k + 1)))

def addPower (noise_sum : R) (k : ℕ) : R :=
  if pdmCfarGuardCells < ((k : ℤ) - pdmTargetBin).natAbs then
    A.add noise_sum (powerOf A fft_out k)
  else noise_sum

theorem getElem?_eq_sample {i : ℕ} (hi : i < pdmBufSamples) :
    fft_out[i]? = some (sample A fft_out i) := by
  unfold sample
  rw [getElem?_pos fft_out i hi]
  rfl

theorem binPower_eq {k : ℕ} (hk : 2 * k + 1 < pdmBufSamples) :
    binPower A fft_out k = some (powerOf A fft_out k) := by
  unfold binPower
  rw [getElem?_eq_sample A fft_out (Nat.lt_of_succ_lt hk), getElem?_eq_sample A fft_out hk]
  rfl

theorem addBin_eq {k : ℕ} (hk : 2 * k + 1 < pdmBufSamples) (noise_sum : R) :
    addBin A fft_out noise_sum k = some (addPower A fft_out noise_sum k) := by
  unfold addBin addPower
  rw [binPower_eq A fft_out hk]
  by_cases hcell : pdmCfarGuardCells < ((k : ℤ) - pdmTargetBin).natAbs
  · rw [if_pos hcell, if_pos hcell]
    rfl
  · rw [if_neg hcell, if_neg hcell]
    rfl

theorem foldlM_addBin_eq {ks : List ℕ} (hks : ∀ k ∈ ks, 2 * k + 1 < pdmBufSamples)
    (noise_sum : R) :
    ks.foldlM (addBin A fft_out) noise_sum = some (ks.foldl (addPower A fft_out) noise_sum) := by
  induction ks generalizing noise_sum with
  | nil => rfl
  | cons k rest ih =>
      rw [List.foldlM_cons, addBin_eq A fft_out (hks k List.mem_cons_self), List.foldl_cons]
      exact ih (fun j hj => hks j (List.mem_cons_of_mem k hj)) _

/-- The window. -/
def windowBins : List ℕ :=
  List.range' firstBin (2 * (pdmCfarGuardCells + pdmCfarTrainCells) + 1)

theorem windowBins_lt : ∀ k ∈ windowBins, 2 * k + 1 < pdmBufSamples := by
  decide

/-- **The test reads what is there**, whatever the arithmetic. -/
theorem cfarTest_eq (detect_threshold : R) :
    cfarTest A fft_out detect_threshold = some (A.lt
      (A.mul (A.div (windowBins.foldl (addPower A fft_out) (A.ofNat 0 (by decide)))
        (A.ofNat (2 * pdmCfarTrainCells) cfarCells_lt)) detect_threshold)
      (powerOf A fft_out pdmTargetBin)) := by
  unfold cfarTest
  rw [← windowBins, foldlM_addBin_eq A fft_out windowBins_lt, binPower_eq A fft_out (by decide)]
  rfl

end

/-- With floats it is the test of the detection threshold. -/
theorem cfarTest_float (fft_out : Vector Single pdmBufSamples) (detect_threshold : Single) :
    cfarTest floatArith fft_out detect_threshold
      = some (aboveThreshold detect_threshold (sample floatArith fft_out)) :=
  cfarTest_eq floatArith fft_out detect_threshold

/-! ### The law -/

/-- The power of bin `k`. -/
def P (fft_out : Vector ℚ pdmBufSamples) (k : ℕ) : ℚ :=
  fft_out[2 * k]?.getD 0 ^ 2 + fft_out[2 * k + 1]?.getD 0 ^ 2

def trainingBins : Finset ℕ := Finset.Icc 115 124 ∪ Finset.Icc 130 139

section

variable (fft_out : Vector ℚ pdmBufSamples)

theorem powerOf_exact (k : ℕ) : powerOf exactArith fft_out k = P fft_out k := by
  have hzero : sample exactArith fft_out = fun i => fft_out[i]?.getD 0 := by
    funext i
    unfold sample
    rw [show exactArith.ofNat 0 _ = (0 : ℚ) from Nat.cast_zero]
  unfold powerOf P
  rw [hzero, pow_two, pow_two]
  rfl

theorem P_nonneg (k : ℕ) : 0 ≤ P fft_out k := add_nonneg (sq_nonneg _) (sq_nonneg _)

theorem foldl_addPower (ks : List ℕ) (noise_sum : ℚ) :
    ks.foldl (addPower exactArith fft_out) noise_sum
      = noise_sum + ((ks.filter fun k : ℕ =>
          pdmCfarGuardCells < ((k : ℤ) - pdmTargetBin).natAbs).map (P fft_out)).sum := by
  induction ks generalizing noise_sum with
  | nil => simp
  | cons k rest ih =>
      rw [List.foldl_cons, ih]
      unfold addPower
      by_cases hcell : pdmCfarGuardCells < ((k : ℤ) - pdmTargetBin).natAbs
      · rw [if_pos hcell, List.filter_cons_of_pos (by simpa using hcell), List.map_cons,
          List.sum_cons, powerOf_exact]
        exact add_assoc _ _ _
      · rw [if_neg hcell, List.filter_cons_of_neg (by simpa using hcell)]

/-- Without the guard cells and the target bin, the window is the training bins. -/
theorem noiseSum_exact :
    windowBins.foldl (addPower exactArith fft_out) 0 = ∑ k ∈ trainingBins, P fft_out k := by
  have hcells : (windowBins.filter fun k : ℕ => pdmCfarGuardCells < ((k : ℤ) - pdmTargetBin).natAbs)
      = List.range' 115 10 ++ List.range' 130 10 := by decide
  have hbins : trainingBins = (List.range' 115 10 ++ List.range' 130 10).toFinset := by decide
  have hnodup : (List.range' 115 10 ++ List.range' 130 10).Nodup := by decide
  rw [foldl_addPower, zero_add, hcells, hbins, List.sum_toFinset _ hnodup]

/-- **The handler is a detector** with these cells. -/
theorem cfarTest_exact (t : ℚ) :
    cfarTest exactArith fft_out t = some true ↔
      Cfar.Detects trainingBins pdmTargetBin t (P fft_out) := by
  have hzero : exactArith.ofNat 0 (by decide) = (0 : ℚ) := Nat.cast_zero
  rw [cfarTest_eq, hzero, noiseSum_exact, powerOf_exact, Option.some.injEq]
  exact decide_eq_true_iff

/-- It decides, one way or the other. -/
theorem cfarTest_cases (t : ℚ) :
    cfarTest exactArith fft_out t = some true ∨ cfarTest exactArith fft_out t = some false := by
  rw [cfarTest_eq]
  cases exactArith.lt _ _ with
  | true => exact Or.inl rfl
  | false => exact Or.inr rfl

end

/-- Two decisions are the same when they detect the same. -/
theorem cfarTest_congr {x y : Vector ℚ pdmBufSamples} {t u : ℚ}
    (h : Cfar.Detects trainingBins pdmTargetBin t (P x) ↔
      Cfar.Detects trainingBins pdmTargetBin u (P y)) :
    cfarTest exactArith x t = cfarTest exactArith y u := by
  rw [← cfarTest_exact, ← cfarTest_exact] at h
  rcases cfarTest_cases x t with hx | hx
  · rw [hx, h.mp hx]
  · rcases cfarTest_cases y u with hy | hy
    · rw [h.mpr hy, hy]
    · rw [hx, hy]

theorem P_map (fft_out : Vector ℚ pdmBufSamples) (c : ℚ) (k : ℕ) :
    P (fft_out.map (c * ·)) k = c ^ 2 * P fft_out k := by
  have hsample : ∀ i : ℕ, (fft_out.map (c * ·))[i]?.getD 0 = c * fft_out[i]?.getD 0 := by
    intro i
    rw [Vector.getElem?_map]
    cases fft_out[i]? with
    | none => exact (mul_zero c).symm
    | some v => rfl
  unfold P
  rw [hsample, hsample]
  ring

theorem P_replicate_zero (k : ℕ) : P (Vector.replicate pdmBufSamples 0) k = 0 := by
  have hsample : ∀ i : ℕ, (Vector.replicate pdmBufSamples (0 : ℚ))[i]?.getD 0 = 0 := by
    intro i
    rw [Vector.getElem?_replicate]
    by_cases hi : i < pdmBufSamples
    · rw [if_pos hi]
      rfl
    · rw [if_neg hi]
      rfl
  unfold P
  rw [hsample, hsample]
  ring

/-- **The law of the decision.**  Nothing outside the buffer is read.  Over exact numbers the
target bin is detected when twenty times its power is more than `t` times the powers of bins
115 to 124 and 130 to 139; so a common factor does not matter, nor do other bins, more power
in a training bin detects nothing new, silence is not detected, and with a threshold of 20 or
more what is detected is stronger than every training bin. -/
theorem cfar_law :
    (∀ (R : Type) (A : Arith R) (x : Vector R pdmBufSamples) (t : R),
      (cfarTest A x t).isSome = true) ∧
    (∀ x t, cfarTest exactArith x t
      = some (decide (t * ∑ k ∈ trainingBins, P x k < 20 * P x 127))) ∧
    (∀ x t c, c ≠ 0 → cfarTest exactArith (x.map (c * ·)) t = cfarTest exactArith x t) ∧
    (∀ x y t, (∀ k, k = 127 ∨ k ∈ trainingBins →
        x[2 * k]? = y[2 * k]? ∧ x[2 * k + 1]? = y[2 * k + 1]?) →
      cfarTest exactArith x t = cfarTest exactArith y t) ∧
    (∀ x y t, 0 < t → P y 127 = P x 127 → (∀ k ∈ trainingBins, P x k ≤ P y k) →
      cfarTest exactArith x t = some false → cfarTest exactArith y t = some false) ∧
    (∀ t, cfarTest exactArith (Vector.replicate pdmBufSamples 0) t = some false) ∧
    (∀ x t, 20 ≤ t → cfarTest exactArith x t = some true →
      ∀ k ∈ trainingBins, P x k < P x 127) := by
  have hne : trainingBins.Nonempty := ⟨115, by decide⟩
  have hcard : trainingBins.card = 20 := by decide
  refine ⟨?_, ?_, ?_, ?_, ?_, ?_, ?_⟩
  · intro R A x t
    rw [cfarTest_eq]
    rfl
  · intro x t
    have hlaw : cfarTest exactArith x t = some true ↔
        t * ∑ k ∈ trainingBins, P x k < (20 : ℕ) * P x 127 := by
      rw [cfarTest_exact, Cfar.detects_iff hne, hcard]
      rfl
    rw [Nat.cast_ofNat] at hlaw
    rcases cfarTest_cases x t with htrue | hfalse
    · rw [htrue, decide_eq_true (hlaw.mp htrue)]
    · have hno : ¬ cfarTest exactArith x t = some true := by
        rw [hfalse]
        decide
      rw [hfalse, decide_eq_false (mt hlaw.mpr hno)]
  · intro x t c hc
    apply cfarTest_congr
    have hpower : P (x.map (c * ·)) = fun k => c ^ 2 * P x k := funext (P_map x c)
    rw [hpower]
    exact Cfar.detects_scale (sq_pos_of_ne_zero hc)
  · intro x y t hsame
    have hpower : ∀ k, k = 127 ∨ k ∈ trainingBins → P x k = P y k := by
      intro k hk
      unfold P
      rw [(hsame k hk).1, (hsame k hk).2]
    exact cfarTest_congr
      (Cfar.detects_congr (hpower 127 (Or.inl rfl)) fun k hk => hpower k (Or.inr hk))
  · intro x y t ht hcut hmore hrejected
    refine (cfarTest_cases y t).resolve_left ?_
    intro hdetected
    have hx := (cfarTest_exact x t).mpr
      (((cfarTest_exact y t).mp hdetected).anti ht.le hcut.le hmore)
    rw [hrejected] at hx
    exact absurd hx (by decide)
  · intro t
    refine (cfarTest_cases _ t).resolve_left ?_
    intro hdetected
    exact Cfar.not_detects_zero P_replicate_zero ((cfarTest_exact _ t).mp hdetected)
  · intro x t ht hdetected k hk
    have hdetects := (cfarTest_exact x t).mp hdetected
    exact hdetects.lt_cut (P_nonneg x) (by rw [hcard]; exact_mod_cast ht) hk

end Shirokumakun.Threshold
