/-
Detection against the mean of other cells.

A cell is detected when its power is more than `t` times the mean power of the training
cells.  Nothing else matters: not a common factor, not a cell that is neither, and more power
in a training cell only makes detection harder.  With a threshold of at least the number of
training cells, a detected cell is stronger than each of them, since the mean of nonnegative
powers is at least their number's share of any one.
-/
import Mathlib.Algebra.BigOperators.Field
import Mathlib.Algebra.Order.BigOperators.Group.Finset
import Mathlib.Algebra.Order.Field.Basic
import Mathlib.Tactic.Positivity
import Mathlib.Tactic.GCongr

namespace Cfar

variable {ι F : Type*} [Field F] [LinearOrder F]

/-- More power in the cell under test than `t` times the mean of the training cells. -/
def Detects (training : Finset ι) (cut : ι) (t : F) (power : ι → F) : Prop :=
  (∑ k ∈ training, power k) / training.card * t < power cut

variable {training : Finset ι} {cut : ι} {t : F} {power power' : ι → F}

/-- **Cells that are neither** do not matter. -/
theorem detects_congr (hcut : power cut = power' cut) (hsame : ∀ k ∈ training, power k = power' k) :
    Detects training cut t power ↔ Detects training cut t power' := by
  unfold Detects
  rw [Finset.sum_congr rfl hsame, hcut]

/-- **Silence** is not detected. -/
theorem not_detects_zero (hzero : ∀ k, power k = 0) : ¬ Detects training cut t power := by
  have hsum : ∑ k ∈ training, power k = 0 := Finset.sum_eq_zero fun k _ => hzero k
  unfold Detects
  rw [hsum, hzero, zero_div, zero_mul]
  exact lt_irrefl 0

variable [IsStrictOrderedRing F]

/-- The mean, multiplied out. -/
theorem detects_iff (hne : training.Nonempty) :
    Detects training cut t power ↔ t * ∑ k ∈ training, power k < training.card * power cut := by
  have hcard : (0 : F) < training.card := by exact_mod_cast hne.card_pos
  unfold Detects
  rw [div_mul_eq_mul_div, div_lt_iff₀ hcard, mul_comm t, mul_comm (training.card : F)]

/-- **A common factor** cancels. -/
theorem detects_scale {c : F} (hc : 0 < c) :
    Detects training cut t (fun k => c * power k) ↔ Detects training cut t power := by
  unfold Detects
  rw [← Finset.mul_sum, mul_div_assoc, mul_assoc, mul_lt_mul_iff_right₀ hc]

/-- **More noise** never helps. -/
theorem Detects.anti (ht : 0 ≤ t) (hcut : power' cut ≤ power cut)
    (hmore : ∀ k ∈ training, power k ≤ power' k) (h : Detects training cut t power') :
    Detects training cut t power := by
  have hmean : (∑ k ∈ training, power k) / training.card * t
      ≤ (∑ k ∈ training, power' k) / training.card * t := by
    apply mul_le_mul_of_nonneg_right _ ht
    apply div_le_div_of_nonneg_right (Finset.sum_le_sum hmore)
    exact Nat.cast_nonneg _
  exact hmean.trans_lt (h.trans_le hcut)

/-- **What is detected is the strongest**, from a threshold of the number of cells on. -/
theorem Detects.lt_cut (hpower : ∀ k, 0 ≤ power k) (ht : (training.card : F) ≤ t)
    (h : Detects training cut t power) {k : ι} (hk : k ∈ training) : power k < power cut := by
  have hcard : (0 : F) < training.card := by exact_mod_cast Finset.card_pos.mpr ⟨k, hk⟩
  have hone : power k ≤ ∑ j ∈ training, power j :=
    Finset.single_le_sum (fun j _ => hpower j) hk
  have hmean : power k ≤ (∑ j ∈ training, power j) / training.card * t := by
    calc power k ≤ ∑ j ∈ training, power j := hone
      _ = (∑ j ∈ training, power j) / training.card * training.card :=
        (div_mul_cancel₀ _ hcard.ne').symm
      _ ≤ (∑ j ∈ training, power j) / training.card * t := by
        apply mul_le_mul_of_nonneg_left ht
        exact div_nonneg ((hpower k).trans hone) hcard.le
  exact hmean.trans_lt h

end Cfar
