/-
Registers of bits as elements of a quotient ring.

A register of `w` bits under a generator of degree `w` is an element of the ring of
polynomials over the field with two elements modulo the generator: adding is exclusive
or, and one step of the register multiplies by the root.  Every element is exactly one
register.

Whether the ring is a field is a question about the register alone.  If stepping from one
visits every register but zero and comes back, every element but zero is a power of the
root, so it has an inverse (`isDomain_of_orbit`), and no factorisation of the generator
has to be ruled out.
-/
import Mathlib.LinearAlgebra.FreeModule.Finite.CardQuotient
import Mathlib.RingTheory.AdjoinRoot
import Shirokumakun.Lib.Crc

namespace BinaryField

open Polynomial Crc

variable {w : ℕ} (g : Generator w)

/-- The element a register stands for. -/
noncomputable def element (bits : List Bool) : AdjoinRoot g.toPoly :=
  AdjoinRoot.mk g.toPoly (poly bits)

theorem element_zipWith_xor {a b : List Bool} (h : a.length = b.length) :
    element g (List.zipWith xor a b) = element g a + element g b := by
  rw [element, poly_zipWith_xor h, map_add]
  rfl

theorem element_replicate_false (n : ℕ) : element g (List.replicate n false) = 0 := by
  rw [element, poly_replicate_false, map_zero]

/-- One step multiplies by the root. -/
theorem element_step {reg : List Bool} (h : reg.length = w) :
    element g (g.step reg) = AdjoinRoot.root g.toPoly * element g reg := by
  have hmk := (AdjoinRoot.mk_eq_mk (f := g.toPoly)).mpr (Generator.dvd_step h)
  rw [map_mul, AdjoinRoot.mk_X] at hmk
  exact hmk

variable {g}

theorem element_injective {a b : List Bool} (ha : a.length = w) (hb : b.length = w)
    (h : element g a = element g b) : a = b :=
  Generator.eq_of_dvd_sub ha hb (AdjoinRoot.mk_eq_mk.mp h)

/-- Every element is a register. -/
theorem exists_element (x : AdjoinRoot g.toPoly) :
    ∃ bits, bits.length = w ∧ element g bits = x := by
  have hdeg : g.toPoly.natDegree = w := natDegree_eq_of_degree_eq_some g.degree_toPoly
  have hfinite : Module.Finite (ZMod 2) (AdjoinRoot g.toPoly) := g.monic.finite_adjoinRoot
  have hfin : Finite (AdjoinRoot g.toPoly) := Module.finite_of_finite (ZMod 2)
  have hcard : Nat.card (AdjoinRoot g.toPoly) = 2 ^ w := by
    have hbasis := Nat.card_congr (AdjoinRoot.powerBasis' g.monic).basis.equivFun.toEquiv
    rw [hbasis, Nat.card_fun, Nat.card_zmod, Nat.card_fin]
    rw [AdjoinRoot.powerBasis'_dim, hdeg]
  have hinj : Function.Injective fun v : Fin w → Bool => element g (List.ofFn v) := by
    intro u v huv
    exact List.ofFn_injective (element_injective List.length_ofFn List.length_ofFn huv)
  have hle : Nat.card (AdjoinRoot g.toPoly) ≤ Nat.card (Fin w → Bool) := by
    rw [hcard, Nat.card_fun, Nat.card_fin, Nat.card_eq_fintype_card, Fintype.card_bool]
  obtain ⟨v, hv⟩ := (hinj.bijective_of_nat_card_le hle).2 x
  exact ⟨List.ofFn v, List.length_ofFn, hv⟩

/-- If every element but zero is a power of the root, and one is a power of it again, no
two elements but zero have the product zero. -/
theorem isDomain_of_orbit (hw : 0 < w) {n : ℕ}
    (hone : AdjoinRoot.root g.toPoly ^ n = 1)
    (horbit : ∀ x : AdjoinRoot g.toPoly, x ≠ 0 → ∃ k ≤ n, x = AdjoinRoot.root g.toPoly ^ k) :
    IsDomain (AdjoinRoot g.toPoly) := by
  have hnontrivial : Nontrivial (AdjoinRoot g.toPoly) := by
    refine AdjoinRoot.nontrivial _ ?_
    rw [g.degree_toPoly]
    exact_mod_cast hw.ne'
  have hcancel : NoZeroDivisors (AdjoinRoot g.toPoly) := by
    refine ⟨fun {x y} hxy => ?_⟩
    by_cases hx : x = 0
    · exact Or.inl hx
    · right
      obtain ⟨k, hk, rfl⟩ := horbit x hx
      have hinverse : AdjoinRoot.root g.toPoly ^ (n - k) * AdjoinRoot.root g.toPoly ^ k = 1 := by
        rw [← pow_add, Nat.sub_add_cancel hk, hone]
      calc y = AdjoinRoot.root g.toPoly ^ (n - k) * (AdjoinRoot.root g.toPoly ^ k * y) := by
            rw [← mul_assoc, hinverse, one_mul]
        _ = 0 := by rw [hxy, mul_zero]
  exact NoZeroDivisors.to_isDomain _

end BinaryField
