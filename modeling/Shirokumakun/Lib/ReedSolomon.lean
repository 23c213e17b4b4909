/-
Systematic Reed-Solomon codes.

A word is a list of ring elements, read as a polynomial with the coefficient of the
highest power first.  The generator of degree `d` is the product of `X - α ^ i` for
`i < d`; a message is followed by `d` check symbols that make the whole divisible by it.
`generatorTaps` and `checks` are the two loops that compute this, multiplication by one
root at a time and long division one symbol at a time, and the first half of the file
says that they do.

The second half is why anyone would: two words divisible by the generator differ in more
than `d` places, so at most `d / 2` wrong symbols leave only one message possible.  A
polynomial with `d` or fewer terms that vanishes at `d` consecutive powers of `α` gives a
Vandermonde system with a zero right side, and its matrix is regular where the powers of
`α` that occur are different.
-/
import Mathlib.Data.List.Induction
import Mathlib.Algebra.Polynomial.BigOperators
import Mathlib.Algebra.Polynomial.Monic
import Mathlib.LinearAlgebra.Vandermonde
import Mathlib.Tactic.LinearCombination
import Shirokumakun.Lib.Hamming

namespace ReedSolomon

open Polynomial Hamming

variable {R : Type*} [CommRing R]

/-- The polynomial with these coefficients, that of the highest power first. -/
noncomputable def poly : List R → R[X]
  | [] => 0
  | a :: rest => C a * X ^ rest.length + poly rest

/-- The product of the first `d` factors `X - α ^ i`. -/
noncomputable def generator (α : R) (d : ℕ) : R[X] := ∏ i ∈ Finset.range d, (X - C (α ^ i))

/-! ### Lists as polynomials -/

theorem poly_append (front back : List R) :
    poly (front ++ back) = poly front * X ^ back.length + poly back := by
  induction front with
  | nil => simp [poly]
  | cons a rest ih =>
      rw [List.cons_append, poly, poly, ih, List.length_append, pow_add]
      ring

theorem poly_replicate_zero (n : ℕ) : poly (List.replicate n (0 : R)) = 0 := by
  induction n with
  | zero => rfl
  | succ n ih => rw [List.replicate_succ, poly, ih, C_0, zero_mul, add_zero]

/-- Adding multiples of one list to another, symbol by symbol. -/
theorem poly_zipWith (c : R) {xs ys : List R} (h : xs.length = ys.length) :
    poly (List.zipWith (fun x y => x + y * c) xs ys) = poly xs + C c * poly ys := by
  induction xs generalizing ys with
  | nil =>
      obtain rfl := List.eq_nil_of_length_eq_zero h.symm
      simp [poly]
  | cons x rest ih =>
      cases ys with
      | nil => simp at h
      | cons y rest' =>
          have hlen : rest.length = rest'.length := Nat.succ.inj h
          have hzip : (List.zipWith (fun x y => x + y * c) rest rest').length = rest'.length := by
            rw [List.length_zipWith, hlen, Nat.min_self]
          rw [List.zipWith_cons_cons, poly, poly, poly, ih hlen, hzip, hlen, C_add, C_mul]
          ring

theorem degree_poly_lt (xs : List R) : (poly xs).degree < xs.length := by
  induction xs with
  | nil =>
      rw [poly, degree_zero]
      exact WithBot.bot_lt_coe _
  | cons a rest ih =>
      have hsucc : (rest.length : WithBot ℕ) < (a :: rest).length := by
        exact_mod_cast Nat.lt_succ_self _
      refine (degree_add_le _ _).trans_lt (max_lt ?_ (ih.trans hsucc))
      exact (degree_C_mul_X_pow_le _ _).trans_lt hsucc

/-- The first element is the coefficient of the highest power. -/
theorem coeff_poly_cons (a : R) (rest : List R) : (poly (a :: rest)).coeff rest.length = a := by
  rw [poly, coeff_add, coeff_C_mul_X_pow, if_pos rfl,
    coeff_eq_zero_of_degree_lt (degree_poly_lt rest), add_zero]

/-- Words of one length with the same polynomial are the same. -/
theorem poly_injective {xs ys : List R} (hlen : xs.length = ys.length) (h : poly xs = poly ys) :
    xs = ys := by
  induction xs generalizing ys with
  | nil => exact (List.eq_nil_of_length_eq_zero hlen.symm).symm
  | cons x xs ih =>
      obtain ⟨y, ys, rfl⟩ := List.exists_cons_of_length_eq_add_one hlen.symm
      have hrest : xs.length = ys.length := Nat.succ.inj hlen
      have hhead : x = y := by
        rw [← coeff_poly_cons x xs, ← coeff_poly_cons y ys, h, hrest]
      subst hhead
      rw [poly, poly, hrest] at h
      rw [ih hrest (add_left_cancel h)]

theorem poly_sub {xs ys : List R} (h : xs.length = ys.length) :
    poly xs - poly ys = poly (List.zipWith (fun x y => x + y * -1) xs ys) := by
  rw [poly_zipWith (-1) h, C_neg, C_1]
  ring

/-! ### The generator, one root at a time -/

/-- Multiply by `X - root`, dropping what leaves the list at the top. -/
def mulRoot (root : R) (xs : List R) : List R :=
  List.zipWith (fun x y => x + y * -root) (xs.tail ++ [0]) xs

/-- The coefficients of the generator below the highest. -/
def generatorTaps (α : R) (d : ℕ) : List R :=
  (List.range d).foldl (fun xs i => mulRoot (α ^ i) xs) (List.replicate (d - 1) 0 ++ [1])

theorem generator_succ (α : R) (d : ℕ) :
    generator α (d + 1) = generator α d * (X - C (α ^ d)) := Finset.prod_range_succ _ _

theorem monic_generator (α : R) (d : ℕ) : (generator α d).Monic :=
  monic_prod_of_monic _ _ fun _ _ => monic_X_sub_C _

theorem natDegree_generator [Nontrivial R] (α : R) (d : ℕ) : (generator α d).natDegree = d := by
  rw [generator, natDegree_prod_of_monic _ _ fun _ _ => monic_X_sub_C _,
    Finset.sum_congr rfl fun i _ => natDegree_X_sub_C (α ^ i)]
  simp

theorem length_mulRoot {root : R} {xs : List R} (h : xs ≠ []) :
    (mulRoot root xs).length = xs.length := by
  obtain ⟨a, rest, rfl⟩ := List.exists_cons_of_ne_nil h
  simp [mulRoot]

theorem poly_mulRoot (root a : R) (rest : List R) :
    poly (mulRoot root (a :: rest)) =
      poly (a :: rest) * (X - C root) - C a * X ^ (rest.length + 1) := by
  have hlen : ((a :: rest).tail ++ [0]).length = (a :: rest).length := by simp
  have hshift : poly (rest ++ [0]) = poly rest * X := by
    rw [poly_append]
    simp [poly]
  rw [mulRoot, poly_zipWith (-root) hlen, List.tail_cons, hshift, poly, C_neg, pow_succ]
  ring

/-- After `i` roots the list spells the product of `i` factors; the power `X ^ d` is what
leaves it when the last root is multiplied in. -/
theorem poly_foldl_mulRoot [Nontrivial R] (α : R) {d i : ℕ} (hd : 0 < d) (hi : i ≤ d) :
    ((List.range i).foldl (fun xs i => mulRoot (α ^ i) xs)
        (List.replicate (d - 1) 0 ++ [1])).length = d ∧
      poly ((List.range i).foldl (fun xs i => mulRoot (α ^ i) xs)
        (List.replicate (d - 1) 0 ++ [1])) = generator α i - if i = d then X ^ d else 0 := by
  induction i with
  | zero =>
      rw [List.range_zero, List.foldl_nil, if_neg hd.ne, List.length_append,
        List.length_replicate, List.length_singleton, poly_append, poly_replicate_zero]
      refine ⟨by omega, ?_⟩
      simp [poly, generator]
  | succ i ih =>
      obtain ⟨hlen, hpoly⟩ := ih (by omega)
      rw [if_neg (by omega), sub_zero] at hpoly
      rw [List.range_succ, List.foldl_append, List.foldl_cons, List.foldl_nil]
      obtain ⟨a, rest, hcons⟩ := List.exists_cons_of_ne_nil (l := (List.range i).foldl
        (fun xs i => mulRoot (α ^ i) xs) (List.replicate (d - 1) 0 ++ [1]))
        (by intro hnil; rw [hnil] at hlen; exact hd.ne hlen)
      rw [hcons] at hlen hpoly ⊢
      have hrest : rest.length + 1 = d := hlen
      -- the top coefficient is that of the product so far, which has degree `i`
      have htop : a = if i + 1 = d then 1 else 0 := by
        rw [← coeff_poly_cons a rest, hpoly]
        by_cases hlast : i + 1 = d
        · have hdeg : rest.length = (generator α i).natDegree := by
            rw [natDegree_generator]
            omega
          rw [if_pos hlast, hdeg]
          exact monic_generator α i
        · rw [if_neg hlast]
          apply coeff_eq_zero_of_natDegree_lt
          rw [natDegree_generator]
          omega
      refine ⟨?_, ?_⟩
      · rw [length_mulRoot (List.cons_ne_nil a rest)]
        exact hlen
      · rw [poly_mulRoot, hpoly, hrest, generator_succ, htop]
        by_cases hlast : i + 1 = d
        · rw [if_pos hlast, if_pos hlast, C_1, one_mul]
        · rw [if_neg hlast, if_neg hlast, C_0, zero_mul]

theorem length_generatorTaps [Nontrivial R] (α : R) {d : ℕ} (hd : 0 < d) :
    (generatorTaps α d).length = d := (poly_foldl_mulRoot α hd le_rfl).1

/-- The computed list, under an implicit leading one, is the generator. -/
theorem poly_generatorTaps [Nontrivial R] (α : R) {d : ℕ} (hd : 0 < d) :
    X ^ d + poly (generatorTaps α d) = generator α d := by
  rw [generatorTaps, (poly_foldl_mulRoot α hd le_rfl).2, if_pos rfl]
  ring

/-! ### The check symbols -/

/-- One symbol enters the division: what leaves the register at the top is taken off it
as a multiple of the taps. -/
def step (taps reg : List R) (b : R) : List R :=
  List.zipWith (fun x y => x + y * (b - reg.headD 0)) (reg.tail ++ [0]) taps

/-- The check symbols of a message. -/
def checks (taps message : List R) : List R :=
  message.foldl (step taps) (List.replicate taps.length 0)

section

variable {taps : List R}

theorem length_step {reg : List R} (hreg : reg.length = taps.length) (b : R) :
    (step taps reg b).length = taps.length := by
  rw [step, List.length_zipWith, List.length_append, List.length_tail, List.length_singleton]
  omega

/-- **One symbol**: if the message followed by the register is divisible, it still is with
the symbol appended to the message and the register stepped. -/
theorem dvd_step {reg : List R} (hpos : 0 < taps.length) (hreg : reg.length = taps.length)
    {message : List R} (b : R)
    (h : X ^ taps.length + poly taps ∣ poly (message ++ reg)) :
    X ^ taps.length + poly taps ∣ poly ((message ++ [b]) ++ step taps reg b) := by
  obtain ⟨a, rest, rfl⟩ := List.exists_cons_of_ne_nil (List.ne_nil_of_length_pos (hreg ▸ hpos))
  have hlen : (rest ++ [0]).length = taps.length := by
    rw [← hreg, List.length_append]
    rfl
  have hrest : taps.length = rest.length + 1 := hreg.symm
  have hshift : poly (rest ++ [0]) = poly rest * X := by
    rw [poly_append]
    simp [poly]
  have hstep : poly (step taps (a :: rest) b) = poly rest * X + C (b - a) * poly taps := by
    rw [step, List.tail_cons, List.headD_cons, poly_zipWith (b - a) hlen, hshift]
  have hsum := dvd_add (h.mul_left X) (Dvd.intro_left (C (b - a)) rfl)
  have hgoal : poly ((message ++ [b]) ++ step taps (a :: rest) b) =
      X * poly (message ++ a :: rest) + C (b - a) * (X ^ taps.length + poly taps) := by
    rw [poly_append, poly_append, poly_append, hstep, length_step hreg, poly, poly,
      List.length_singleton, List.length_cons, hrest, C_sub]
    simp only [poly, List.length_nil]
    ring
  rw [hgoal]
  exact hsum

/-- **The message with its check symbols** is divisible by the generator. -/
theorem dvd_checks (hpos : 0 < taps.length) (message : List R) :
    (checks taps message).length = taps.length ∧
      X ^ taps.length + poly taps ∣ poly (message ++ checks taps message) := by
  induction message using List.reverseRecOn with
  | nil =>
      refine ⟨List.length_replicate, ?_⟩
      rw [List.nil_append, checks, List.foldl_nil, poly_replicate_zero]
      exact dvd_zero _
  | append_singleton message b ih =>
      obtain ⟨hlen, hdvd⟩ := ih
      have hcons : checks taps (message ++ [b]) = step taps (checks taps message) b := by
        rw [checks, List.foldl_append]
        rfl
      rw [hcons]
      exact ⟨length_step hlen b, dvd_step hpos hlen b hdvd⟩

end

/-! ### The minimum distance -/

theorem eval_generator_eq_zero {α : R} {d i : ℕ} (h : i < d) :
    (generator α d).eval (α ^ i) = 0 := by
  rw [generator, eval_prod]
  exact Finset.prod_eq_zero (Finset.mem_range.mpr h) (by simp)

section

variable [IsDomain R] {α : R} {d : ℕ}

/-- A multiple of the generator has more than `d` terms, or none. -/
theorem lt_card_support {p : R[X]} (hp : p ≠ 0) (hdvd : generator α d ∣ p)
    (hinj : Set.InjOn (fun n : ℕ => α ^ n) p.support) : d < p.support.card := by
  by_contra hle
  have hle := Nat.le_of_not_lt hle
  let e := p.support.equivFin
  have hpoints : Function.Injective fun k => α ^ (e.symm k : ℕ) := fun k l h =>
    e.symm.injective (Subtype.ext (hinj (e.symm k).2 (e.symm l).2 h))
  have hzero : (fun k => p.coeff (e.symm k)) = 0 := by
    refine Matrix.eq_zero_of_forall_pow_sum_mul_pow_eq_zero hpoints fun i => ?_
    have hroot : p.eval (α ^ (i : ℕ)) = 0 :=
      eval_eq_zero_of_dvd_of_eval_eq_zero hdvd (eval_generator_eq_zero (i.2.trans_le hle))
    calc ∑ k, p.coeff (e.symm k) * (α ^ (e.symm k : ℕ)) ^ (i : ℕ)
        = ∑ n : p.support, p.coeff n * (α ^ (n : ℕ)) ^ (i : ℕ) :=
          Equiv.sum_comp e.symm fun n => p.coeff n * (α ^ (n : ℕ)) ^ (i : ℕ)
      _ = ∑ n ∈ p.support, p.coeff n * (α ^ n) ^ (i : ℕ) :=
          Finset.sum_coe_sort p.support fun n => p.coeff n * (α ^ n) ^ (i : ℕ)
      _ = p.eval (α ^ (i : ℕ)) := by
          rw [eval_eq_sum, sum_def]
          refine Finset.sum_congr rfl fun n _ => ?_
          rw [← pow_mul, ← pow_mul, Nat.mul_comm]
      _ = 0 := hroot
  obtain ⟨n, hn⟩ := Finset.nonempty_of_ne_empty (mt support_eq_empty.mp hp)
  have hcoeff := congrFun hzero (e ⟨n, hn⟩)
  simp only [Equiv.symm_apply_apply, Pi.zero_apply] at hcoeff
  exact mem_support_iff.mp hn hcoeff

end

/-! ### Distances -/

section

variable [DecidableEq R]

theorem card_support_le {xs ys : List R} (h : xs.length = ys.length) :
    (poly xs - poly ys).support.card ≤ distance xs ys := by
  rw [poly_sub h]
  induction xs generalizing ys with
  | nil => simp [poly]
  | cons x xs ih =>
      obtain ⟨y, ys, rfl⟩ := List.exists_cons_of_length_eq_add_one h.symm
      have hrest := ih (Nat.succ.inj h)
      rw [List.zipWith_cons_cons, poly, distance_cons]
      by_cases hxy : x = y
      · have hzero : x + y * -1 = 0 := by
          rw [hxy]
          ring
        rw [hzero, C_0, zero_mul, zero_add, if_pos hxy]
        exact hrest
      · rw [if_neg hxy]
        refine (Finset.card_le_card support_add).trans ((Finset.card_union_le _ _).trans ?_)
        rw [Nat.add_comm]
        exact Nat.add_le_add hrest card_support_C_mul_X_pow_le_one

variable [IsDomain R] {α : R} {d : ℕ}

/-- Words divisible by the generator that differ in at most `d` places are the same. -/
theorem eq_of_distance_le {xs ys : List R} (hlen : xs.length = ys.length)
    (hinj : Set.InjOn (fun n : ℕ => α ^ n) (Set.Iio xs.length)) (hx : generator α d ∣ poly xs)
    (hy : generator α d ∣ poly ys) (hdist : distance xs ys ≤ d) : xs = ys := by
  apply poly_injective hlen
  by_contra hne
  have hsub : poly xs - poly ys ≠ 0 := sub_ne_zero.mpr hne
  have hdeg : (poly xs - poly ys).degree < xs.length := by
    refine (degree_sub_le _ _).trans_lt (max_lt (degree_poly_lt xs) ?_)
    rw [hlen]
    exact degree_poly_lt ys
  have hsupport : ∀ n ∈ (poly xs - poly ys).support, n ∈ Set.Iio xs.length := by
    intro n hn
    have hle := le_degree_of_mem_supp n hn
    exact_mod_cast hle.trans_lt hdeg
  have hmore := lt_card_support hsub (dvd_sub hx hy) (hinj.mono hsupport)
  exact absurd (hmore.trans_le (card_support_le hlen)) (Nat.not_lt.mpr hdist)

/-- **Unique decoding**: a word within half the distance of two multiples of the generator
does not exist unless they are the same. -/
theorem eq_of_near {xs ys received : List R} {t : ℕ} (hlen : xs.length = ys.length)
    (hreceived : received.length = xs.length)
    (hinj : Set.InjOn (fun n : ℕ => α ^ n) (Set.Iio xs.length)) (hx : generator α d ∣ poly xs)
    (hy : generator α d ∣ poly ys) (hxr : distance xs received ≤ t)
    (hyr : distance ys received ≤ t) (ht : 2 * t ≤ d) : xs = ys := by
  have htriangle := distance_triangle hreceived.symm (hreceived.trans hlen)
  rw [distance_comm received ys] at htriangle
  exact eq_of_distance_le hlen hinj hx hy (by omega)

end

end ReedSolomon
