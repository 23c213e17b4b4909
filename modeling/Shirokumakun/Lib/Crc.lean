/-
Cyclic redundancy checks.

A list of bits, the first one on the wire first, is a polynomial over the field of two
elements; adding polynomials is the exclusive or of the lists.  A `Generator` is a monic
polynomial with constant term one, given by its lower coefficients, and `Generator.crc` is
the shift register that divides by it: it works on lists of bits alone, and is connected to
the polynomials by one congruence, kept by every step.

What a generator detects is then a matter of what it divides.  No power of `X` helps it,
since it has the constant term one; so a burst no longer than its degree is detected at any
place of a message of any length.  With an even number of terms it divides nothing with an
odd number of terms.  And two wrong bits are detected as far apart as the register, started
with one, takes to come back to one.
-/
import Mathlib.Algebra.Field.ZMod
import Mathlib.Algebra.CharP.Two
import Mathlib.Algebra.Polynomial.FieldDivision
import Mathlib.Tactic.LinearCombination

namespace Crc

open Polynomial

/-! ### Bits as polynomials -/

def bit (b : Bool) : ZMod 2 := if b then 1 else 0

/-- The polynomial with these coefficients, that of the highest power first. -/
noncomputable def poly : List Bool → (ZMod 2)[X]
  | [] => 0
  | b :: rest => C (bit b) * X ^ rest.length + poly rest

/-- The lists differ within `n` consecutive places. -/
def Burst (n : Nat) (a b : List Bool) : Prop :=
  ∃ front s t back, a = front ++ s ++ back ∧ b = front ++ t ++ back ∧
    s.length = t.length ∧ s.length ≤ n ∧ s ≠ t

/-- The number one, in `w` bits. -/
def one (w : Nat) : List Bool := List.replicate (w - 1) false ++ [true]

theorem bit_injective : Function.Injective bit := by
  intro b c
  cases b <;> cases c <;> simp [bit]

theorem bit_xor (b c : Bool) : bit (b ^^ c) = bit b + bit c := by
  cases b <;> cases c <;> simp [bit]
  exact (CharTwo.add_self_eq_zero 1).symm

theorem poly_append (front back : List Bool) :
    poly (front ++ back) = poly front * X ^ back.length + poly back := by
  induction front with
  | nil => simp [poly]
  | cons b rest ih =>
      rw [List.cons_append, poly, poly, ih, List.length_append, pow_add]
      ring

theorem poly_zipWith_xor {a b : List Bool} (h : a.length = b.length) :
    poly (List.zipWith xor a b) = poly a + poly b := by
  induction a generalizing b with
  | nil =>
      obtain rfl := List.eq_nil_of_length_eq_zero h.symm
      simp [poly]
  | cons x rest ih =>
      cases b with
      | nil => simp at h
      | cons y rest' =>
          have hlen : rest.length = rest'.length := Nat.succ.inj h
          have hzip : (List.zipWith xor rest rest').length = rest'.length := by
            rw [List.length_zipWith, hlen, Nat.min_self]
          rw [List.zipWith_cons_cons, poly, poly, poly, ih hlen, hzip, hlen, bit_xor, C_add]
          ring

theorem degree_poly_lt (bits : List Bool) : (poly bits).degree < bits.length := by
  induction bits with
  | nil =>
      rw [poly, degree_zero]
      exact WithBot.bot_lt_coe _
  | cons b rest ih =>
      have hsucc : (rest.length : WithBot ℕ) < (b :: rest).length := by
        exact_mod_cast Nat.lt_succ_self _
      refine (degree_add_le _ _).trans_lt (max_lt ?_ (ih.trans hsucc))
      exact (degree_C_mul_X_pow_le _ _).trans_lt hsucc

/-- Lists of the same length with the same polynomial are the same. -/
theorem poly_injective {a b : List Bool} (hlen : a.length = b.length) (h : poly a = poly b) :
    a = b := by
  induction a generalizing b with
  | nil => exact (List.eq_nil_of_length_eq_zero hlen.symm).symm
  | cons x rest ih =>
      cases b with
      | nil => simp at hlen
      | cons y rest' =>
          have hrest : rest.length = rest'.length := Nat.succ.inj hlen
          have hhigh : ∀ (c : Bool) (bits : List Bool),
              (poly (c :: bits)).coeff bits.length = bit c := by
            intro c bits
            rw [poly, coeff_add, coeff_C_mul_X_pow, if_pos rfl,
              coeff_eq_zero_of_degree_lt (degree_poly_lt bits), add_zero]
          have hbit : bit x = bit y := by
            rw [← hhigh x rest, ← hhigh y rest', h, hrest]
          obtain rfl := bit_injective hbit
          rw [poly, poly, hrest] at h
          rw [ih hrest (add_left_cancel h)]

/-- The number of ones, modulo two, is the value at one. -/
theorem eval_one_poly (bits : List Bool) : (poly bits).eval 1 = (bits.count true : ZMod 2) := by
  induction bits with
  | nil => simp [poly]
  | cons b rest ih =>
      rw [poly, eval_add, ih]
      cases b with
      | false => simp [bit]
      | true => simp [bit, add_comm]

/-! #### Lists with few ones -/

theorem poly_eq_zero {bits : List Bool} (h : bits.count true = 0) : poly bits = 0 := by
  induction bits with
  | nil => rfl
  | cons b rest ih =>
      cases b with
      | true => simp at h
      | false =>
          rw [List.count_cons_of_ne (by decide)] at h
          simp [poly, bit, ih h]

theorem poly_replicate_false (n : Nat) : poly (List.replicate n false) = 0 := by
  apply poly_eq_zero
  rw [List.count_replicate]
  rfl

theorem poly_eq_X_pow {bits : List Bool} (h : bits.count true = 1) :
    ∃ i, i < bits.length ∧ poly bits = X ^ i := by
  induction bits with
  | nil => simp at h
  | cons b rest ih =>
      cases b with
      | true =>
          rw [List.count_cons_self, Nat.add_eq_right] at h
          refine ⟨rest.length, Nat.lt_succ_self _, ?_⟩
          simp [poly, bit, poly_eq_zero h]
      | false =>
          rw [List.count_cons_of_ne (by decide)] at h
          obtain ⟨i, hi, hpoly⟩ := ih h
          refine ⟨i, Nat.lt_succ_of_lt hi, ?_⟩
          simp [poly, bit, hpoly]

/-- Two ones, `m` places apart. -/
theorem poly_eq_mul_X_pow_add_one {bits : List Bool} (h : bits.count true = 2) :
    ∃ i m, 0 < m ∧ m < bits.length ∧ poly bits = X ^ i * (X ^ m + 1) := by
  induction bits with
  | nil => simp at h
  | cons b rest ih =>
      cases b with
      | true =>
          rw [List.count_cons_self, Nat.succ_inj] at h
          obtain ⟨i, hi, hpoly⟩ := poly_eq_X_pow h
          have hpow : (X : (ZMod 2)[X]) ^ rest.length = X ^ i * X ^ (rest.length - i) := by
            rw [← pow_add, Nat.add_sub_cancel' hi.le]
          refine ⟨i, rest.length - i, Nat.sub_pos_of_lt hi, ?_, ?_⟩
          · exact Nat.lt_succ_of_le (Nat.sub_le _ _)
          · rw [poly, hpoly, hpow]
            simp [bit, mul_add]
      | false =>
          rw [List.count_cons_of_ne (by decide)] at h
          obtain ⟨i, m, hpos, hm, hpoly⟩ := ih h
          refine ⟨i, m, hpos, Nat.lt_succ_of_lt hm, ?_⟩
          simp [poly, bit, hpoly]

/-! ### Generators and their registers -/

/-- A generator `X ^ w + …` of degree `w`, by its coefficients below the highest. -/
structure Generator (w : Nat) where
  taps : List Bool
  length_taps : taps.length = w
  odd : taps.getLast? = some true

namespace Generator

variable {w : Nat} (g : Generator w)

noncomputable def toPoly : (ZMod 2)[X] := X ^ w + poly g.taps

/-- One bit is shifted out at the top, and subtracts the generator if it is one. -/
def step : List Bool → List Bool
  | [] => []
  | b :: rest => if b then List.zipWith xor (rest ++ [false]) g.taps else rest ++ [false]

/-- A word of `w` bits enters the register. -/
def word (reg d : List Bool) : List Bool := g.step^[w] (List.zipWith xor reg d)

def crc (init : List Bool) (words : List (List Bool)) : List Bool := words.foldl g.word init

theorem degree_taps_lt : (poly g.taps).degree < w := by
  have h := degree_poly_lt g.taps
  rwa [g.length_taps] at h

theorem monic : g.toPoly.Monic := monic_X_pow_add g.degree_taps_lt

theorem degree_toPoly : g.toPoly.degree = w := by
  unfold toPoly
  rw [degree_add_eq_left_of_degree_lt, degree_X_pow]
  rw [degree_X_pow]
  exact g.degree_taps_lt

/-- The constant term is one. -/
theorem isCoprime_X_pow (n : Nat) : IsCoprime g.toPoly (X ^ n) := by
  apply IsCoprime.pow_right
  obtain ⟨front, htaps⟩ := List.getLast?_eq_some_iff.mp g.odd
  have hlen : front.length + 1 = w := by
    rw [← g.length_taps, htaps, List.length_append, List.length_singleton]
  refine ⟨1, -(X ^ front.length + poly front), ?_⟩
  rw [toPoly, htaps, poly_append, ← hlen]
  simp only [poly, bit, if_pos, List.length_nil, List.length_singleton, C_1]
  ring

variable {g}

/-- What is short enough and divisible is zero. -/
theorem eq_zero_of_dvd {p : (ZMod 2)[X]} (hdeg : p.degree < w) (h : g.toPoly ∣ p) : p = 0 := by
  by_contra hne
  have hle := degree_le_of_dvd h hne
  rw [degree_toPoly] at hle
  exact absurd hdeg (not_lt.mpr hle)

theorem length_step {reg : List Bool} (h : reg.length = w) : (g.step reg).length = w := by
  cases reg with
  | nil => exact h
  | cons b rest =>
      have hrest : (rest ++ [false]).length = w := by
        rw [List.length_append, List.length_singleton]
        exact h
      cases b with
      | false => exact hrest
      | true =>
          show (List.zipWith xor (rest ++ [false]) g.taps).length = w
          rw [List.length_zipWith, hrest, g.length_taps, Nat.min_self]

/-- **One step** multiplies by `X`, modulo the generator. -/
theorem dvd_step {reg : List Bool} (h : reg.length = w) :
    g.toPoly ∣ poly (g.step reg) - X * poly reg := by
  cases reg with
  | nil => simp [step, poly]
  | cons b rest =>
      have hshift : poly (rest ++ [false]) = X * poly rest := by
        rw [poly_append]
        simp [poly, bit, mul_comm]
      cases b with
      | false =>
          show g.toPoly ∣ poly (rest ++ [false]) - X * poly (false :: rest)
          rw [hshift, poly]
          simp [bit]
      | true =>
          -- The bit that leaves stands for `X ^ w`, which is the taps modulo the generator.
          have hw : rest.length + 1 = w := h
          have hlen : (rest ++ [false]).length = g.taps.length := by
            rw [List.length_append, List.length_singleton, g.length_taps, hw]
          have hpow : (X : (ZMod 2)[X]) ^ w = X * X ^ rest.length := by
            rw [← hw, pow_succ']
          have htwice : (X : (ZMod 2)[X]) ^ w + X ^ w = 0 := CharTwo.add_self_eq_zero _
          refine ⟨1, ?_⟩
          show poly (List.zipWith xor (rest ++ [false]) g.taps) - X * poly (true :: rest) = _
          rw [poly_zipWith_xor hlen, hshift, poly, toPoly]
          simp only [bit, if_pos, C_1]
          linear_combination hpow - htwice

theorem iterate_step {reg : List Bool} (h : reg.length = w) (k : Nat) :
    (g.step^[k] reg).length = w ∧ g.toPoly ∣ poly (g.step^[k] reg) - X ^ k * poly reg := by
  induction k with
  | zero =>
      refine ⟨h, ?_⟩
      simp
  | succ k ih =>
      obtain ⟨hlen, hdvd⟩ := ih
      rw [Function.iterate_succ_apply']
      refine ⟨length_step hlen, ?_⟩
      have hsum := dvd_add (dvd_step hlen) (hdvd.mul_left X)
      rwa [mul_sub, sub_add_sub_cancel, ← mul_assoc, ← pow_succ'] at hsum

theorem dvd_word {reg d : List Bool} (h : reg.length = w) (hd : d.length = w) :
    (g.word reg d).length = w ∧
      g.toPoly ∣ poly (g.word reg d) - X ^ w * (poly reg + poly d) := by
  have hlen : (List.zipWith xor reg d).length = w := by
    rw [List.length_zipWith, h, hd, Nat.min_self]
  have hword := iterate_step (g := g) hlen w
  rwa [poly_zipWith_xor (h.trans hd.symm)] at hword

/-- **The register holds the remainder** of start value and message. -/
theorem dvd_crc {init : List Bool} {words : List (List Bool)} (h : init.length = w)
    (hw : ∀ d ∈ words, d.length = w) :
    (g.crc init words).length = w ∧
      g.toPoly ∣ poly (g.crc init words)
        - (poly init * X ^ (w * words.length) + poly words.flatten * X ^ w) := by
  induction words generalizing init with
  | nil =>
      refine ⟨h, ?_⟩
      simp [crc, poly]
  | cons d rest ih =>
      obtain ⟨hlen, hdvd⟩ := dvd_word (g := g) h (hw d (by simp))
      obtain ⟨hlen', hdvd'⟩ := ih hlen fun e he => hw e (by simp [he])
      have hrest : rest.flatten.length = w * rest.length := by
        rw [List.length_flatten, List.map_congr_left fun e he => hw e (by simp [he]),
          List.map_const', List.sum_replicate, smul_eq_mul, mul_comm]
      refine ⟨hlen', ?_⟩
      have hsum := dvd_add hdvd' (hdvd.mul_left (X ^ (w * rest.length)))
      have hgoal : poly (g.crc init (d :: rest))
            - (poly init * X ^ (w * (d :: rest).length) + poly (d :: rest).flatten * X ^ w)
          = poly (g.crc (g.word init d) rest)
            - (poly (g.word init d) * X ^ (w * rest.length) + poly rest.flatten * X ^ w)
            + X ^ (w * rest.length) * (poly (g.word init d) - X ^ w * (poly init + poly d)) := by
        show poly (g.crc (g.word init d) rest) - _ = _
        rw [List.flatten_cons, poly_append, hrest, List.length_cons, mul_add, mul_one, pow_add]
        ring
      rw [hgoal]
      exact hsum

theorem eq_of_dvd_sub {a b : List Bool} (ha : a.length = w) (hb : b.length = w)
    (h : g.toPoly ∣ poly a - poly b) : a = b := by
  apply poly_injective (ha.trans hb.symm)
  have hdeg : (poly a - poly b).degree < w := by
    refine (degree_sub_le _ _).trans_lt (max_lt ?_ ?_)
    · exact ha ▸ degree_poly_lt a
    · exact hb ▸ degree_poly_lt b
  exact sub_eq_zero.mp (eq_zero_of_dvd hdeg h)

section Message

variable {init x : List Bool} {words : List (List Bool)}

theorem poly_crc (h : init.length = w) (hw : ∀ d ∈ words, d.length = w) :
    poly (g.crc init words)
      = (poly init * X ^ (w * words.length) + poly words.flatten * X ^ w) %ₘ g.toPoly := by
  obtain ⟨hlen, hdvd⟩ := dvd_crc (g := g) h hw
  have hdeg : (poly (g.crc init words)).degree < g.toPoly.degree := by
    have hlt := degree_poly_lt (g.crc init words)
    rwa [hlen, ← degree_toPoly g] at hlt
  rw [← (modByMonic_eq_self_iff g.monic).mpr hdeg]
  exact modByMonic_eq_of_dvd_sub g.monic hdvd

/-- **A message passes** when the generator divides it, check word and start value included. -/
theorem crc_eq_iff (h : init.length = w) (hw : ∀ d ∈ words, d.length = w) (hx : x.length = w) :
    g.crc init words = x ↔
      g.toPoly ∣ poly init * X ^ (w * words.length) + poly (words.flatten ++ x) := by
  obtain ⟨hlen, hdvd⟩ := dvd_crc (g := g) h hw
  have htwice : poly x + poly x = 0 := CharTwo.add_self_eq_zero _
  have hsplit : poly init * X ^ (w * words.length) + poly (words.flatten ++ x)
      = poly (g.crc init words) - poly x - (poly (g.crc init words)
        - (poly init * X ^ (w * words.length) + poly words.flatten * X ^ w)) := by
    rw [poly_append, hx]
    linear_combination htwice
  rw [hsplit, dvd_sub_left hdvd]
  constructor
  · rintro rfl
    simp
  · exact eq_of_dvd_sub hlen hx

/-- With its check word behind it, a message leaves zero. -/
theorem crc_concat_eq_zero_iff (h : init.length = w) (hw : ∀ d ∈ words, d.length = w)
    (hx : x.length = w) :
    g.crc init (words ++ [x]) = List.replicate w false ↔ g.crc init words = x := by
  have hlen := (dvd_crc (g := g) h hw).1
  obtain ⟨hlen', hdvd⟩ := dvd_word (g := g) hlen hx
  have hzero := poly_replicate_false w
  have hlast : g.crc init (words ++ [x]) = g.word (g.crc init words) x := List.foldl_concat ..
  rw [hlast]
  constructor
  · intro heq
    have hprod : g.toPoly ∣ X ^ w * (poly (g.crc init words) + poly x) := by
      rw [heq, hzero, zero_sub, dvd_neg] at hdvd
      exact hdvd
    have hdiff := (g.isCoprime_X_pow w).dvd_of_dvd_mul_left hprod
    rw [← CharTwo.sub_eq_add] at hdiff
    exact eq_of_dvd_sub hlen hx hdiff
  · intro heq
    apply eq_of_dvd_sub hlen' (List.length_replicate ..)
    rw [heq, CharTwo.add_self_eq_zero, mul_zero, sub_zero] at hdvd
    rw [hzero, sub_zero, heq]
    exact hdvd

/-- **Undetected errors** are multiples of the generator. -/
theorem dvd_error {words' : List (List Bool)} {x' : List Bool} (h : init.length = w)
    (hw : ∀ d ∈ words, d.length = w) (hw' : ∀ d ∈ words', d.length = w) (hx : x.length = w)
    (hx' : x'.length = w) (hlen : words'.length = words.length)
    (hpass : g.crc init words = x) (hpass' : g.crc init words' = x') :
    g.toPoly ∣ poly (words.flatten ++ x) + poly (words'.flatten ++ x') := by
  have hsum := dvd_sub ((crc_eq_iff h hw hx).mp hpass) ((crc_eq_iff h hw' hx').mp hpass')
  rw [hlen, add_sub_add_left_eq_sub, CharTwo.sub_eq_add] at hsum
  exact hsum

end Message

/-! ### What is detected -/

/-- **Bursts** up to the degree of the generator. -/
theorem not_dvd_of_burst {a b : List Bool} (h : Burst w a b) :
    ¬ g.toPoly ∣ poly a + poly b := by
  obtain ⟨front, s, t, back, rfl, rfl, hlen, hw, hne⟩ := h
  intro hdvd
  have hsum : poly (front ++ s ++ back) + poly (front ++ t ++ back)
      = X ^ back.length * (poly s - poly t) := by
    have hfront := CharTwo.add_self_eq_zero (poly front * X ^ t.length * X ^ back.length)
    have hback := CharTwo.add_self_eq_zero (poly back)
    have ht := CharTwo.add_self_eq_zero (poly t * X ^ back.length)
    simp only [poly_append, hlen]
    linear_combination hfront + hback + ht
  rw [hsum] at hdvd
  have hdiff := (g.isCoprime_X_pow back.length).dvd_of_dvd_mul_left hdvd
  have hdeg : (poly s - poly t).degree < w := by
    have hle : (s.length : WithBot ℕ) ≤ w := by exact_mod_cast hw
    refine (degree_sub_le _ _).trans_lt (max_lt ?_ ?_)
    · exact (degree_poly_lt s).trans_le hle
    · exact (degree_poly_lt t).trans_le (hlen ▸ hle)
  exact hne (poly_injective hlen (sub_eq_zero.mp (eq_zero_of_dvd hdeg hdiff)))

/-- Two ones `m` places apart are divided if `m` steps take the register from one to one. -/
theorem step_iterate_one {m : Nat} (h : g.toPoly ∣ X ^ m + 1) : g.step^[m] (one w) = one w := by
  have hw : 0 < w := by
    rw [← g.length_taps]
    apply List.length_pos_of_ne_nil
    intro hnil
    have hodd := g.odd
    rw [hnil] at hodd
    exact absurd hodd (by simp)
  have hlen : (one w).length = w := by
    simp [one]
    omega
  have hone : poly (one w) = 1 := by
    rw [one, poly_append, poly_replicate_false]
    simp [poly, bit]
  obtain ⟨hlen', hdvd⟩ := iterate_step (g := g) hlen m
  apply eq_of_dvd_sub hlen' hlen
  have hsum := dvd_add hdvd h
  rw [hone] at hsum ⊢
  rwa [mul_one, add_comm (X ^ m), sub_add_add_cancel, ← CharTwo.sub_eq_add] at hsum

/-- An odd number of wrong bits, if the generator has an even number of terms. -/
theorem not_dvd_of_odd (heven : g.taps.count true % 2 = 1) {e : List Bool}
    (hodd : e.count true % 2 = 1) : ¬ g.toPoly ∣ poly e := by
  intro hdvd
  have hone : ∀ n : Nat, n % 2 = 1 → (n : ZMod 2) = 1 := by
    intro n hn
    rw [← ZMod.natCast_mod, hn, Nat.cast_one]
  have hroot : g.toPoly.eval 1 = 0 := by
    rw [toPoly, eval_add, eval_one_poly, hone _ heven, eval_pow, eval_X, one_pow]
    exact CharTwo.add_self_eq_zero 1
  have heval := eval_dvd (x := 1) hdvd
  rw [hroot, eval_one_poly, hone _ hodd] at heval
  exact one_ne_zero (zero_dvd_iff.mp heval)

/-- **One, two or three wrong bits**, in a list shorter than the register's way back to one. -/
theorem not_dvd_of_count (heven : g.taps.count true % 2 = 1) {e : List Bool}
    (hspan : ∀ m, 0 < m → m < e.length → g.step^[m] (one w) ≠ one w)
    (hpos : 0 < e.count true) (hle : e.count true ≤ 3) : ¬ g.toPoly ∣ poly e := by
  by_cases htwo : e.count true = 2
  · intro hdvd
    obtain ⟨i, m, hm, hlt, hpoly⟩ := poly_eq_mul_X_pow_add_one htwo
    rw [hpoly] at hdvd
    have hpair := (g.isCoprime_X_pow i).dvd_of_dvd_mul_left hdvd
    exact hspan m hm hlt (step_iterate_one hpair)
  · exact not_dvd_of_odd heven (by omega)

end Generator

end Crc
