/-
Rounding to a binary floating-point format, exactly.

A format has a precision and a greatest exponent.  A magnitude is a rational, and rounding
it is choosing the multiple of a power of two next to it, ties going to the even multiple;
which power is decided by the size of the magnitude, down to the one of the subnormal
numbers.  The rounded magnitude may be too large for the format; that is for its user to
say (an infinity, usually).

Nothing here is approximate, so where a rounding goes over a bound is an equivalence:
`le_round_iff`.
-/
import Mathlib.Data.Int.Log
import Mathlib.Data.Rat.Floor
import Mathlib.Algebra.Order.Archimedean.Basic
import Mathlib.Tactic.Linarith
import Mathlib.Tactic.Ring
import Mathlib.Tactic.FieldSimp

namespace Rounding

/-! ### To an integer -/

/-- The integer nearest to `x`, the even one of two. -/
def roundHalfEven (x : ℚ) : ℤ :=
  if x - ⌊x⌋ < 1 / 2 then ⌊x⌋
  else if 1 / 2 < x - ⌊x⌋ then ⌊x⌋ + 1
  else if Even ⌊x⌋ then ⌊x⌋ else ⌊x⌋ + 1

/-- **Which integers the rounding reaches**: it is at least `n` from half below `n` on, the
half itself included when `n` is even. -/
theorem le_roundHalfEven_iff {n : ℤ} {x : ℚ} :
    n ≤ roundHalfEven x ↔ (n : ℚ) - 1 / 2 < x ∨ (n : ℚ) - 1 / 2 = x ∧ Even n := by
  have hle : (⌊x⌋ : ℚ) ≤ x := Int.floor_le x
  have hlt : x < ⌊x⌋ + 1 := Int.lt_floor_add_one x
  rcases lt_trichotomy n (⌊x⌋ + 1) with hn | rfl | hn
  · have hcast : (n : ℚ) ≤ ⌊x⌋ := by exact_mod_cast Int.lt_add_one_iff.mp hn
    have hround : ⌊x⌋ ≤ roundHalfEven x := by
      unfold roundHalfEven
      split_ifs <;> omega
    constructor
    · intro _
      exact Or.inl (by linarith)
    · intro _
      omega
  · have heven : Even (⌊x⌋ + 1) ↔ ¬ Even ⌊x⌋ := Int.even_add_one
    unfold roundHalfEven
    push_cast
    split_ifs with hlow hhigh hpar
    · constructor
      · intro h
        omega
      · rintro (h | ⟨h, -⟩) <;> exfalso <;> linarith
    · constructor
      · intro _
        exact Or.inl (by linarith)
      · intro _
        exact le_refl _
    · constructor
      · intro h
        omega
      · rintro (h | ⟨-, h⟩)
        · exfalso
          linarith
        · exact absurd hpar (heven.mp h)
    · constructor
      · intro _
        exact Or.inr ⟨by linarith, heven.mpr hpar⟩
      · intro _
        exact le_refl _
  · have hcast : (⌊x⌋ : ℚ) + 2 ≤ n := by exact_mod_cast (by omega : ⌊x⌋ + 2 ≤ n)
    have hround : roundHalfEven x ≤ ⌊x⌋ + 1 := by
      unfold roundHalfEven
      split_ifs <;> omega
    constructor
    · intro h
      omega
    · rintro (h | ⟨h, -⟩) <;> exfalso <;> linarith

theorem le_roundHalfEven {n : ℤ} {x : ℚ} (h : (n : ℚ) ≤ x) : n ≤ roundHalfEven x :=
  le_roundHalfEven_iff.mpr (Or.inl (by linarith))

theorem roundHalfEven_le {n : ℤ} {x : ℚ} (h : x ≤ n) : roundHalfEven x ≤ n := by
  by_contra hlt
  rcases le_roundHalfEven_iff.mp (Int.add_one_le_iff.mpr (not_le.mp hlt)) with hx | ⟨hx, -⟩
  · push_cast at hx
    linarith
  · push_cast at hx
    linarith

@[simp] theorem roundHalfEven_intCast (n : ℤ) : roundHalfEven (n : ℚ) = n :=
  le_antisymm (roundHalfEven_le (le_refl _)) (le_roundHalfEven (le_refl _))

/-! ### To a format -/

/-- Significands have `prec` bits, and the largest numbers are just below `2 ^ (emax + 1)`. -/
structure Format where
  prec : ℕ
  emax : ℕ
  prec_pos : 0 < prec

namespace Format

variable (F : Format)

/-- The exponent of the least subnormal number. -/
def minExp : ℤ := 2 - F.emax - F.prec

/-- The exponent of a unit in the last place for magnitudes like `q`. -/
def exponent (q : ℚ) : ℤ := max (Int.log 2 q + 1 - F.prec) F.minExp

/-- To the nearest multiple of that unit. -/
def round (q : ℚ) : ℚ := roundHalfEven (q / 2 ^ F.exponent q) * 2 ^ F.exponent q

/-- A significand of `prec` bits at an exponent the format has. -/
def Representable (q : ℚ) : Prop :=
  ∃ (m : ℕ) (e : ℤ), m < 2 ^ F.prec ∧ F.minExp ≤ e ∧ q = m * 2 ^ e

variable {F}

theorem minExp_le_exponent (q : ℚ) : F.minExp ≤ F.exponent q := le_max_right _ _

theorem two_zpow_pos (e : ℤ) : (0 : ℚ) < 2 ^ e := zpow_pos (by norm_num) e

/-- A multiple of a larger power of two is one of a smaller. -/
theorem exists_int_mul_zpow {e e' : ℤ} (h : e ≤ e') (n : ℤ) :
    ∃ k : ℤ, (n : ℚ) * 2 ^ e' = k * 2 ^ e := by
  refine ⟨n * 2 ^ (e' - e).toNat, ?_⟩
  have hsplit : (2 : ℚ) ^ e' = 2 ^ (e' - e).toNat * 2 ^ e := by
    rw [← zpow_natCast, ← zpow_add₀ (by norm_num), Int.toNat_of_nonneg (by omega)]
    congr 1
    omega
  rw [hsplit]
  push_cast
  ring

/-- Multiples of the unit are the bounds that rounding respects. -/
theorem le_round_of_grid {q : ℚ} {n e : ℤ} (he : F.exponent q ≤ e) (h : (n : ℚ) * 2 ^ e ≤ q) :
    (n : ℚ) * 2 ^ e ≤ F.round q := by
  obtain ⟨k, hk⟩ := exists_int_mul_zpow he n
  rw [hk] at h ⊢
  have hle : k ≤ roundHalfEven (q / 2 ^ F.exponent q) :=
    le_roundHalfEven ((le_div_iff₀ (two_zpow_pos _)).mpr h)
  exact mul_le_mul_of_nonneg_right (by exact_mod_cast hle) (two_zpow_pos _).le

theorem round_le_of_grid {q : ℚ} {n e : ℤ} (he : F.exponent q ≤ e) (h : q ≤ (n : ℚ) * 2 ^ e) :
    F.round q ≤ (n : ℚ) * 2 ^ e := by
  obtain ⟨k, hk⟩ := exists_int_mul_zpow he n
  rw [hk] at h ⊢
  have hle : roundHalfEven (q / 2 ^ F.exponent q) ≤ k :=
    roundHalfEven_le ((div_le_iff₀ (two_zpow_pos _)).mpr h)
  exact mul_le_mul_of_nonneg_right (by exact_mod_cast hle) (two_zpow_pos _).le

theorem round_nonneg {q : ℚ} (h : 0 ≤ q) : 0 ≤ F.round q := by
  have hgrid := le_round_of_grid (F := F) (q := q) (n := 0) (le_refl (F.exponent q)) (by simpa)
  simpa using hgrid

theorem exponent_le_of_lt {q : ℚ} {e : ℤ} (hq : 0 < q) (he : F.minExp ≤ e)
    (h : q < 2 ^ (F.prec + e)) : F.exponent q ≤ e := by
  have hlog : Int.log 2 q < F.prec + e :=
    (Int.lt_zpow_iff_log_lt (by norm_num) hq).mp (by exact_mod_cast h)
  exact max_le (by omega) he

/-- What the format can hold, rounding leaves alone. -/
theorem round_of_representable {q : ℚ} (h : F.Representable q) : F.round q = q := by
  obtain ⟨m, e, hm, he, rfl⟩ := h
  rcases Nat.eq_zero_or_pos m with rfl | hpos
  · unfold round
    rw [Nat.cast_zero, zero_mul, zero_div, ← Int.cast_zero, roundHalfEven_intCast]
    simp
  · have hexp : F.exponent (m * 2 ^ e) ≤ e := by
      apply exponent_le_of_lt (mul_pos (by exact_mod_cast hpos) (two_zpow_pos e)) he
      rw [zpow_add₀ (by norm_num), zpow_natCast]
      exact mul_lt_mul_of_pos_right (by exact_mod_cast hm) (two_zpow_pos e)
    have hle := le_round_of_grid (n := m) hexp (le_of_eq (by push_cast; rfl))
    have hge := round_le_of_grid (n := m) hexp (le_of_eq (by push_cast; rfl))
    push_cast at hle hge
    exact le_antisymm hge hle

/-- What rounding returns, the format can hold, size apart. -/
theorem round_representable {q : ℚ} (h : 0 ≤ q) : F.Representable (F.round q) := by
  have hnonneg : 0 ≤ roundHalfEven (q / 2 ^ F.exponent q) :=
    le_roundHalfEven (by
      rw [Int.cast_zero]
      exact div_nonneg h (two_zpow_pos _).le)
  obtain ⟨m, hm⟩ := Int.eq_ofNat_of_zero_le hnonneg
  have hround : F.round q = m * 2 ^ F.exponent q := by
    unfold round
    rw [hm]
    rfl
  -- The significand is at most `2 ^ prec`.
  have hle : m ≤ 2 ^ F.prec := by
    have hint : roundHalfEven (q / 2 ^ F.exponent q) ≤ (2 ^ F.prec : ℕ) := by
      apply roundHalfEven_le
      rw [div_le_iff₀ (two_zpow_pos _)]
      rcases h.eq_or_lt with rfl | hpos
      · exact (mul_pos (by exact_mod_cast Nat.two_pow_pos _) (two_zpow_pos _)).le
      · have hlt := Int.lt_zpow_succ_log_self (b := 2) (by norm_num) q
        have hexp : Int.log 2 q + 1 ≤ F.prec + F.exponent q := by
          have := le_max_left (Int.log 2 q + 1 - F.prec) F.minExp
          unfold exponent
          omega
        have hmono : (2 : ℚ) ^ (Int.log 2 q + 1) ≤ 2 ^ ((F.prec : ℤ) + F.exponent q) :=
          zpow_le_zpow_right₀ (by norm_num) hexp
        rw [zpow_add₀ (by norm_num) (F.prec : ℤ), zpow_natCast] at hmono
        push_cast at hlt ⊢
        exact hlt.le.trans hmono
    omega
  rcases hle.lt_or_eq with hlt | heq
  · exact ⟨m, F.exponent q, hlt, minExp_le_exponent q, hround⟩
  · -- A carry out of the top bit.
    refine ⟨2 ^ (F.prec - 1), F.exponent q + 1, ?_, ?_, ?_⟩
    · have := F.prec_pos
      exact Nat.pow_lt_pow_right (by norm_num) (by omega)
    · have := minExp_le_exponent (F := F) q
      omega
    · have hpow : 2 ^ F.prec = 2 ^ (F.prec - 1) * 2 := by
        rw [← pow_succ, Nat.sub_add_cancel F.prec_pos]
      rw [hround, heq, hpow, zpow_add_one₀ (by norm_num)]
      push_cast
      ring

/-- In the binade from `2 ^ k` the unit is that of `k`. -/
theorem exponent_of_binade {k : ℤ} {q : ℚ} (hk : F.minExp + F.prec ≤ k + 1) (hlow : 2 ^ k ≤ q)
    (hhigh : q < 2 ^ (k + 1)) : F.exponent q = k + 1 - F.prec := by
  have hq : 0 < q := (two_zpow_pos k).trans_le hlow
  have hle : k ≤ Int.log 2 q :=
    (Int.zpow_le_iff_le_log (by norm_num) hq).mp (by exact_mod_cast hlow)
  have hlt : Int.log 2 q < k + 1 :=
    (Int.lt_zpow_iff_log_lt (by norm_num) hq).mp (by exact_mod_cast hhigh)
  unfold exponent
  omega

theorem round_zero : F.round 0 = 0 :=
  round_of_representable ⟨0, F.minExp, Nat.two_pow_pos _, le_refl _, by simp⟩

/-- Below a power of two above the subnormal range, rounding stays below it. -/
theorem round_le_zpow {k : ℤ} {q : ℚ} (hq : 0 ≤ q) (hk : F.minExp + F.prec ≤ k + 1)
    (h : q ≤ 2 ^ k) : F.round q ≤ 2 ^ k := by
  rcases hq.eq_or_lt with rfl | hpos
  · rw [round_zero]
    exact h
  · have hprec := F.prec_pos
    have hgrid : F.round q ≤ ((1 : ℤ) : ℚ) * 2 ^ k := by
      apply round_le_of_grid (exponent_le_of_lt hpos (by omega) ?_)
      · simpa using h
      · exact h.trans_lt (zpow_lt_zpow_right₀ (by norm_num) (by omega))
    simpa using hgrid

/-- From a power of two on, rounding stays above it. -/
theorem zpow_le_round {k : ℤ} {q : ℚ} (hk : F.minExp + F.prec ≤ k + 1) (h : 2 ^ k ≤ q) :
    2 ^ k ≤ F.round q := by
  have hprec := F.prec_pos
  have hq : 0 < q := (two_zpow_pos k).trans_le h
  have hle : k ≤ Int.log 2 q := (Int.zpow_le_iff_le_log (by norm_num) hq).mp (by exact_mod_cast h)
  have hexp : F.exponent q ≤ Int.log 2 q := by
    unfold exponent
    omega
  have hlog : (2 : ℚ) ^ Int.log 2 q ≤ q := by
    exact_mod_cast Int.zpow_log_le_self (b := 2) (by norm_num) hq
  have hgrid : ((1 : ℤ) : ℚ) * 2 ^ Int.log 2 q ≤ F.round q :=
    le_round_of_grid hexp (by simpa using hlog)
  rw [Int.cast_one, one_mul] at hgrid
  exact (zpow_le_zpow_right₀ (by norm_num) hle).trans hgrid

/-- **Where rounding goes over a bound.**  Let the bound be an even multiple of the unit of
its binade.  A magnitude rounds to the bound or above exactly from half a unit below it. -/
theorem le_round_iff {k n : ℤ} {q : ℚ} (hq : 0 ≤ q) (hk : F.minExp + F.prec ≤ k + 1)
    (heven : Even n) (hlow : (2 : ℚ) ^ k < n * 2 ^ (k + 1 - F.prec))
    (hhigh : (n : ℚ) * 2 ^ (k + 1 - F.prec) ≤ 2 ^ (k + 1)) :
    (n : ℚ) * 2 ^ (k + 1 - F.prec) ≤ F.round q ↔
      (n - 1 / 2 : ℚ) * 2 ^ (k + 1 - F.prec) ≤ q := by
  set e := k + 1 - (F.prec : ℤ) with he
  have hpos : (0 : ℚ) < 2 ^ e := two_zpow_pos e
  -- Within the binade it is a question about integers.
  have hbinade : 2 ^ k ≤ q → q < 2 ^ (k + 1) →
      ((n : ℚ) * 2 ^ e ≤ F.round q ↔ (n - 1 / 2 : ℚ) * 2 ^ e ≤ q) := by
    intro hge hlt
    have hexp : F.exponent q = e := exponent_of_binade hk hge hlt
    unfold round
    rw [hexp, mul_le_mul_iff_left₀ hpos, Int.cast_le, le_roundHalfEven_iff, ← le_div_iff₀ hpos,
      le_iff_lt_or_eq]
    constructor
    · rintro (h | ⟨h, -⟩)
      · exact Or.inl h
      · exact Or.inr h
    · rintro (h | h)
      · exact Or.inl h
      · exact Or.inr ⟨h, heven⟩
  have hunit : (2 : ℚ) ^ k = ((2 ^ (F.prec - 1) : ℤ) : ℚ) * 2 ^ e := by
    have hprec := F.prec_pos
    push_cast
    rw [← zpow_natCast, ← zpow_add₀ (by norm_num)]
    congr 1
    omega
  by_cases hbelow : q < 2 ^ k
  · have hround : F.round q ≤ 2 ^ k := round_le_zpow hq hk hbelow.le
    constructor
    · intro h
      exact absurd (h.trans hround) (not_le.mpr hlow)
    · intro h
      exfalso
      rw [hunit] at hlow hbelow
      have hn : (2 ^ (F.prec - 1) : ℤ) + 1 ≤ n := by
        exact_mod_cast lt_of_mul_lt_mul_right hlow hpos.le
      have hnq : (((2 ^ (F.prec - 1) : ℤ) : ℚ) + 1) ≤ n := by exact_mod_cast hn
      have hlt := lt_of_mul_lt_mul_right (h.trans_lt hbelow) hpos.le
      linarith
  · rw [not_lt] at hbelow
    by_cases habove : q < 2 ^ (k + 1)
    · exact hbinade hbelow habove
    · rw [not_lt] at habove
      have hround : (2 : ℚ) ^ (k + 1) ≤ F.round q := zpow_le_round (by omega) habove
      have hhalf : (n - 1 / 2 : ℚ) * 2 ^ e ≤ n * 2 ^ e :=
        mul_le_mul_of_nonneg_right (by linarith) hpos.le
      constructor
      · intro _
        exact hhalf.trans (hhigh.trans habove)
      · intro _
        exact hhigh.trans hround

end Format

end Rounding
