/-
Binary floating-point numbers: what they are, and the operations a program uses on them.

A number that is neither a NaN nor an infinity is a sign and a magnitude its format can
hold, and holding it is part of the type.  An operation on two of them is the exact
operation on their values, rounded; what is too large becomes an infinity.  NaNs are not
told apart and compare with nothing.
-/
import Shirokumakun.Lib.Rounding

namespace Binary

open Rounding

/-- A magnitude that `F` can hold. -/
structure Magnitude (F : Format) where
  val : ℚ
  nonneg : 0 ≤ val
  representable : F.Representable val
  lt_bound : val < 2 ^ (F.emax + 1)

inductive Value (F : Format)
  | nan
  | inf (neg : Bool)
  | finite (neg : Bool) (mag : Magnitude F)

def signed (neg : Bool) (q : ℚ) : ℚ := if neg then -q else q

namespace Value

variable {F : Format}

/-! ### Values from exact ones -/

/-- The value nearest to a magnitude with a sign. -/
def ofRat (F : Format) (neg : Bool) (q : ℚ) (hq : 0 ≤ q) : Value F :=
  if h : F.round q < 2 ^ (F.emax + 1) then
    finite neg ⟨F.round q, Format.round_nonneg hq, Format.round_representable hq, h⟩
  else inf neg

/-- To another format. -/
def convert (G : Format) : Value F → Value G
  | nan => nan
  | inf neg => inf neg
  | finite neg x => ofRat G neg x.val x.nonneg

theorem ofRat_of_lt {neg : Bool} {q : ℚ} (hq : 0 ≤ q) (h : F.round q < 2 ^ (F.emax + 1)) :
    ofRat F neg q hq
      = finite neg ⟨F.round q, Format.round_nonneg hq, Format.round_representable hq, h⟩ :=
  dif_pos h

theorem ofRat_of_le {neg : Bool} {q : ℚ} (hq : 0 ≤ q) (h : 2 ^ (F.emax + 1) ≤ F.round q) :
    ofRat F neg q hq = inf neg :=
  dif_neg (not_lt.mpr h)

/-- What the format can hold is not rounded. -/
theorem ofRat_val (neg : Bool) (x : Magnitude F) : ofRat F neg x.val x.nonneg = finite neg x := by
  have hround : F.round x.val = x.val := Format.round_of_representable x.representable
  have hlt : F.round x.val < 2 ^ (F.emax + 1) := hround.symm ▸ x.lt_bound
  rw [ofRat_of_lt x.nonneg hlt]
  congr 1
  cases x
  simp only [hround]

/-- **Overflow.**  Rounding to an infinity begins half a unit above the largest number. -/
theorem bound_le_round_iff {q : ℚ} (hq : 0 ≤ q) (hF : F.minExp + F.prec ≤ F.emax + 1)
    (hprec : 1 < F.prec) :
    2 ^ (F.emax + 1) ≤ F.round q ↔
      (2 ^ F.prec - 1 / 2 : ℚ) * 2 ^ ((F.emax : ℤ) + 1 - F.prec) ≤ q := by
  have hbound : (2 : ℚ) ^ (F.emax + 1)
      = ((2 ^ F.prec : ℤ) : ℚ) * 2 ^ ((F.emax : ℤ) + 1 - F.prec) := by
    push_cast
    rw [← zpow_natCast, ← zpow_natCast, ← zpow_add₀ (by norm_num)]
    congr 1
    push_cast
    ring
  have hcast : (2 : ℚ) ^ (F.emax + 1) = 2 ^ ((F.emax : ℤ) + 1) := by
    rw [← zpow_natCast]
    push_cast
    rfl
  have heven : Even (2 ^ F.prec : ℤ) := (Int.even_pow.mpr ⟨even_two, by omega⟩)
  rw [hbound, Format.le_round_iff hq hF heven ?_ ?_]
  · push_cast
    rfl
  · rw [← hbound, hcast]
    exact zpow_lt_zpow_right₀ (by norm_num) (by omega)
  · rw [← hbound, hcast]

/-! ### Arithmetic -/

def mul : Value F → Value F → Value F
  | nan, _ => nan
  | _, nan => nan
  | inf a, inf b => inf (xor a b)
  | inf a, finite b y => if y.val = 0 then nan else inf (xor a b)
  | finite a x, inf b => if x.val = 0 then nan else inf (xor a b)
  | finite a x, finite b y => ofRat F (xor a b) (x.val * y.val) (mul_nonneg x.nonneg y.nonneg)

/-- A sum that is exactly zero is negative only if both terms are. -/
def add : Value F → Value F → Value F
  | nan, _ => nan
  | _, nan => nan
  | inf a, inf b => if a = b then inf a else nan
  | inf a, finite _ _ => inf a
  | finite _ _, inf b => inf b
  | finite a x, finite b y =>
      let s := signed a x.val + signed b y.val
      ofRat F (if s = 0 then a && b else decide (s < 0)) |s| (abs_nonneg s)

def div : Value F → Value F → Value F
  | nan, _ => nan
  | _, nan => nan
  | inf _, inf _ => nan
  | inf a, finite b _ => inf (xor a b)
  | finite a _, inf b => ofRat F (xor a b) 0 (le_refl 0)
  | finite a x, finite b y =>
      if y.val = 0 then (if x.val = 0 then nan else inf (xor a b))
      else ofRat F (xor a b) (x.val / y.val) (div_nonneg x.nonneg y.nonneg)

/-! ### Comparison -/

def lt : Value F → Value F → Bool
  | nan, _ => false
  | _, nan => false
  | inf a, inf b => a && !b
  | inf a, finite _ _ => a
  | finite _ _, inf b => !b
  | finite a x, finite b y => decide (signed a x.val < signed b y.val)

def le : Value F → Value F → Bool
  | nan, _ => false
  | _, nan => false
  | inf a, inf b => a || !b
  | inf a, finite _ _ => a
  | finite _ _, inf b => !b
  | finite a x, finite b y => decide (signed a x.val ≤ signed b y.val)

@[simp] theorem nan_lt (b : Value F) : lt nan b = false := by
  cases b <;> rfl

@[simp] theorem inf_lt (b : Value F) : lt (inf false) b = false := by
  cases b <;> rfl

@[simp] theorem mul_nan (a : Value F) : mul a nan = nan := by
  cases a <;> rfl

/-! ### Exact values -/

def zero (F : Format) : Magnitude F where
  val := 0
  nonneg := le_refl 0
  representable := ⟨0, F.minExp, Nat.two_pow_pos _, le_refl _, by simp⟩
  lt_bound := by positivity

/-- An integer below `2 ^ prec`, in a format that is wide enough on both sides. -/
def exactNat (F : Format) (hlow : F.minExp ≤ 0) (hhigh : F.prec ≤ F.emax + 1) (n : ℕ)
    (hn : n < 2 ^ F.prec) : Magnitude F where
  val := n
  nonneg := n.cast_nonneg
  representable := ⟨n, 0, hn, hlow, by simp⟩
  lt_bound := by
    have hcast : (n : ℚ) < 2 ^ F.prec := by exact_mod_cast hn
    exact hcast.trans_le (pow_le_pow_right₀ one_le_two hhigh)

theorem ofRat_eq {neg : Bool} {q : ℚ} (hq : 0 ≤ q) (x : Magnitude F) (h : q = x.val) :
    ofRat F neg q hq = finite neg x := by
  subst h
  exact ofRat_val neg x

/-- Two positive terms have a positive sum. -/
theorem add_finite_finite (x y : Magnitude F) :
    add (finite false x) (finite false y)
      = ofRat F false (x.val + y.val) (add_nonneg x.nonneg y.nonneg) := by
  have hnonneg : 0 ≤ x.val + y.val := add_nonneg x.nonneg y.nonneg
  have hsign : (if x.val + y.val = 0 then false else decide (x.val + y.val < 0)) = false := by
    rw [decide_eq_false (not_lt.mpr hnonneg), ite_self]
  show ofRat F (if x.val + y.val = 0 then false else decide (x.val + y.val < 0))
    |x.val + y.val| (abs_nonneg _) = _
  simp only [hsign, abs_of_nonneg hnonneg]

theorem mul_of_val_zero {a b : Bool} {x y : Magnitude F} (h : x.val = 0) :
    mul (finite a x) (finite b y) = finite (xor a b) (zero F) := by
  apply ofRat_eq (mul_nonneg x.nonneg y.nonneg)
  rw [h, zero_mul]
  rfl

/-- Squaring a magnitude that is its own square. -/
theorem mul_self_of_idem {x : Magnitude F} (h : x.val * x.val = x.val) :
    mul (finite false x) (finite false x) = finite false x :=
  ofRat_eq (mul_nonneg x.nonneg x.nonneg) x h

theorem add_zero (x : Magnitude F) :
    add (finite false x) (finite false (zero F)) = finite false x := by
  rw [add_finite_finite]
  exact ofRat_eq _ x (Rat.add_zero x.val)

theorem zero_div_of_ne {b : Bool} {y : Magnitude F} (h : y.val ≠ 0) :
    div (finite false (zero F)) (finite b y) = finite (xor false b) (zero F) := by
  refine (if_neg h).trans ?_
  exact ofRat_eq _ (zero F) (zero_div y.val)

/-! ### Signs -/

/-- A NaN, or a value with a positive sign. -/
def NonNeg : Value F → Prop
  | nan => True
  | inf neg => neg = false
  | finite neg _ => neg = false

theorem nonNeg_ofRat {q : ℚ} {hq : 0 ≤ q} : NonNeg (ofRat F false q hq) := by
  unfold ofRat
  by_cases h : F.round q < 2 ^ (F.emax + 1)
  · rw [dif_pos h]
    rfl
  · rw [dif_neg h]
    rfl

/-- A square is never negative. -/
theorem nonNeg_mul_self (a : Value F) : NonNeg (mul a a) := by
  cases a with
  | nan => trivial
  | inf neg => exact Bool.xor_self neg
  | finite neg x =>
      show NonNeg (ofRat F (xor neg neg) (x.val * x.val) (mul_nonneg x.nonneg x.nonneg))
      rw [Bool.xor_self]
      exact nonNeg_ofRat

theorem nonNeg_add {a b : Value F} (ha : NonNeg a) (hb : NonNeg b) : NonNeg (add a b) := by
  cases a with
  | nan => trivial
  | inf m =>
      obtain rfl : m = false := ha
      cases b with
      | nan => trivial
      | inf n =>
          obtain rfl : n = false := hb
          rfl
      | finite n y => rfl
  | finite m x =>
      obtain rfl : m = false := ha
      cases b with
      | nan => trivial
      | inf n => exact hb
      | finite n y =>
          obtain rfl : n = false := hb
          rw [add_finite_finite]
          exact nonNeg_ofRat

theorem nonNeg_div {a : Value F} (ha : NonNeg a) (y : Magnitude F) :
    NonNeg (div a (finite false y)) := by
  cases a with
  | nan => trivial
  | inf m =>
      obtain rfl : m = false := ha
      rfl
  | finite m x =>
      obtain rfl : m = false := ha
      show NonNeg (if y.val = 0 then (if x.val = 0 then nan else inf false)
        else ofRat F false (x.val / y.val) _)
      by_cases hy : y.val = 0
      · rw [if_pos hy]
        by_cases hx : x.val = 0
        · rw [if_pos hx]
          trivial
        · rw [if_neg hx]
          rfl
      · rw [if_neg hy]
        exact nonNeg_ofRat

/-- Nothing exceeds what is not negative times infinity: it is infinite or a NaN. -/
theorem mul_inf_lt {a : Value F} (ha : NonNeg a) (b : Value F) :
    lt (mul a (inf false)) b = false := by
  cases a with
  | nan => exact nan_lt b
  | inf m =>
      obtain rfl : m = false := ha
      exact inf_lt b
  | finite m x =>
      obtain rfl : m = false := ha
      show lt (if x.val = 0 then nan else inf false) b = false
      by_cases hx : x.val = 0
      · rw [if_pos hx]
        exact nan_lt b
      · rw [if_neg hx]
        exact inf_lt b

end Value

/-! ### Single and double precision -/

def binary32 : Format := ⟨24, 127, by norm_num⟩

def binary64 : Format := ⟨53, 1023, by norm_num⟩

/-- The least magnitude that is infinite in single precision after being rounded to double
precision first: half a unit of the double below half a unit of the single below `2 ^ 128`. -/
def narrowBound : ℚ := 2 ^ 128 - 2 ^ 103 - 2 ^ 74

namespace Value

theorem bound_le_round32_iff {q : ℚ} (hq : 0 ≤ q) :
    2 ^ (binary32.emax + 1) ≤ binary32.round q ↔ 2 ^ 128 - 2 ^ 103 ≤ q := by
  rw [bound_le_round_iff hq (by norm_num [Format.minExp, binary32]) (by norm_num [binary32])]
  norm_num [binary32]

/-- A double reaches the bound of the singles half a unit of its own earlier. -/
theorem narrowBound_le_iff {q : ℚ} (hq : 0 ≤ q) :
    2 ^ 128 - 2 ^ 103 ≤ binary64.round q ↔ narrowBound ≤ q := by
  have hiff := Format.le_round_iff (F := binary64) (k := 127) (n := 2 ^ 53 - 2 ^ 28) hq
    (by norm_num [Format.minExp, binary64]) (by decide) (by norm_num [binary64])
    (by norm_num [binary64])
  have hbound : (((2 ^ 53 - 2 ^ 28 : ℤ) : ℚ)) * 2 ^ ((127 : ℤ) + 1 - binary64.prec)
      = 2 ^ 128 - 2 ^ 103 := by
    norm_num [binary64]
  have hhalf : (((2 ^ 53 - 2 ^ 28 : ℤ) : ℚ) - 1 / 2) * 2 ^ ((127 : ℤ) + 1 - binary64.prec)
      = narrowBound := by
    norm_num [binary64, narrowBound]
  rw [hbound, hhalf] at hiff
  exact hiff

/-- **Rounding twice.**  A magnitude rounded to double and then to single precision is
infinite from the bound on, and finite below it. -/
theorem narrow_cases (neg : Bool) {q : ℚ} (hq : 0 ≤ q) :
    (q < narrowBound ∧ ∃ x, convert binary32 (ofRat binary64 neg q hq) = finite neg x) ∨
      (narrowBound ≤ q ∧ convert binary32 (ofRat binary64 neg q hq) = inf neg) := by
  have hnonneg : 0 ≤ binary64.round q := Format.round_nonneg hq
  by_cases hdouble : binary64.round q < 2 ^ (binary64.emax + 1)
  · rw [ofRat_of_lt hq hdouble]
    by_cases hsingle : narrowBound ≤ q
    · have hle : 2 ^ (binary32.emax + 1) ≤ binary32.round (binary64.round q) := by
        rw [bound_le_round32_iff hnonneg, narrowBound_le_iff hq]
        exact hsingle
      exact Or.inr ⟨hsingle, ofRat_of_le hnonneg hle⟩
    · refine Or.inl ⟨not_le.mp hsingle, ?_⟩
      have hlt : binary32.round (binary64.round q) < 2 ^ (binary32.emax + 1) := by
        rw [← not_le, bound_le_round32_iff hnonneg, narrowBound_le_iff hq]
        exact hsingle
      exact ⟨_, ofRat_of_lt hnonneg hlt⟩
  · -- Infinite as a double already, and far above the bound.
    rw [not_lt] at hdouble
    refine Or.inr ⟨?_, ?_⟩
    · rw [← narrowBound_le_iff hq]
      have hsub : (2 : ℚ) ^ 128 - 2 ^ 103 ≤ 2 ^ 128 := sub_le_self _ (by positivity)
      have hpow : (2 : ℚ) ^ 128 ≤ 2 ^ (binary64.emax + 1) :=
        pow_le_pow_right₀ one_le_two (by norm_num [binary64])
      exact (hsub.trans hpow).trans hdouble
    · rw [ofRat_of_le hq hdouble]
      rfl

end Value

end Binary
