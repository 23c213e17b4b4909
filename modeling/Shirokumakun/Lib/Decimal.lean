/-
Decimal numbers as text: printing with a format, and reading back.

`printf` follows a format character by character, with the conversions `%d`, `%u`, `%s` and
`%%` and a zero-padded width.  A reader takes the front of a text and returns the rest, and
`Reads p text a` says that it takes exactly `text`, whatever follows.  A number has no end of
its own, so reading one back needs a character behind it that is no digit; a fixed-point
number ends with the last of its places.
-/
import Mathlib.Data.List.TakeDrop
import Mathlib.Data.Rat.Cast.Order
import Mathlib.Tactic.NormNum

namespace Decimal

/-! ### Printing -/

/-- `n` with zeros in front, up to `width` characters. -/
def padded (width n : ℕ) : List Char := (Nat.toDigits 10 n).leftpad width '0'

/-- A sign counts as one of the characters. -/
def signedPadded (width : ℕ) (n : ℤ) : List Char :=
  if n < 0 then '-' :: padded (width - 1) n.natAbs else padded width n.natAbs

/-- An argument behind a format. -/
inductive Arg
  | int (n : ℤ)
  | unsigned (n : ℕ)
  | string (s : String)

/-- One conversion; nothing is printed of an argument that does not fit it. -/
def convert (width : ℕ) : Char → Arg → List Char
  | 'd', .int n => signedPadded width n
  | 'u', .unsigned n => padded width n
  | 's', .string s => s.toList
  | _, _ => []

def printf : List Char → List Arg → List Char
  | [], _ => []
  | '%' :: '%' :: format, args => '%' :: printf format args
  | '%' :: '0' :: width :: conv :: format, arg :: args =>
      convert (width.toNat - '0'.toNat) conv arg ++ printf format args
  | '%' :: conv :: format, arg :: args => convert 0 conv arg ++ printf format args
  | c :: format, args => c :: printf format args

example : printf "%s: %d.%02d %%".toList [.string "a", .int (-3), .int 7]
    = "a: -3.07 %".toList := by
  decide

theorem signedPadded_natCast (width n : ℕ) : signedPadded width n = padded width n :=
  if_neg (Int.not_lt.mpr (Int.natCast_nonneg n))

theorem isDigit_padded {width n : ℕ} {c : Char} (h : c ∈ padded width n) : c.isDigit = true := by
  rcases List.mem_append.mp h with hzero | hdigit
  · rw [List.eq_of_mem_replicate hzero]
    decide
  · exact Nat.isDigit_of_mem_toDigits (by decide) (by decide) hdigit

theorem padded_ne_nil (width n : ℕ) : padded width n ≠ [] :=
  List.append_ne_nil_of_right_ne_nil _ Nat.toDigits_ne_nil

theorem ofDigitChars_padded (width n : ℕ) : Nat.ofDigitChars 10 (padded width n) 0 = n := by
  unfold padded List.leftpad
  rw [Nat.ofDigitChars_append, Nat.ofDigitChars_replicate_zero, Nat.mul_zero,
    Nat.ofDigitChars_ten_toDigits]

theorem length_padded {width n : ℕ} (hwidth : 0 < width) (h : n < 10 ^ width) :
    (padded width n).length = width := by
  have hlen : (Nat.toDigits 10 n).length ≤ width :=
    (Nat.length_toDigits_le_iff (by decide) hwidth).mpr h
  unfold padded
  rw [List.length_leftpad]
  exact Nat.max_eq_left hlen

/-! ### Reading -/

/-- Takes the front of its input and returns the rest. -/
abbrev Reader (α : Type) := StateT (List Char) Option α

def literal : List Char → Reader Unit
  | [] => pure ()
  | c :: text => fun
    | [] => none
    | d :: rest => if d = c then literal text rest else none

/-- All the digits there are, and at least one. -/
def number : Reader ℕ := fun input =>
  let digits := input.takeWhile Char.isDigit
  if digits = [] then none
  else some (Nat.ofDigitChars 10 digits 0, input.dropWhile Char.isDigit)

/-- The next `places` characters, which must be digits. -/
def digits (places : ℕ) : Reader ℕ := fun input =>
  let digits := input.take places
  if digits.length = places ∧ digits.all Char.isDigit = true then
    some (Nat.ofDigitChars 10 digits 0, input.drop places)
  else none

/-- A number, a point, and `places` digits. -/
def fixed (places : ℕ) : Reader ℚ := do
  let whole ← number
  literal ['.']
  let part ← digits places
  return whole + part / 10 ^ places

def signed (p : Reader ℚ) : Reader ℚ := fun
  | '-' :: rest => (p rest).map fun (q, rest) => (-q, rest)
  | input => p input

/-- The whole text is read. -/
def all {α : Type} (p : Reader α) (text : List Char) : Option α :=
  match p text with
  | some (a, []) => some a
  | _ => none

/-- `p` takes exactly `text` and reads it as `a`. -/
def Reads {α : Type} (p : Reader α) (text : List Char) (a : α) : Prop :=
  ∀ rest, p (text ++ rest) = some (a, rest)

section

variable {α β : Type} {p : Reader α} {f : α → Reader β} {text text' : List Char} {a : α} {b : β}

theorem Reads.all (h : Reads p text a) : all p text = some a := by
  have hp := h []
  rw [List.append_nil] at hp
  unfold Decimal.all
  rw [hp]

theorem reads_pure (a : α) : Reads (pure a) [] a := fun _ => rfl

/-- One reader after the other, if the first reads its text with that of the second behind. -/
theorem Reads.bind_before (hp : ∀ rest, p (text ++ (text' ++ rest)) = some (a, text' ++ rest))
    (hf : Reads (f a) text' b) : Reads (p >>= f) (text ++ text') b := by
  intro rest
  show (p (text ++ text' ++ rest)).bind (fun (a, rest) => f a rest) = some (b, rest)
  rw [List.append_assoc, hp]
  exact hf rest

theorem Reads.bind (hp : Reads p text a) (hf : Reads (f a) text' b) :
    Reads (p >>= f) (text ++ text') b :=
  Reads.bind_before (fun rest => hp (text' ++ rest)) hf

theorem reads_literal (text : List Char) : Reads (literal text) text () := by
  induction text with
  | nil => exact reads_pure ()
  | cons c text ih =>
      intro rest
      show (if c = c then literal text (text ++ rest) else none) = some ((), rest)
      rw [if_pos rfl]
      exact ih rest

/-- **A number is read back** in front of anything that is no digit. -/
theorem number_padded (width n : ℕ) {c : Char} (hc : c.isDigit = false) (rest : List Char) :
    number (padded width n ++ (c :: rest)) = some (n, c :: rest) := by
  have hdigits : ∀ d ∈ padded width n, d.isDigit = true := fun _ => isDigit_padded
  have htake : (padded width n ++ (c :: rest)).takeWhile Char.isDigit = padded width n := by
    rw [List.takeWhile_append_of_pos hdigits, List.takeWhile_cons_of_neg (by rw [hc]; decide),
      List.append_nil]
  have hdrop : (padded width n ++ (c :: rest)).dropWhile Char.isDigit = c :: rest := by
    rw [List.dropWhile_append_of_pos hdigits, List.dropWhile_cons_of_neg (by rw [hc]; decide)]
  unfold number
  dsimp only
  rw [htake, hdrop, if_neg (padded_ne_nil width n), ofDigitChars_padded]

theorem reads_digits {places n : ℕ} (hplaces : 0 < places) (h : n < 10 ^ places) :
    Reads (digits places) (padded places n) n := by
  intro rest
  have hlen := length_padded hplaces h
  have hall : (padded places n).all Char.isDigit = true :=
    List.all_eq_true.mpr fun _ => isDigit_padded
  unfold digits
  dsimp only
  rw [List.take_left' hlen, List.drop_left' hlen, if_pos ⟨hlen, hall⟩, ofDigitChars_padded]

/-- **A fixed-point number is read back**: whole part, point and remainder. -/
theorem reads_fixed {places : ℕ} (hplaces : 0 < places) (n : ℕ) :
    Reads (fixed places)
      (padded 0 (n / 10 ^ places) ++ (['.'] ++ padded places (n % 10 ^ places)))
      (n / 10 ^ places) := by
  have hpos : 0 < 10 ^ places := Nat.pow_pos (by decide)
  have hvalue : ((n / 10 ^ places : ℕ) : ℚ) + ((n % 10 ^ places : ℕ) : ℚ) / 10 ^ places
      = n / 10 ^ places := by
    have hdiv : ((n / 10 ^ places : ℕ) : ℚ) * 10 ^ places + ((n % 10 ^ places : ℕ) : ℚ) = n := by
      exact_mod_cast Nat.div_add_mod' n (10 ^ places)
    rw [← hdiv, add_div, mul_div_cancel_right₀ _ (pow_ne_zero places (by norm_num))]
  rw [← hvalue]
  refine Reads.bind_before (fun rest => number_padded 0 _ (by decide) _) ?_
  refine (reads_literal ['.']).bind ?_
  rw [← List.append_nil (padded places _)]
  exact (reads_digits hplaces (Nat.mod_lt n hpos)).bind (reads_pure _)

end

/-! ### Signs -/

section

variable {p : Reader ℚ} {text : List Char} {q : ℚ}

theorem Reads.signed_neg (h : Reads p text q) : Reads (signed p) ('-' :: text) (-q) := by
  intro rest
  show (p (text ++ rest)).map _ = _
  rw [h rest]
  rfl

theorem Reads.signed {c : Char} (h : Reads p (c :: text) q) (hc : c ≠ '-') :
    Reads (signed p) (c :: text) q := by
  intro rest
  rw [← h rest]
  unfold Decimal.signed
  split
  · rename_i heq
    exact absurd (List.cons.inj heq).1 hc
  · rfl

end

end Decimal
