/-
What a string spells to the C library's `strtod`, and so to `atof`.

White space and one sign are skipped.  What follows may be an infinity or a NaN by name, a
hexadecimal number after `0x`, or a decimal number; the longest beginning that is one of
these counts, and what is behind it is ignored.  A string that begins with none of them
spells zero.  A number is kept as the exact rational it is, so that rounding it is a
separate step.  Characters are bytes here: none above 127 plays a part.
-/
import Mathlib.Data.NNRat.Defs
import Mathlib.Algebra.Order.Field.Rat
import Shirokumakun.Lib.Binary

namespace Strtod

/-- A NaN, an infinity, or an exact number. -/
inductive Spelled
  | nan
  | infinity (neg : Bool)
  | number (neg : Bool) (magnitude : ℚ≥0)
  deriving DecidableEq

def isSpace (c : Char) : Bool := c.toNat == 32 || (9 ≤ c.toNat && c.toNat ≤ 13)

def sign : List Char → Bool × List Char
  | '-' :: cs => (true, cs)
  | '+' :: cs => (false, cs)
  | cs => (false, cs)

/-- How numbers of one radix are written: their digits, and the letter and the base of the
exponent behind them. -/
structure Numeral where
  radix : ℕ
  mark : Char
  scale : ℚ≥0

def decimal : Numeral := ⟨10, 'e', 10⟩

def hexadecimal : Numeral := ⟨16, 'p', 2⟩

def digitVal (c : Char) : ℕ :=
  if c.isDigit then c.toNat - 48
  else if 'a' ≤ c.toLower ∧ c.toLower ≤ 'f' then c.toLower.toNat - 87
  else 16

/-- The digits in front, and what follows them. -/
def digits (n : Numeral) (cs : List Char) : List ℕ × List Char :=
  let isDigit := fun c => decide (digitVal c < n.radix)
  ((cs.takeWhile isDigit).map digitVal, cs.dropWhile isDigit)

def natOf (radix : ℕ) (ds : List ℕ) : ℕ := ds.foldl (fun value d => radix * value + d) 0

/-- The exponent behind a number; without digits of its own it is not part of the number. -/
def exponentPart (n : Numeral) : List Char → ℤ
  | [] => 0
  | c :: cs =>
      if c.toLower = n.mark then
        let (neg, cs) := sign cs
        let value : ℤ := natOf 10 (digits decimal cs).1
        if neg then -value else value
      else 0

/-- Digits with a point among them or none, at least one, and then perhaps an exponent. -/
def unsigned (n : Numeral) (cs : List Char) : Option ℚ≥0 :=
  let (whole, rest) := digits n cs
  let (fraction, rest) := match rest with
    | '.' :: rest => digits n rest
    | rest => ([], rest)
  if whole ++ fraction = [] then none
  else some (natOf n.radix (whole ++ fraction) / n.radix ^ fraction.length
    * n.scale ^ exponentPart n rest)

/-- **What a string spells.** -/
def spelled (s : String) : Spelled :=
  let (neg, cs) := sign (s.toList.dropWhile isSpace)
  let low := cs.map Char.toLower
  if low.take 3 = ['i', 'n', 'f'] then .infinity neg
  else if low.take 3 = ['n', 'a', 'n'] then .nan
  else if low.take 2 = ['0', 'x'] then
    -- Without a hexadecimal digit behind it, the zero alone is the number.
    .number neg ((unsigned hexadecimal (cs.drop 2)).getD 0)
  else
    match unsigned decimal cs with
    | some q => .number neg q
    | none => .number false 0

example : spelled " +0x1.8p1 V" = .number false 3 := by decide +kernel

/-- The value nearest to it. -/
def Spelled.toValue (F : Rounding.Format) : Spelled → Binary.Value F
  | nan => .nan
  | infinity neg => .inf neg
  | number neg q => .ofRat F neg q q.cast_nonneg

end Strtod
