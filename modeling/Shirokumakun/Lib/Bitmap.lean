/-
Sets of numbers as the bits of one number.

Deciding that every number below a bound is in a list costs a search for each of them.
Collecting the list into one number first costs a pass, and the question is then whether
two numbers are equal.
-/
import Mathlib.Data.List.Basic
import Mathlib.Data.Nat.Bitwise

namespace Bitmap

/-- The number whose bits are the members of the list, beside those already set. -/
def collect (set : ℕ) (members : List ℕ) : ℕ := members.foldl (fun set n => set ||| 1 <<< n) set

theorem testBit_collect (set : ℕ) (members : List ℕ) (k : ℕ) :
    (collect set members).testBit k = (set.testBit k || decide (k ∈ members)) := by
  induction members generalizing set with
  | nil => simp [collect]
  | cons n members ih =>
      have hcons : collect set (n :: members) = collect (set ||| 1 <<< n) members := rfl
      have hbit : (1 <<< n).testBit k = decide (k = n) := by
        rw [Nat.one_shiftLeft, Nat.testBit_two_pow]
        simp [eq_comm]
      rw [hcons, ih, Nat.testBit_or, hbit, Bool.or_assoc, ← Bool.decide_or]
      simp only [List.mem_cons]

/-- A list that collects to all ones from `low` on contains every number there. -/
theorem mem_of_collect {members : List ℕ} {low high : ℕ}
    (h : collect 0 members = (2 ^ high - 1) <<< low) {k : ℕ} (hlow : low ≤ k)
    (hhigh : k < low + high) : k ∈ members := by
  have hbit := testBit_collect 0 members k
  have hset : ((2 ^ high - 1) <<< low).testBit k = true := by
    rw [Nat.testBit_shiftLeft, Nat.testBit_two_pow_sub_one]
    simp only [decide_eq_true_eq, Bool.and_eq_true]
    omega
  rw [h, hset, Nat.zero_testBit, Bool.false_or] at hbit
  exact of_decide_eq_true hbit.symm

end Bitmap
