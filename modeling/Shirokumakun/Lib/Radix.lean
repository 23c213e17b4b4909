/-
Digits of a base, packed a group at a time.

A text whose characters are digits of some base is packed by taking `group` of them as
one number of `full` bits, and what is left over at the end as one shorter number.
`pack` is the loop that does it, with the number under construction and its count of
digits as accumulators; `unpack` reads the text back, given how many characters there
are.

The round trip needs two facts of the widths, that a full group fits in `full` bits
and a shorter one in the bits it gets, so they are fields of the packing.
-/
import Mathlib.Data.List.Induction
import Mathlib.Tactic.Ring
import Shirokumakun.Lib.Packed

open Packed

/-- How the digits of a base are grouped, and the widths the groups get. -/
structure Radix where
  base : ℕ
  group : ℕ
  full : ℕ
  part : ℕ → ℕ
  group_pos : 0 < group
  full_fits : base ^ group ≤ 2 ^ full
  part_fits : ∀ k < group, base ^ k ≤ 2 ^ part k

namespace Radix

variable (r : Radix)

/-- The number the digits spell behind those already taken. -/
def value (acc : ℕ) (ds : List ℕ) : ℕ := ds.foldl (fun acc d => acc * r.base + d) acc

/-- The last `k` digits of a number, the highest first. -/
def digits : ℕ → ℕ → List ℕ
  | 0, _ => []
  | k + 1, n => digits k (n / r.base) ++ [n % r.base]

/-- Pack the digits, `acc` being the number of the `count` digits taken since the last
full group. -/
def pack : List ℕ → ℕ → ℕ → List Bool
  | [], acc, count => if 0 < count then msbFirst (r.part count) acc else []
  | d :: ds, acc, count =>
      if count + 1 = r.group then msbFirst r.full (acc * r.base + d) ++ pack ds 0 0
      else pack ds (acc * r.base + d) (count + 1)

/-- Read `n` digits. -/
def unpack (n : ℕ) (bits : List Bool) : Option (List ℕ × List Bool) :=
  if n = 0 then some ([], bits)
  else if n < r.group then
    (readNat (r.part n) bits).map fun p => (r.digits n p.1, p.2)
  else
    (readNat r.full bits).bind fun p =>
      (unpack (n - r.group) p.2).map fun q => (r.digits r.group p.1 ++ q.1, q.2)
termination_by n
decreasing_by
  have := r.group_pos
  omega

/-! ### Numbers and their digits -/

theorem value_append (acc : ℕ) (xs ys : List ℕ) :
    r.value acc (xs ++ ys) = r.value (r.value acc xs) ys := List.foldl_append

theorem value_lt {ds : List ℕ} (h : ∀ d ∈ ds, d < r.base) : r.value 0 ds < r.base ^ ds.length := by
  induction ds using List.reverseRecOn with
  | nil => simp [value]
  | append_singleton ds d ih =>
      have hd : d < r.base := h d (by simp)
      have hds := ih fun x hx => h x (by simp [hx])
      have hstep : r.value 0 (ds ++ [d]) = r.value 0 ds * r.base + d := by
        simp [value]
      rw [hstep, List.length_append, List.length_singleton, pow_succ]
      calc r.value 0 ds * r.base + d < (r.value 0 ds + 1) * r.base := by
            rw [Nat.add_mul, Nat.one_mul]
            exact Nat.add_lt_add_left hd _
        _ ≤ r.base ^ ds.length * r.base := Nat.mul_le_mul_right _ hds

theorem digits_value {ds : List ℕ} (h : ∀ d ∈ ds, d < r.base) :
    r.digits ds.length (r.value 0 ds) = ds := by
  induction ds using List.reverseRecOn with
  | nil => rfl
  | append_singleton ds d ih =>
      have hd : d < r.base := h d (by simp)
      have hds := ih fun x hx => h x (by simp [hx])
      have hstep : r.value 0 (ds ++ [d]) = r.value 0 ds * r.base + d := by
        simp [value]
      have hdiv : (r.value 0 ds * r.base + d) / r.base = r.value 0 ds := by
        rw [Nat.mul_comm, Nat.mul_add_div (Nat.zero_lt_of_lt hd), Nat.div_eq_of_lt hd, Nat.add_zero]
      have hmod : (r.value 0 ds * r.base + d) % r.base = d := by
        rw [Nat.mul_comm, Nat.mul_add_mod, Nat.mod_eq_of_lt hd]
      rw [hstep, List.length_append, List.length_singleton, digits, hdiv, hmod, hds]

/-! ### Group by group -/

/-- Digits that do not complete a group only move into the accumulator. -/
theorem pack_short (xs rest : List ℕ) {acc count : ℕ} (h : count + xs.length < r.group) :
    r.pack (xs ++ rest) acc count = r.pack rest (r.value acc xs) (count + xs.length) := by
  induction xs generalizing acc count with
  | nil => rfl
  | cons x xs ih =>
      rw [List.length_cons] at h
      have hcount : count + 1 ≠ r.group := by omega
      have hlen : count + (x :: xs).length = count + 1 + xs.length := by
        rw [List.length_cons]
        omega
      rw [List.cons_append, pack, if_neg hcount, ih (by omega), hlen]
      rfl

theorem pack_part {ds : List ℕ} (hpos : 0 < ds.length) (h : ds.length < r.group) :
    r.pack ds 0 0 = msbFirst (r.part ds.length) (r.value 0 ds) := by
  have hshort : r.pack (ds ++ []) 0 0 = r.pack [] (r.value 0 ds) (0 + ds.length) :=
    r.pack_short ds [] (by omega)
  rw [List.append_nil, Nat.zero_add] at hshort
  rw [hshort, pack, if_pos hpos]

theorem pack_full (ds rest : List ℕ) (h : ds.length = r.group) :
    r.pack (ds ++ rest) 0 0 = msbFirst r.full (r.value 0 ds) ++ r.pack rest 0 0 := by
  have hne : ds ≠ [] := by
    rintro rfl
    exact r.group_pos.ne h
  obtain ⟨xs, d, rfl⟩ := List.eq_nil_or_concat ds |>.resolve_left hne
  rw [List.length_concat] at h
  have hcount : 0 + xs.length + 1 = r.group := by omega
  rw [List.concat_eq_append, List.append_assoc, r.pack_short xs _ (by omega),
    List.singleton_append, pack, if_pos hcount, value_append]
  rfl

/-! ### The round trip -/

/-- Reading as many digits as were packed gives them back, and leaves what follows. -/
theorem unpack_pack {ds : List ℕ} (h : ∀ d ∈ ds, d < r.base) (bits : List Bool) :
    r.unpack ds.length (r.pack ds 0 0 ++ bits) = some (ds, bits) := by
  induction hn : ds.length using Nat.strong_induction_on generalizing ds with
  | _ n ih =>
      rw [unpack]
      by_cases hzero : n = 0
      · obtain rfl := List.eq_nil_of_length_eq_zero (hn.trans hzero)
        simp [hzero, pack]
      · rw [if_neg hzero]
        by_cases hshort : n < r.group
        · have hlt : r.value 0 ds < 2 ^ r.part n := by
            have hvalue := r.value_lt h
            rw [hn] at hvalue
            exact hvalue.trans_le (r.part_fits n hshort)
          rw [if_pos hshort, r.pack_part (by omega) (by omega), hn, readNat_append hlt,
            Option.map_some, ← hn, r.digits_value h]
        · have hsplit : ds.take r.group ++ ds.drop r.group = ds := List.take_append_drop _ _
          have hlen : (ds.take r.group).length = r.group := by
            rw [List.length_take]
            omega
          have hfront : ∀ d ∈ ds.take r.group, d < r.base :=
            fun d hd => h d (List.mem_of_mem_take hd)
          have hback : ∀ d ∈ ds.drop r.group, d < r.base :=
            fun d hd => h d (List.mem_of_mem_drop hd)
          have hlt : r.value 0 (ds.take r.group) < 2 ^ r.full := by
            have hvalue := r.value_lt hfront
            rw [hlen] at hvalue
            exact hvalue.trans_le r.full_fits
          have hpos := r.group_pos
          have hrest := ih (n - r.group) (by omega) hback (by rw [List.length_drop, hn])
          have hdigits := r.digits_value hfront
          rw [hlen] at hdigits
          rw [if_neg hshort]
          conv_lhs => rw [← hsplit]
          rw [r.pack_full _ _ hlen, List.append_assoc, readNat_append hlt, Option.bind_some, hrest,
            Option.map_some, hdigits, hsplit]

/-- How many bits a text of `n` digits takes. -/
theorem length_pack (ds : List ℕ) :
    (r.pack ds 0 0).length = r.full * (ds.length / r.group) +
      if ds.length % r.group = 0 then 0 else r.part (ds.length % r.group) := by
  induction hn : ds.length using Nat.strong_induction_on generalizing ds with
  | _ n ih =>
      by_cases hshort : n < r.group
      · rw [Nat.div_eq_of_lt hshort, Nat.mod_eq_of_lt hshort]
        by_cases hzero : n = 0
        · obtain rfl := List.eq_nil_of_length_eq_zero (hn.trans hzero)
          simp [hzero, pack]
        · rw [r.pack_part (by omega) (by omega), length_msbFirst, hn, if_neg hzero]
          simp
      · have hsplit : ds.take r.group ++ ds.drop r.group = ds := List.take_append_drop _ _
        have hlen : (ds.take r.group).length = r.group := by
          rw [List.length_take]
          omega
        have hpos := r.group_pos
        have hle : r.group ≤ n := by omega
        have hrest := ih (n - r.group) (by omega) (ds.drop r.group)
          (by rw [List.length_drop, hn])
        rw [← hsplit, r.pack_full _ _ hlen, List.length_append, length_msbFirst, hrest,
          Nat.div_eq_sub_div hpos hle, Nat.mod_eq_sub_mod hle, Nat.mul_add, Nat.mul_one]
        ring

end Radix
