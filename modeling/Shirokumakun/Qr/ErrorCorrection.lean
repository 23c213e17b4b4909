/-
The error correction code of a block.

`finiteFieldMultiply` is Russian peasant multiplication on bytes.  Its doubling step is
one step of the register of the generator `X ^ 8 + X ^ 4 + X ^ 3 + X ^ 2 + 1`, so a byte
is an element of the ring modulo that polynomial and the function is the ring's
multiplication.  That the powers of 2 run through every byte but zero is checked by
running through them, and makes the ring a field.

With that, the two loops over bytes are the two loops of the Reed-Solomon code, symbol
for symbol, and what is known of the code holds of the bytes: a block is divisible by
the generator, and two blocks with different data differ in more places than there are
error correction codewords.
-/
import Mathlib.GroupTheory.OrderOfElement
import Mathlib.Tactic.NormNum.Prime
import Shirokumakun.Lib.BinaryField
import Shirokumakun.Lib.Bitmap
import Shirokumakun.Lib.Packed
import Shirokumakun.Lib.ReedSolomon

namespace Shirokumakun.Qr

open Packed

/-! ### The functions -/

/-- Double modulo 0x11D, in a byte. -/
def double (z : UInt8) : UInt8 := UInt8.ofNat ((z.toNat <<< 1) ^^^ ((z.toNat >>> 7) * 0x11D))

def finiteFieldMultiply (x y : UInt8) : UInt8 :=
  [7, 6, 5, 4, 3, 2, 1, 0].foldl
    (fun z i => double z ^^^ UInt8.ofNat (((y.toNat >>> i) &&& 1) * x.toNat)) 0

/-- Multiply by one root: each coefficient takes the next one, which is still the old. -/
def multiplyRoot (root : UInt8) : List UInt8 → List UInt8
  | [] => []
  | [a] => [finiteFieldMultiply a root]
  | a :: b :: rest => (finiteFieldMultiply a root ^^^ b) :: multiplyRoot root (b :: rest)

/-- The loop of `calcReedSolomonGenerator`, with the root it has come to. -/
def generatorLoop (degree : ℕ) : ℕ → List UInt8 × UInt8
  | 0 => (List.replicate (degree - 1) 0 ++ [1], 1)
  | i + 1 =>
      let s := generatorLoop degree i
      (multiplyRoot s.2 s.1, finiteFieldMultiply s.2 2)

def calcReedSolomonGenerator (degree : ℕ) : List UInt8 := (generatorLoop degree degree).1

/-- One byte of the division. -/
def remainderStep (generator result : List UInt8) (b : UInt8) : List UInt8 :=
  let factor := b ^^^ result.headD 0
  List.zipWith (fun x y => x ^^^ finiteFieldMultiply y factor) (result.tail ++ [0]) generator

def calcReedSolomonRemainder (data generator : List UInt8) : List UInt8 :=
  data.foldl (remainderStep generator) (List.replicate generator.length 0)

/-! ### Bytes as elements -/

/-- `X ^ 8 + X ^ 4 + X ^ 3 + X ^ 2 + 1`, without its highest term 0x1D. -/
def modulus : Crc.Generator 8 where
  taps := [false, false, false, true, true, true, false, true]
  length_taps := rfl
  odd := rfl

/-- The ring the bytes are computed in. -/
abbrev Element : Type := AdjoinRoot modulus.toPoly

/-- The bits of a byte, highest first. -/
def bits (b : UInt8) : List Bool := msbFirst 8 b.toNat

/-- The element a byte stands for. -/
noncomputable def toElement (b : UInt8) : Element := BinaryField.element modulus (bits b)

/-- The element 0x02 stands for. -/
noncomputable def alpha : Element := AdjoinRoot.root modulus.toPoly

theorem length_bits (b : UInt8) : (bits b).length = 8 := length_msbFirst 8 b.toNat

theorem bits_injective {a b : UInt8} (h : bits a = bits b) : a = b := by
  have hval := congrArg ofMsbFirst h
  rw [bits, bits, ofMsbFirst_msbFirst, ofMsbFirst_msbFirst, Nat.mod_eq_of_lt a.toNat_lt,
    Nat.mod_eq_of_lt b.toNat_lt] at hval
  exact UInt8.toNat_inj.mp hval

theorem toElement_injective : Function.Injective toElement := fun a b h =>
  bits_injective (BinaryField.element_injective (length_bits a) (length_bits b) h)

theorem toElement_xor (a b : UInt8) : toElement (a ^^^ b) = toElement a + toElement b := by
  have hlen : (bits a).length = (bits b).length := (length_bits a).trans (length_bits b).symm
  have hxor : bits (a ^^^ b) = List.zipWith xor (bits a) (bits b) := by
    rw [bits, UInt8.toNat_xor, msbFirst_xor]
    rfl
  rw [toElement, hxor, BinaryField.element_zipWith_xor modulus hlen]
  rfl

theorem toElement_zero : toElement 0 = 0 := BinaryField.element_replicate_false modulus 8

theorem bits_double_check :
    ∀ n ∈ List.range 256, bits (double (UInt8.ofNat n)) = modulus.step (bits (UInt8.ofNat n)) := by
  decide +kernel

/-- Doubling is a step of the register. -/
theorem bits_double (b : UInt8) : bits (double b) = modulus.step (bits b) := by
  have h := bits_double_check b.toNat (List.mem_range.mpr b.toNat_lt)
  rwa [UInt8.ofNat_toNat] at h

theorem toElement_double (b : UInt8) : toElement (double b) = alpha * toElement b := by
  rw [toElement, bits_double, BinaryField.element_step modulus (length_bits b)]
  rfl

theorem toElement_one : toElement 1 = 1 := by
  have hbits : bits 1 = [false, false, false, false, false, false, false, true] := by decide
  rw [toElement, hbits, BinaryField.element]
  simp [Crc.poly, Crc.bit]

theorem toElement_iterate_double (k : ℕ) : toElement (double^[k] 1) = alpha ^ k := by
  induction k with
  | zero => exact toElement_one
  | succ k ih => rw [Function.iterate_succ_apply', toElement_double, ih, pow_succ']

/-! ### The ring is a field -/

/-- Doubling from 1 on runs through every byte but zero, -/
theorem orbit_check :
    Bitmap.collect 0 ((List.iterate double 1 255).map UInt8.toNat) = (2 ^ 255 - 1) <<< 1 := by
  decide +kernel

/-- and is back at 1 after 255 times. -/
theorem orbit_closed : double^[255] 1 = 1 := by
  decide +kernel

theorem exists_iterate_double {b : UInt8} (hb : b ≠ 0) : ∃ k < 255, double^[k] 1 = b := by
  have hpos : 1 ≤ b.toNat := Nat.one_le_iff_ne_zero.mpr fun h => hb (UInt8.toNat_inj.mp h)
  have hmem := Bitmap.mem_of_collect orbit_check hpos b.toNat_lt
  obtain ⟨c, hc, hcb⟩ := List.mem_map.mp hmem
  obtain ⟨k, hk, rfl⟩ := List.mem_iterate.mp hc
  exact ⟨k, hk, UInt8.toNat_inj.mp hcb⟩

theorem exists_toElement (x : Element) : ∃ b, toElement b = x := by
  obtain ⟨bs, hlen, rfl⟩ := BinaryField.exists_element x
  refine ⟨UInt8.ofNat (ofMsbFirst bs), ?_⟩
  have hlt : ofMsbFirst bs < 2 ^ 8 := hlen ▸ ofMsbFirst_lt bs
  have hbits : bits (UInt8.ofNat (ofMsbFirst bs)) = bs := by
    rw [bits, UInt8.toNat_ofNat', Nat.mod_eq_of_lt hlt, ← hlen, msbFirst_ofMsbFirst]
  rw [toElement, hbits]

theorem alpha_pow_255 : alpha ^ 255 = 1 := by
  rw [← toElement_iterate_double, orbit_closed, toElement_one]

instance elementDomain : IsDomain Element := by
  refine BinaryField.isDomain_of_orbit (by decide) alpha_pow_255 fun x hx => ?_
  obtain ⟨b, rfl⟩ := exists_toElement x
  have hb : b ≠ 0 := by
    rintro rfl
    exact hx toElement_zero
  obtain ⟨k, hk, rfl⟩ := exists_iterate_double hb
  exact ⟨k, hk.le, toElement_iterate_double k⟩

/-- Doubling comes back to 1 no earlier: not after a third, a fifth or a seventeenth. -/
theorem orbit_proper : double^[85] 1 ≠ 1 ∧ double^[51] 1 ≠ 1 ∧ double^[15] 1 ≠ 1 := by
  decide +kernel

theorem alpha_pow_ne_one {k : ℕ} (h : double^[k] 1 ≠ 1) : alpha ^ k ≠ 1 := by
  intro hone
  rw [← toElement_iterate_double, ← toElement_one] at hone
  exact h (toElement_injective hone)

theorem orderOf_alpha : orderOf alpha = 255 := by
  refine orderOf_eq_of_pow_and_pow_div_prime (by decide) alpha_pow_255 fun p hp hdvd => ?_
  have hfactors : p ∣ 3 * 5 * 17 := hdvd
  rcases hp.dvd_mul.mp hfactors with hleft | h17
  · rcases hp.dvd_mul.mp hleft with h3 | h5
    · obtain rfl := (Nat.prime_dvd_prime_iff_eq hp Nat.prime_three).mp h3
      exact alpha_pow_ne_one orbit_proper.1
    · obtain rfl := (Nat.prime_dvd_prime_iff_eq hp Nat.prime_five).mp h5
      exact alpha_pow_ne_one orbit_proper.2.1
  · obtain rfl := (Nat.prime_dvd_prime_iff_eq hp (by norm_num)).mp h17
    exact alpha_pow_ne_one orbit_proper.2.2

/-- The first 255 powers of 2 are different. -/
theorem alpha_injOn : Set.InjOn (fun n : ℕ => alpha ^ n) (Set.Iio 255) := by
  rw [← orderOf_alpha]
  exact pow_injOn_Iio_orderOf

/-! ### Multiplication -/

theorem neg_eq_self (x : Element) : -x = x := by
  have htwo : (2 : Element) = 0 := by
    rw [← map_ofNat (AdjoinRoot.of modulus.toPoly) 2]
    exact map_zero _
  linear_combination -x * htwo

theorem toElement_and_one_mul (x y : UInt8) (i : ℕ) :
    UInt8.ofNat (((y.toNat >>> i) &&& 1) * x.toNat) = if y.toNat.testBit i then x else 0 := by
  have hbit : (y.toNat >>> i) &&& 1 = (y.toNat.testBit i).toNat := by
    rw [Nat.toNat_testBit, Nat.and_one_is_mod, Nat.shiftRight_eq_div_pow]
  rw [hbit]
  cases y.toNat.testBit i with
  | false => simp
  | true => simp

/-- Doubling and adding over a list of bits is Horner's rule. -/
theorem toElement_foldl_double (x z : UInt8) (bs : List Bool) :
    toElement (bs.foldl (fun z b => double z ^^^ if b then x else 0) z) =
      alpha ^ bs.length * toElement z + BinaryField.element modulus bs * toElement x := by
  induction bs generalizing z with
  | nil =>
      rw [List.foldl_nil, List.length_nil, pow_zero, one_mul, BinaryField.element, Crc.poly,
        map_zero, zero_mul, add_zero]
  | cons b bs ih =>
      have hhead : BinaryField.element modulus (b :: bs) =
          (if b then alpha ^ bs.length else 0) + BinaryField.element modulus bs := by
        rw [BinaryField.element, Crc.poly, map_add, map_mul, map_pow, AdjoinRoot.mk_X]
        cases b with
        | false => simp [Crc.bit, BinaryField.element]
        | true => simp [Crc.bit, BinaryField.element, alpha]
      rw [List.foldl_cons, ih, toElement_xor, toElement_double, hhead, List.length_cons, pow_succ]
      cases b with
      | false =>
          simp only [Bool.false_eq_true, if_false, toElement_zero]
          ring
      | true =>
          simp only [if_true]
          ring

/-- **The function multiplies.** -/
theorem toElement_finiteFieldMultiply (x y : UInt8) :
    toElement (finiteFieldMultiply x y) = toElement x * toElement y := by
  have hfold : finiteFieldMultiply x y =
      (bits y).foldl (fun z b => double z ^^^ if b then x else 0) 0 := by
    simp only [finiteFieldMultiply, toElement_and_one_mul]
    rfl
  rw [hfold, toElement_foldl_double, toElement_zero, mul_zero, zero_add, mul_comm]
  rfl

/-! ### The loops are those of the code -/

theorem toElement_two : toElement 2 = alpha := by
  have htwo : double 1 = 2 := by decide
  rw [← htwo, toElement_double, toElement_one, mul_one]

theorem multiplyRoot_eq_zipWith (root : UInt8) {xs : List UInt8} (h : xs ≠ []) :
    multiplyRoot root xs =
      List.zipWith (fun x y => x ^^^ finiteFieldMultiply y root) (xs.tail ++ [0]) xs := by
  induction xs with
  | nil => exact absurd rfl h
  | cons a xs ih =>
      cases xs with
      | nil => simp [multiplyRoot]
      | cons b xs =>
          rw [multiplyRoot, ih (List.cons_ne_nil b xs), UInt8.xor_comm]
          rfl

/-- Exclusive or with a multiple, byte by byte, is adding the multiple. -/
theorem map_zipWith_multiply (factor : UInt8) (xs ys : List UInt8) :
    (List.zipWith (fun x y => x ^^^ finiteFieldMultiply y factor) xs ys).map toElement =
      List.zipWith (fun x y => x + y * toElement factor) (xs.map toElement)
        (ys.map toElement) := by
  rw [List.map_zipWith, List.zipWith_map]
  congr 1
  funext x y
  rw [toElement_xor, toElement_finiteFieldMultiply]

theorem map_multiplyRoot (root : UInt8) {xs : List UInt8} (h : xs ≠ []) :
    (multiplyRoot root xs).map toElement =
      ReedSolomon.mulRoot (toElement root) (xs.map toElement) := by
  rw [multiplyRoot_eq_zipWith root h, map_zipWith_multiply, ReedSolomon.mulRoot, neg_eq_self,
    List.map_append, List.map_tail, List.map_singleton, toElement_zero]

theorem length_multiplyRoot (root : UInt8) (xs : List UInt8) :
    (multiplyRoot root xs).length = xs.length := by
  induction xs with
  | nil => rfl
  | cons a xs ih =>
      cases xs with
      | nil => rfl
      | cons b xs =>
          rw [multiplyRoot, List.length_cons, ih]
          rfl

theorem generatorLoop_spec (degree i : ℕ) :
    (generatorLoop degree i).1.length = degree - 1 + 1 ∧
      (generatorLoop degree i).1.map toElement =
        (List.range i).foldl (fun xs i => ReedSolomon.mulRoot (alpha ^ i) xs)
          (List.replicate (degree - 1) 0 ++ [1]) ∧
      toElement (generatorLoop degree i).2 = alpha ^ i := by
  induction i with
  | zero =>
      refine ⟨?_, ?_, toElement_one⟩
      · simp [generatorLoop]
      · rw [generatorLoop, List.map_append, List.map_replicate, List.map_singleton,
          toElement_zero, toElement_one]
        rfl
  | succ i ih =>
      obtain ⟨hlen, hmap, hroot⟩ := ih
      have hne : (generatorLoop degree i).1 ≠ [] := by
        intro hnil
        rw [hnil] at hlen
        simp at hlen
      rw [generatorLoop]
      refine ⟨?_, ?_, ?_⟩
      · rw [length_multiplyRoot, hlen]
      · rw [map_multiplyRoot _ hne, hmap, hroot, List.range_succ, List.foldl_append]
        rfl
      · rw [toElement_finiteFieldMultiply, hroot, toElement_two, pow_succ]

theorem length_calcReedSolomonGenerator {degree : ℕ} (h : 0 < degree) :
    (calcReedSolomonGenerator degree).length = degree := by
  rw [calcReedSolomonGenerator, (generatorLoop_spec degree degree).1]
  omega

theorem map_calcReedSolomonGenerator (degree : ℕ) :
    (calcReedSolomonGenerator degree).map toElement = ReedSolomon.generatorTaps alpha degree :=
  (generatorLoop_spec degree degree).2.1

theorem map_remainderStep (generator result : List UInt8) (b : UInt8) :
    (remainderStep generator result b).map toElement =
      ReedSolomon.step (generator.map toElement) (result.map toElement) (toElement b) := by
  have hhead : (result.map toElement).headD 0 = toElement (result.headD 0) := by
    cases result with
    | nil => exact toElement_zero.symm
    | cons a rest => rfl
  rw [remainderStep, map_zipWith_multiply, toElement_xor, ReedSolomon.step, hhead,
    sub_eq_add_neg, neg_eq_self, List.map_append, List.map_tail, List.map_singleton,
    toElement_zero]

theorem map_calcReedSolomonRemainder (data generator : List UInt8) :
    (calcReedSolomonRemainder data generator).map toElement =
      ReedSolomon.checks (generator.map toElement) (data.map toElement) := by
  have hfold : ∀ result : List UInt8,
      (data.foldl (remainderStep generator) result).map toElement =
        (data.map toElement).foldl (ReedSolomon.step (generator.map toElement))
          (result.map toElement) := by
    induction data with
    | nil => exact fun _ => rfl
    | cons b data ih =>
        intro result
        rw [List.foldl_cons, ih, map_remainderStep]
        rfl
  rw [calcReedSolomonRemainder, hfold, ReedSolomon.checks, List.map_replicate, toElement_zero,
    List.length_map]

theorem length_calcReedSolomonRemainder {generator : List UInt8} (data : List UInt8)
    (h : 0 < generator.length) :
    (calcReedSolomonRemainder data generator).length = generator.length := by
  have hlen := congrArg List.length (map_calcReedSolomonRemainder data generator)
  rw [List.length_map] at hlen
  rw [hlen, (ReedSolomon.dvd_checks (by simpa using h) _).1, List.length_map]

/-! ### Blocks -/

/-- A block: data codewords and the error correction codewords computed from them. -/
def block (degree : ℕ) (data : List UInt8) : List UInt8 :=
  data ++ calcReedSolomonRemainder data (calcReedSolomonGenerator degree)

theorem length_block {degree : ℕ} (h : 0 < degree) (data : List UInt8) :
    (block degree data).length = data.length + degree := by
  rw [block, List.length_append, length_calcReedSolomonRemainder _ (by
    rwa [length_calcReedSolomonGenerator h]), length_calcReedSolomonGenerator h]

/-- Every block is divisible by the generator. -/
theorem dvd_block {degree : ℕ} (h : 0 < degree) (data : List UInt8) :
    ReedSolomon.generator alpha degree ∣ ReedSolomon.poly ((block degree data).map toElement) := by
  have hlen : (ReedSolomon.generatorTaps alpha degree).length = degree :=
    ReedSolomon.length_generatorTaps alpha h
  have hdvd := (ReedSolomon.dvd_checks (hlen ▸ h) (data.map toElement)).2
  rw [hlen, ReedSolomon.poly_generatorTaps alpha h] at hdvd
  rwa [block, List.map_append, map_calcReedSolomonRemainder, map_calcReedSolomonGenerator]

theorem distance_toElement (xs ys : List UInt8) :
    Hamming.distance (xs.map toElement) (ys.map toElement) = Hamming.distance xs ys := by
  rw [Hamming.distance, Hamming.distance, List.zipWith_map]
  simp only [toElement_injective.ne_iff]

section

variable {degree : ℕ} {data data' received : List UInt8}

theorem injOn_block (h : 0 < degree) (hlong : data.length + degree ≤ 255) :
    Set.InjOn (fun n : ℕ => alpha ^ n) (Set.Iio ((block degree data).map toElement).length) := by
  apply alpha_injOn.mono
  intro n hn
  rw [List.length_map, length_block h, Set.mem_Iio] at hn
  exact hn.trans_le hlong

/-- At most half as many wrong codewords as the block has for correction leave one data
sequence possible. -/
theorem data_eq_of_near (h : 0 < degree) (hlen : data.length = data'.length)
    (hlong : data.length + degree ≤ 255)
    (hreceived : received.length = data.length + degree)
    (hnear : 2 * Hamming.distance (block degree data) received ≤ degree)
    (hnear' : 2 * Hamming.distance (block degree data') received ≤ degree) : data = data' := by
  have hblock : ((block degree data).map toElement).length =
      ((block degree data').map toElement).length := by
    rw [List.length_map, List.length_map, length_block h, length_block h, hlen]
  have hrec : (received.map toElement).length = ((block degree data).map toElement).length := by
    rw [List.length_map, List.length_map, length_block h, hreceived]
  have heq := ReedSolomon.eq_of_near (t := degree / 2) hblock hrec (injOn_block h hlong)
    (dvd_block h data) (dvd_block h data') (by rw [distance_toElement]; omega)
    (by rw [distance_toElement]; omega) (Nat.mul_div_le degree 2)
  have hblocks := List.map_injective_iff.mpr toElement_injective heq
  exact (List.append_inj hblocks hlen).1

end

/-- **The multiplication of the source is that of a field**: it is commutative and
associative, 1 is neutral, it distributes over exclusive or, and the powers of 2 are all
bytes but 0, so none of them is a divisor of 0. -/
theorem finiteFieldMultiply_laws (x y z : UInt8) :
    finiteFieldMultiply x y = finiteFieldMultiply y x ∧
      finiteFieldMultiply (finiteFieldMultiply x y) z =
        finiteFieldMultiply x (finiteFieldMultiply y z) ∧
      finiteFieldMultiply 1 x = x ∧
      finiteFieldMultiply x (y ^^^ z) = finiteFieldMultiply x y ^^^ finiteFieldMultiply x z ∧
      (x ≠ 0 → ∃ k < 255, (finiteFieldMultiply 2)^[k] 1 = x) ∧
      (finiteFieldMultiply x y = 0 ↔ x = 0 ∨ y = 0) := by
  refine ⟨?_, ?_, ?_, ?_, fun hx => ?_, ?_⟩
  · apply toElement_injective
    rw [toElement_finiteFieldMultiply, toElement_finiteFieldMultiply, mul_comm]
  · apply toElement_injective
    simp only [toElement_finiteFieldMultiply, mul_assoc]
  · apply toElement_injective
    rw [toElement_finiteFieldMultiply, toElement_one, one_mul]
  · apply toElement_injective
    simp only [toElement_finiteFieldMultiply, toElement_xor, mul_add]
  · obtain ⟨k, hk, hpower⟩ := exists_iterate_double hx
    refine ⟨k, hk, ?_⟩
    have hdouble : finiteFieldMultiply 2 = double := by
      funext b
      apply toElement_injective
      rw [toElement_finiteFieldMultiply, toElement_two, toElement_double]
    rw [hdouble, hpower]
  · rw [← toElement_injective.eq_iff, ← toElement_injective.eq_iff (a := x),
      ← toElement_injective.eq_iff (a := y), toElement_finiteFieldMultiply, toElement_zero,
      mul_eq_zero]

/-- **The blocks of different data are far apart**: they differ in more codewords than
there are for correction. -/
theorem lt_distance_block {degree : ℕ} {data data' : List UInt8} (h : 0 < degree)
    (hlen : data.length = data'.length) (hlong : data.length + degree ≤ 255)
    (hne : data ≠ data') : degree < Hamming.distance (block degree data) (block degree data') := by
  by_contra hclose
  have hblock : ((block degree data).map toElement).length =
      ((block degree data').map toElement).length := by
    rw [List.length_map, List.length_map, length_block h, length_block h, hlen]
  have heq := ReedSolomon.eq_of_distance_le hblock (injOn_block h hlong) (dvd_block h data)
    (dvd_block h data') (by rw [distance_toElement]; omega)
  have hblocks := List.map_injective_iff.mpr toElement_injective heq
  exact hne (List.append_inj hblocks hlen).1

theorem lt_distance_block_pair : 7 < Hamming.distance (block 7 [1, 2]) (block 7 [1, 3]) :=
  lt_distance_block (by decide) (by decide) (by decide) (by decide)

end Shirokumakun.Qr
