/-
One device ID under six seeds.

Xoring a byte in and multiplying by an odd constant both can be undone, so `fnv1a32` is a
fold whose rounds lose nothing.  The credentials of a device come from six hashes of the same
eight bytes; their seeds are different, and so are they.
-/
import Mathlib.Data.List.Forall2
import Mathlib.Data.List.Nodup
import Shirokumakun.HwPairing
import Shirokumakun.Lib.Mixing

namespace Shirokumakun

open Mixing

/-- The inverse of the prime modulo 2^32. -/
def kFnvPrimeInv : UInt32 := 899433627

theorem mul_kFnvPrime_injective : Function.Injective fun h : UInt32 => h * kFnvPrime := by
  intro s t heq
  have hinv : kFnvPrime * kFnvPrimeInv = 1 := by decide
  have hmul : s * kFnvPrime * kFnvPrimeInv = t * kFnvPrime * kFnvPrimeInv :=
    congrArg (· * kFnvPrimeInv) heq
  rw [UInt32.mul_assoc, UInt32.mul_assoc, hinv, UInt32.mul_one, UInt32.mul_one] at hmul
  exact hmul

theorem toUInt32_injective : Function.Injective UInt8.toUInt32 := by
  intro b c heq
  have hval := congrArg UInt32.toNat heq
  rw [UInt8.toNat_toUInt32, UInt8.toNat_toUInt32] at hval
  exact UInt8.toNat_inj.mp hval

/-- **A round of the hash loses nothing.** -/
theorem separating_fnv1a32 :
    Separating fun (h : UInt32) (byte : UInt8) => (h ^^^ byte.toUInt32) * kFnvPrime where
  state byte := by
    intro s t heq
    exact (UInt32.xor_left_inj byte.toUInt32).mp (mul_kFnvPrime_injective heq)
  input s := by
    intro b c heq
    exact toUInt32_injective ((UInt32.xor_right_inj s).mp (mul_kFnvPrime_injective heq))

/-! ### The six hashes of a device -/

/-- The bytes of the device ID. -/
def rawId (id0 id1 : UInt32) : List UInt8 := wordBytes id0 ++ wordBytes id1

/-- The seeds: discriminator, passcode, and the four words of the salt. -/
def initSeeds : List UInt32 :=
  0xD15C0001 :: 0xD15C0002 :: (List.range 4).map fun i => 0xD15C0003 + UInt32.ofNat i

/-- The hashes behind the credentials. -/
def initHashes (id0 id1 : UInt32) : List UInt32 :=
  initSeeds.map (fnv1a32 (rawId id0 id1))

/-- The credentials come from these hashes and from nothing else. -/
theorem init_eq (id0 id1 : UInt32) :
    HwCommissionableData.init id0 id1 =
      { mDiscriminator := ((initHashes id0 id1).getD 0 0 &&& 0x0FFF).toUInt16
        mPasscode := makePasscode ((initHashes id0 id1).getD 1 0)
        mSalt := ((initHashes id0 id1).drop 2).flatMap wordBytes
        mRawReady := true } := by
  have hdisc : (initHashes id0 id1).getD 0 0 = fnv1a32 (rawId id0 id1) 0xD15C0001 := by
    simp only [initHashes, initSeeds, List.map_cons, List.getD_cons_zero]
  have hpass : (initHashes id0 id1).getD 1 0 = fnv1a32 (rawId id0 id1) 0xD15C0002 := by
    simp only [initHashes, initSeeds, List.map_cons, List.getD_cons_zero, List.getD_cons_succ]
  have hsalt : (initHashes id0 id1).drop 2 = (List.range 4).map fun i =>
      fnv1a32 (rawId id0 id1) (0xD15C0003 + UInt32.ofNat i) := by
    simp only [initHashes, initSeeds, List.map_cons, List.map_map, List.drop_succ_cons,
      List.drop_zero, Function.comp_def]
  rw [hdisc, hpass, hsalt, List.flatMap_map]
  unfold HwCommissionableData.init rawId
  dsimp only

theorem nodup_initSeeds : initSeeds.Nodup := by decide

/-- **Seeds separate, and so does each byte.**  Under different seeds the hashes of one
string differ, and under one seed the hashes of two strings that differ in one byte.  So the
six hashes of a device are pairwise different, and two devices whose IDs differ in one byte
have none of the six in common. -/
theorem seed_separation :
    (∀ (data : List UInt8) (s t : UInt32), s ≠ t → fnv1a32 data s ≠ fnv1a32 data t) ∧
      (∀ (seed : UInt32) (xs ys : List UInt8), OneApart xs ys →
        fnv1a32 xs seed ≠ fnv1a32 ys seed) ∧
      (∀ id0 id1, (initHashes id0 id1).Nodup) ∧
      ∀ id0 id1 id0' id1', OneApart (rawId id0 id1) (rawId id0' id1') →
        List.Forall₂ (· ≠ ·) (initHashes id0 id1) (initHashes id0' id1') := by
  have hseeds : ∀ data, Function.Injective (fnv1a32 data) :=
    fun data => separating_fnv1a32.foldl_injective data
  have hbytes : ∀ (seed : UInt32) (xs ys : List UInt8), OneApart xs ys →
      fnv1a32 xs seed ≠ fnv1a32 ys seed :=
    fun seed xs ys hapart => separating_fnv1a32.foldl_ne hapart seed
  refine ⟨?_, hbytes, ?_, ?_⟩
  · intro data s t hne heq
    exact hne (hseeds data heq)
  · intro id0 id1
    exact List.Nodup.map (hseeds _) nodup_initSeeds
  · intro id0 id1 id0' id1' hapart
    unfold initHashes
    rw [List.forall₂_map_left_iff, List.forall₂_map_right_iff, List.forall₂_same]
    intro seed _
    exact hbytes seed _ _ hapart

end Shirokumakun
