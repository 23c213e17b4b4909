/-
Pairing credentials from the device ID, `hw_pairing.cpp`.

The discriminator, which the device broadcasts, and the passcode, which is the secret, are
two FNV-1a hashes of the same eight bytes under different seeds.

Multiplying by an odd prime and xoring bytes in keeps one thing intact: the low bit of the
hash is the low bit of the seed plus the low bits of all bytes (`fnv1a32_mod_two`).  The
two seeds are 1 apart, so the two hashes always differ in their low bit, and since the
passcode is taken modulo an even number that difference reaches the passcode.  The public
discriminator tells whether the secret passcode is even or odd (`passcode_mod_two`),
except for the passcodes that were bumped past a forbidden value.
-/
import Mathlib.Data.List.Basic
import Mathlib.Data.Nat.Bitwise

namespace Shirokumakun

/-! ### FNV-1a -/

def kFnvPrime : UInt32 := 16777619

/-- `fnv1a32`. -/
def fnv1a32 (data : List UInt8) (seed : UInt32) : UInt32 :=
  data.foldl (fun h byte => (h ^^^ byte.toUInt32) * kFnvPrime) seed

theorem fnv1a32_cons (byte : UInt8) (rest : List UInt8) (seed : UInt32) :
    fnv1a32 (byte :: rest) seed = fnv1a32 rest ((seed ^^^ byte.toUInt32) * kFnvPrime) := by
  unfold fnv1a32
  rw [List.foldl_cons]

/-! ### Passcode sanitisation -/

def kForbidden : List UInt32 :=
  [00000000, 11111111, 22222222, 33333333, 44444444,
    55555555, 66666666, 77777777, 88888888, 99999999,
    12345678, 87654321]

/-- The loop over the forbidden values, left at the first hit. -/
def bumpForbidden (code : UInt32) : List UInt32 → UInt32
  | [] => code
  | f :: rest => if code = f then code % 99999998 + 1 else bumpForbidden code rest

/-- `make_passcode`. -/
def makePasscode (h : UInt32) : UInt32 := bumpForbidden (h % 99999998 + 1) kForbidden

/-- A passcode that the Matter specification admits. -/
def ValidPasscode (p : UInt32) : Prop := 1 ≤ p ∧ p ≤ 99999998 ∧ p ∉ kForbidden

instance (p : UInt32) : Decidable (ValidPasscode p) :=
  inferInstanceAs (Decidable (_ ∧ _))

/-! ### The provider -/

/-- `memcpy` of a word on a little-endian machine. -/
def wordBytes (w : UInt32) : List UInt8 :=
  [w.toUInt8, (w >>> 8).toUInt8, (w >>> 16).toUInt8, (w >>> 24).toUInt8]

/-- What `HwCommissionableDataProvider::Init` stores. -/
structure HwCommissionableData where
  mDiscriminator : UInt16
  mPasscode : UInt32
  mSalt : List UInt8
  mRawReady : Bool
deriving DecidableEq

/-- `HwCommissionableDataProvider::Init`, from the two words of `DEVICEID`. -/
def HwCommissionableData.init (id0 id1 : UInt32) : HwCommissionableData :=
  let raw := wordBytes id0 ++ wordBytes id1
  let hDisc := fnv1a32 raw 0xD15C0001
  let hPass := fnv1a32 raw 0xD15C0002
  { mDiscriminator := (hDisc &&& 0x0FFF).toUInt16
    mPasscode := makePasscode hPass
    mSalt := (List.range 4).flatMap fun i =>
      wordBytes (fnv1a32 raw (0xD15C0003 + UInt32.ofNat i))
    mRawReady := true }

/-! ### The low bit -/

theorem round_mod_two (h : UInt32) (byte : UInt8) :
    ((h ^^^ byte.toUInt32) * kFnvPrime).toNat % 2 = (h.toNat + byte.toNat) % 2 := by
  rw [UInt32.toNat_mul, UInt32.toNat_xor, UInt8.toNat_toUInt32]
  have hodd : kFnvPrime.toNat % 2 = 1 := rfl
  rw [Nat.mod_mod_of_dvd _ (by decide : 2 ∣ 2 ^ 32), Nat.mul_mod, hodd, Nat.mul_one, Nat.mod_mod,
    Nat.xor_mod_two_eq]

/-- **The low bit of the hash** is the parity of the seed and of all bytes together. -/
theorem fnv1a32_mod_two (data : List UInt8) (seed : UInt32) :
    (fnv1a32 data seed).toNat % 2 = (seed.toNat + (data.map UInt8.toNat).sum) % 2 := by
  induction data generalizing seed with
  | nil => simp [fnv1a32]
  | cons byte rest ih =>
      have hround := round_mod_two seed byte
      rw [fnv1a32_cons, ih, List.map_cons, List.sum_cons]
      omega

theorem mDiscriminator_mod_two (id0 id1 : UInt32) :
    (HwCommissionableData.init id0 id1).mDiscriminator.toNat % 2
      = (fnv1a32 (wordBytes id0 ++ wordBytes id1) 0xD15C0001).toNat % 2 := by
  show (fnv1a32 _ _ &&& 0x0FFF).toUInt16.toNat % 2 = _
  rw [UInt32.toNat_toUInt16, UInt32.toNat_and]
  show ((fnv1a32 _ _).toNat &&& (2 ^ 12 - 1)) % 2 ^ 16 % 2 = _
  rw [Nat.and_two_pow_sub_one_eq_mod]
  omega

/-! ### The passcode -/

theorem bumpForbidden_eq (code : UInt32) (forbidden : List UInt32) :
    bumpForbidden code forbidden = if code ∈ forbidden then code % 99999998 + 1 else code := by
  induction forbidden with
  | nil => simp [bumpForbidden]
  | cons f rest ih =>
      unfold bumpForbidden
      by_cases hf : code = f
      · simp [hf]
      · simp [hf, ih]

/-- The passcode before it is checked: 1 to 99999998, and its parity is the other one. -/
theorem toNat_code (h : UInt32) : (h % 99999998 + 1).toNat = h.toNat % 99999998 + 1 := by
  rw [UInt32.toNat_add, UInt32.toNat_mod]
  show (h.toNat % 99999998 + 1) % 2 ^ 32 = h.toNat % 99999998 + 1
  omega

/-- A passcode is what the hash gave, or one more than a forbidden value. -/
theorem makePasscode_cases (h : UInt32) :
    (makePasscode h = h % 99999998 + 1) ∨ makePasscode h - 1 ∈ kForbidden := by
  unfold makePasscode
  rw [bumpForbidden_eq]
  by_cases hmem : h % 99999998 + 1 ∈ kForbidden
  · right
    rw [if_pos hmem]
    have hlt : (h % 99999998 + 1) % 99999998 = h % 99999998 + 1 := by
      have hne : h % 99999998 + 1 ≠ 99999998 := by
        intro heq
        rw [heq] at hmem
        exact absurd hmem (by decide)
      have hne' : (h % 99999998 + 1).toNat ≠ 99999998 := by
        intro heq
        exact hne (UInt32.toNat_inj.mp heq)
      rw [← UInt32.toNat_inj, UInt32.toNat_mod]
      rw [toNat_code] at hne' ⊢
      show (h.toNat % 99999998 + 1) % 99999998 = _
      omega
    rw [hlt, UInt32.add_sub_cancel]
    exact hmem
  · left
    rw [if_neg hmem]

/-- **The passcode has the parity of the discriminator**, unless it was bumped. -/
theorem passcode_mod_two (id0 id1 : UInt32) :
    (HwCommissionableData.init id0 id1).mPasscode.toNat % 2
        = (HwCommissionableData.init id0 id1).mDiscriminator.toNat % 2 ∨
      (HwCommissionableData.init id0 id1).mPasscode - 1 ∈ kForbidden := by
  rcases makePasscode_cases (fnv1a32 (wordBytes id0 ++ wordBytes id1) 0xD15C0002) with
    hcode | hbumped
  · left
    have hpass := fnv1a32_mod_two (wordBytes id0 ++ wordBytes id1) 0xD15C0002
    have hdisc := fnv1a32_mod_two (wordBytes id0 ++ wordBytes id1) 0xD15C0001
    have hseeds : (0xD15C0002 : UInt32).toNat = (0xD15C0001 : UInt32).toNat + 1 := rfl
    rw [mDiscriminator_mod_two]
    show (makePasscode _).toNat % 2 = _
    -- The modulus is even, so reducing the hash keeps its parity and adding 1 flips it.
    rw [hcode, toNat_code]
    omega
  · exact Or.inr hbumped

/-- **Every discriminator rules passcodes out**: all valid ones of the other parity, apart
from the successors of forbidden values. -/
theorem discriminator_excludes (d : UInt16) :
    (∀ p, p.toNat % 2 ≠ d.toNat % 2 → p - 1 ∉ kForbidden →
      ¬ ∃ id0 id1, (HwCommissionableData.init id0 id1).mDiscriminator = d ∧
        (HwCommissionableData.init id0 id1).mPasscode = p) ∧
    ¬ ∀ p, ValidPasscode p →
      ∃ id0 id1, (HwCommissionableData.init id0 id1).mDiscriminator = d ∧
        (HwCommissionableData.init id0 id1).mPasscode = p := by
  have hexcluded : ∀ p : UInt32, p.toNat % 2 ≠ d.toNat % 2 → p - 1 ∉ kForbidden →
      ¬ ∃ id0 id1, (HwCommissionableData.init id0 id1).mDiscriminator = d ∧
        (HwCommissionableData.init id0 id1).mPasscode = p := by
    rintro p hparity hbumped ⟨id0, id1, hd, hp⟩
    rcases passcode_mod_two id0 id1 with heq | hmem
    · rw [hd, hp] at heq
      exact hparity heq
    · rw [hp] at hmem
      exact hbumped hmem
  refine ⟨hexcluded, ?_⟩
  intro hall
  rcases Nat.mod_two_eq_zero_or_one d.toNat with heven | hodd
  · exact hexcluded 3 (by rw [heven]; decide) (by decide) (hall 3 (by decide))
  · exact hexcluded 6 (by rw [hodd]; decide) (by decide) (hall 6 (by decide))

/-- A device with discriminator 0 never has passcode 3. -/
theorem passcode_three_excluded : ValidPasscode 3 ∧
    ¬ ∃ id0 id1, (HwCommissionableData.init id0 id1).mDiscriminator = 0 ∧
      (HwCommissionableData.init id0 id1).mPasscode = 3 := by
  refine ⟨by decide, ?_⟩
  rintro ⟨id0, id1, hd, hp⟩
  rcases passcode_mod_two id0 id1 with heq | hmem
  · rw [hd, hp] at heq
    exact absurd heq (by decide)
  · rw [hp] at hmem
    exact absurd hmem (by decide)

end Shirokumakun
