/-
How the hashes spread over the passcodes.

`make_passcode` is a residue modulo 99999998, moved on by one where it is forbidden.  So a
valid passcode comes from the hashes of one residue class, and from those of a second if
its predecessor is forbidden; and a class has 42 or 43 of the 2^32 hashes.
-/
import Mathlib.Data.Int.CardIntervalMod
import Mathlib.SetTheory.Cardinal.Finite
import Shirokumakun.HwPairing

namespace Shirokumakun

/-- The successor of a forbidden value, taken as the code takes it, is valid. -/
theorem validPasscode_bumped {f : UInt32} (h : f ∈ kForbidden) :
    ValidPasscode (f % 99999998 + 1) := by
  have hall : kForbidden.all (fun f => ValidPasscode (f % 99999998 + 1)) = true := by decide
  exact of_decide_eq_true (List.all_eq_true.mp hall f h)

/-- A forbidden value that a hash can give has itself plus one as its successor. -/
theorem toNat_bumped {h : UInt32} (hmem : h % 99999998 + 1 ∈ kForbidden) :
    ((h % 99999998 + 1) % 99999998 + 1).toNat = h.toNat % 99999998 + 2 := by
  have hne : (h % 99999998 + 1).toNat ≠ 99999998 := by
    intro heq
    have hcode : h % 99999998 + 1 = 99999998 := UInt32.toNat_inj.mp heq
    rw [hcode] at hmem
    exact absurd hmem (by decide)
  rw [toNat_code] at hne
  rw [toNat_code, toNat_code]
  omega

theorem validPasscode_makePasscode (h : UInt32) : ValidPasscode (makePasscode h) := by
  unfold makePasscode
  rw [bumpForbidden_eq]
  by_cases hmem : h % 99999998 + 1 ∈ kForbidden
  · rw [if_pos hmem]
    exact validPasscode_bumped hmem
  · rw [if_neg hmem]
    refine ⟨?_, ?_, hmem⟩
    · rw [UInt32.le_iff_toNat_le, toNat_code]
      show 1 ≤ _
      omega
    · rw [UInt32.le_iff_toNat_le, toNat_code]
      show _ ≤ 99999998
      omega

/-- **The hashes of a passcode**, by their residue: those of the passcode itself, and those
of its predecessor if that is forbidden. -/
theorem makePasscode_eq_iff {p : UInt32} (hp : ValidPasscode p) (h : UInt32) :
    makePasscode h = p ↔ h.toNat % 99999998 + 1 = p.toNat ∨
      (p - 1 ∈ kForbidden ∧ h.toNat % 99999998 + 2 = p.toNat) := by
  have hone : 1 ≤ p.toNat := UInt32.le_iff_toNat_le.mp hp.1
  have hpred : (p - 1).toNat = p.toNat - 1 := UInt32.toNat_sub_of_le _ _ hp.1
  unfold makePasscode
  rw [bumpForbidden_eq]
  by_cases hmem : h % 99999998 + 1 ∈ kForbidden
  · rw [if_pos hmem, ← UInt32.toNat_inj, toNat_bumped hmem]
    constructor
    · intro heq
      have hcode : h % 99999998 + 1 = p - 1 := by
        rw [← UInt32.toNat_inj, toNat_code, hpred]
        omega
      exact Or.inr ⟨hcode ▸ hmem, heq⟩
    · rintro (heq | ⟨-, heq⟩)
      · have hcode : h % 99999998 + 1 = p := by
          rw [← UInt32.toNat_inj, toNat_code]
          exact heq
        rw [hcode] at hmem
        exact absurd hmem hp.2.2
      · exact heq
  · rw [if_neg hmem, ← UInt32.toNat_inj, toNat_code]
    constructor
    · intro heq
      exact Or.inl heq
    · rintro (heq | ⟨hforbidden, heq⟩)
      · exact heq
      · have hcode : h % 99999998 + 1 = p - 1 := by
          rw [← UInt32.toNat_inj, toNat_code, hpred]
          omega
        rw [hcode] at hmem
        exact absurd hforbidden hmem

/-! ### Counting hashes -/

/-- A property of the hash as a number holds of as many hashes as of numbers below 2^32. -/
theorem card_hashes (Q : ℕ → Prop) [DecidablePred Q] :
    Nat.card {h : UInt32 // Q h.toNat} = ((Finset.range (2 ^ 32)).filter Q).card := by
  have hinj : Set.InjOn UInt32.ofNat ((Finset.range (2 ^ 32)).filter Q) := by
    intro m hm n hn heq
    have hm' : m < 2 ^ 32 := Finset.mem_range.mp (Finset.mem_filter.mp hm).1
    have hn' : n < 2 ^ 32 := Finset.mem_range.mp (Finset.mem_filter.mp hn).1
    have hval := congrArg UInt32.toNat heq
    rw [UInt32.toNat_ofNat_of_lt' hm', UInt32.toNat_ofNat_of_lt' hn'] at hval
    exact hval
  rw [← Finset.card_image_of_injOn hinj]
  apply Nat.subtype_card
  intro h
  rw [Finset.mem_image]
  constructor
  · rintro ⟨n, hn, rfl⟩
    obtain ⟨hlt, hQ⟩ := Finset.mem_filter.mp hn
    rw [UInt32.toNat_ofNat_of_lt' (Finset.mem_range.mp hlt)]
    exact hQ
  · intro hQ
    refine ⟨h.toNat, Finset.mem_filter.mpr ⟨Finset.mem_range.mpr h.toNat_lt, hQ⟩, ?_⟩
    exact UInt32.ofNat_toNat

/-- A residue class below `b` has the quotient of `b` members, or one more. -/
theorem card_residue (b : ℕ) {m r : ℕ} (hm : 0 < m) (hr : r < m) :
    b / m ≤ ((Finset.range b).filter fun n => n % m = r).card ∧
      ((Finset.range b).filter fun n => n % m = r).card ≤ b / m + 1 := by
  have hcount := Nat.count_modEq_card b hm r
  rw [Nat.count_eq_card_filter_range] at hcount
  have hfilter : ((Finset.range b).filter fun n => n % m = r)
      = (Finset.range b).filter fun n => n ≡ r [MOD m] := by
    apply Finset.filter_congr
    intro n _
    unfold Nat.ModEq
    rw [Nat.mod_eq_of_lt hr]
  rw [hfilter, hcount]
  by_cases hlt : r % m < b % m
  · rw [if_pos hlt]
    omega
  · rw [if_neg hlt]
    omega

/-- So many hashes leave a given residue. -/
theorem card_hashResidue {r : ℕ} (hr : r < 99999998) :
    42 ≤ ((Finset.range (2 ^ 32)).filter fun n => n % 99999998 = r).card ∧
      ((Finset.range (2 ^ 32)).filter fun n => n % 99999998 = r).card ≤ 43 := by
  have hcard := card_residue (2 ^ 32) (by norm_num) hr
  have hquot : 2 ^ 32 / 99999998 = 42 := by norm_num
  rw [hquot] at hcard
  exact hcard

/-- **The passcodes are covered, nearly evenly.**  Every hash gives a valid passcode, and
every valid passcode comes from at least 42 and at most 86 of the 2^32 hashes. -/
theorem passcode_cover :
    (∀ h : UInt32, ValidPasscode (makePasscode h)) ∧
      ∀ p : UInt32, ValidPasscode p →
        42 ≤ Nat.card {h : UInt32 // makePasscode h = p} ∧
          Nat.card {h : UInt32 // makePasscode h = p} ≤ 86 := by
  refine ⟨validPasscode_makePasscode, ?_⟩
  intro p hp
  have hone : 1 ≤ p.toNat := UInt32.le_iff_toNat_le.mp hp.1
  have hmax : p.toNat ≤ 99999998 := UInt32.le_iff_toNat_le.mp hp.2.1
  let own := (Finset.range (2 ^ 32)).filter fun n => n % 99999998 = p.toNat - 1
  let before := (Finset.range (2 ^ 32)).filter fun n => n % 99999998 + 2 = p.toNat
  let Q : ℕ → Prop := fun n => n % 99999998 + 1 = p.toNat ∨
    (p - 1 ∈ kForbidden ∧ n % 99999998 + 2 = p.toNat)
  have hcard : Nat.card {h : UInt32 // makePasscode h = p}
      = ((Finset.range (2 ^ 32)).filter Q).card := by
    rw [← card_hashes Q]
    exact Nat.card_congr (Equiv.subtypeEquivRight fun h => makePasscode_eq_iff hp h)
  have hown : 42 ≤ own.card ∧ own.card ≤ 43 := card_hashResidue (by omega)
  -- Only a passcode above 1 has a predecessor that a hash can give.
  have hbefore : before.card ≤ 43 := by
    by_cases htwo : 2 ≤ p.toNat
    · have hsub : before ⊆ (Finset.range (2 ^ 32)).filter fun n => n % 99999998 = p.toNat - 2 := by
        intro n hn
        obtain ⟨hlt, heq⟩ := Finset.mem_filter.mp hn
        exact Finset.mem_filter.mpr ⟨hlt, by omega⟩
      exact (Finset.card_le_card hsub).trans (card_hashResidue (by omega)).2
    · have hempty : before = ∅ := by
        apply Finset.filter_eq_empty_iff.mpr
        intro n _
        omega
      rw [hempty, Finset.card_empty]
      omega
  have hlower : own ⊆ (Finset.range (2 ^ 32)).filter Q := by
    intro n hn
    obtain ⟨hlt, heq⟩ := Finset.mem_filter.mp hn
    exact Finset.mem_filter.mpr ⟨hlt, Or.inl (by omega)⟩
  have hupper : (Finset.range (2 ^ 32)).filter Q ⊆ own ∪ before := by
    intro n hn
    obtain ⟨hlt, hQ⟩ := Finset.mem_filter.mp hn
    rcases hQ with heq | ⟨-, heq⟩
    · exact Finset.mem_union_left _ (Finset.mem_filter.mpr ⟨hlt, by omega⟩)
    · exact Finset.mem_union_right _ (Finset.mem_filter.mpr ⟨hlt, heq⟩)
  rw [hcard]
  refine ⟨hown.1.trans (Finset.card_le_card hlower), ?_⟩
  have hunion := (Finset.card_le_card hupper).trans (Finset.card_union_le own before)
  omega

end Shirokumakun
