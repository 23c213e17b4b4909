/-
Capacity: how many codewords a version has, and which version and level are chosen.

The tables are those of the source, an illegal entry at index 0 included; nothing below
reads that entry, since every version is at least 1.  What the rest of the development
needs of the numbers is in `Layout`, checked once for all forty versions and four
levels: there is at least one block, every block has data, no block is longer than 255
codewords, and a level up never has more room.

The search for a version stops at the first that fits, and the level is then raised as
far as the data still fits.  The loop over the levels assigns every level that fits,
the lower ones too; that it never ends below the level it started from is because the
room shrinks with the level.
-/
import Shirokumakun.Qr.Payloads

namespace Shirokumakun.Qr

/-! ### The tables -/

inductive Ecc
  | low | medium | quartile | high
  deriving DecidableEq, Repr

/-- The number the enumeration gives the level. -/
def Ecc.index : Ecc → ℕ
  | low => 0
  | medium => 1
  | quartile => 2
  | high => 3

def versionMin : ℕ := 1

def versionMax : ℕ := 40

def eccCodewordsPerBlock : List (List ℤ) :=
  [[-1, 7, 10, 15, 20, 26, 18, 20, 24, 30, 18, 20, 24, 26, 30, 22, 24, 28, 30, 28, 28, 28, 28, 30,
      30, 26, 28, 30, 30, 30, 30, 30, 30, 30, 30, 30, 30, 30, 30, 30, 30],
    [-1, 10, 16, 26, 18, 24, 16, 18, 22, 22, 26, 30, 22, 22, 24, 24, 28, 28, 26, 26, 26, 26, 28, 28,
      28, 28, 28, 28, 28, 28, 28, 28, 28, 28, 28, 28, 28, 28, 28, 28, 28],
    [-1, 13, 22, 18, 26, 18, 24, 18, 22, 20, 24, 28, 26, 24, 20, 30, 24, 28, 28, 26, 30, 28, 30, 30,
      30, 30, 28, 30, 30, 30, 30, 30, 30, 30, 30, 30, 30, 30, 30, 30, 30],
    [-1, 17, 28, 22, 16, 22, 28, 26, 26, 24, 28, 24, 28, 22, 24, 24, 30, 28, 28, 26, 28, 30, 24, 30,
      30, 30, 30, 30, 30, 30, 30, 30, 30, 30, 30, 30, 30, 30, 30, 30, 30]]

def numErrorCorrectionBlocks : List (List ℤ) :=
  [[-1, 1, 1, 1, 1, 1, 2, 2, 2, 2, 4, 4, 4, 4, 4, 6, 6, 6, 6, 7, 8, 8, 9, 9, 10, 12, 12, 12, 13,
      14, 15, 16, 17, 18, 19, 19, 20, 21, 22, 24, 25],
    [-1, 1, 1, 1, 2, 2, 4, 4, 4, 5, 5, 5, 8, 9, 9, 10, 10, 11, 13, 14, 16, 17, 17, 18, 20, 21, 23,
      25, 26, 28, 29, 31, 33, 35, 37, 38, 40, 43, 45, 47, 49],
    [-1, 1, 1, 2, 2, 4, 4, 6, 6, 8, 8, 8, 10, 12, 16, 12, 17, 16, 18, 21, 20, 23, 23, 25, 27, 29,
      34, 34, 35, 38, 40, 43, 45, 48, 51, 53, 56, 59, 62, 65, 68],
    [-1, 1, 1, 2, 4, 4, 4, 5, 6, 8, 8, 11, 11, 16, 16, 18, 16, 19, 21, 25, 25, 25, 34, 30, 32, 35,
      37, 40, 42, 45, 48, 51, 54, 57, 60, 63, 66, 70, 74, 77, 81]]

/-- `ECC_CODEWORDS_PER_BLOCK[ecl][version]` -/
def blockEccLen (version : ℕ) (ecl : Ecc) : ℕ :=
  ((eccCodewordsPerBlock.getD ecl.index []).getD version (-1)).toNat

/-- `NUM_ERROR_CORRECTION_BLOCKS[ecl][version]` -/
def numBlocks (version : ℕ) (ecl : Ecc) : ℕ :=
  ((numErrorCorrectionBlocks.getD ecl.index []).getD version (-1)).toNat

/-- `qrcodegen_BUFFER_LEN_FOR_VERSION` -/
def bufferLenForVersion (n : ℕ) : ℕ := ((n * 4 + 17) * (n * 4 + 17) + 7) / 8 + 1

def getNumRawDataModules (ver : ℕ) : ℕ :=
  let result := (16 * ver + 128) * ver + 64
  if 2 ≤ ver then
    let numAlign := ver / 7 + 2
    let result := result - ((25 * numAlign - 10) * numAlign - 55)
    if 7 ≤ ver then result - 36 else result
  else result

def getNumDataCodewords (version : ℕ) (ecl : Ecc) : ℕ :=
  getNumRawDataModules version / 8 - blockEccLen version ecl * numBlocks version ecl

/-! ### What the tables promise -/

/-- The versions there are. -/
def Version (version : ℕ) : Prop := versionMin ≤ version ∧ version ≤ versionMax

/-- The numbers of one version and level fit together. -/
structure Layout (version : ℕ) (ecl : Ecc) : Prop where
  blocks_pos : 0 < numBlocks version ecl
  ecc_pos : 0 < blockEccLen version ecl
  ecc_le : blockEccLen version ecl ≤ 30
  data_pos : blockEccLen version ecl < getNumRawDataModules version / 8 / numBlocks version ecl
  block_le : getNumRawDataModules version / 8 / numBlocks version ecl + 1 ≤ 255
  raw_le : getNumRawDataModules version / 8 ≤ bufferLenForVersion version

def layoutCheck (version : ℕ) (ecl : Ecc) : Bool :=
  decide (0 < numBlocks version ecl) && decide (0 < blockEccLen version ecl) &&
    decide (blockEccLen version ecl ≤ 30) &&
    decide (blockEccLen version ecl < getNumRawDataModules version / 8 / numBlocks version ecl) &&
    decide (getNumRawDataModules version / 8 / numBlocks version ecl + 1 ≤ 255) &&
    decide (getNumRawDataModules version / 8 ≤ bufferLenForVersion version)

/-- The levels in the order of the enumeration. -/
def Ecc.all : List Ecc := [low, medium, quartile, high]

theorem Ecc.mem_all (ecl : Ecc) : ecl ∈ Ecc.all := by
  cases ecl <;> decide

theorem layoutCheck_all :
    ∀ version ∈ List.range 40, ∀ ecl ∈ Ecc.all, layoutCheck (version + 1) ecl = true := by
  decide +kernel

theorem Version.exists_mem {version : ℕ} (h : Version version) :
    ∃ v ∈ List.range 40, version = v + 1 := by
  obtain ⟨hmin, hmax⟩ := h
  rw [versionMin] at hmin
  rw [versionMax] at hmax
  exact ⟨version - 1, List.mem_range.mpr (by omega), by omega⟩

theorem Version.layout {version : ℕ} (h : Version version) (ecl : Ecc) : Layout version ecl := by
  obtain ⟨v, hv, rfl⟩ := h.exists_mem
  have hcheck := layoutCheck_all v hv ecl ecl.mem_all
  simp only [layoutCheck, Bool.and_eq_true, decide_eq_true_eq] at hcheck
  obtain ⟨⟨⟨⟨⟨hblocks, heccpos⟩, hecc⟩, hdata⟩, hblock⟩, hraw⟩ := hcheck
  exact ⟨hblocks, heccpos, hecc, hdata, hblock, hraw⟩

theorem capacity_antitone_check :
    ∀ version ∈ List.range 40, ∀ a ∈ Ecc.all, ∀ b ∈ Ecc.all, a.index ≤ b.index →
      getNumDataCodewords (version + 1) b ≤ getNumDataCodewords (version + 1) a := by
  decide +kernel

/-- A higher level never has more room. -/
theorem capacity_antitone {version : ℕ} (h : Version version) {a b : Ecc}
    (hab : a.index ≤ b.index) : getNumDataCodewords version b ≤ getNumDataCodewords version a := by
  obtain ⟨v, hv, rfl⟩ := h.exists_mem
  exact capacity_antitone_check v hv a a.mem_all b b.mem_all hab

namespace Layout

variable {version : ℕ} {ecl : Ecc}

theorem ecc_total_le (h : Layout version ecl) :
    blockEccLen version ecl * numBlocks version ecl ≤ getNumRawDataModules version / 8 :=
  (Nat.mul_le_mul_right _ h.data_pos.le).trans (Nat.div_mul_le_self _ _)

/-- Data and correction codewords together are all the codewords there are. -/
theorem data_add_ecc (h : Layout version ecl) :
    getNumDataCodewords version ecl + blockEccLen version ecl * numBlocks version ecl =
      getNumRawDataModules version / 8 :=
  Nat.sub_add_cancel h.ecc_total_le

theorem data_le_buffer (h : Layout version ecl) :
    getNumDataCodewords version ecl ≤ bufferLenForVersion version :=
  (Nat.sub_le _ _).trans h.raw_le

end Layout

/-! ### The search for a version -/

/-- The loop over the versions; `none` where all of the range are too small. -/
def findVersion (segs : List Segment) (ecl : Ecc) (maxVersion : ℕ) : ℕ → ℕ → Option (ℕ × ℕ)
  | 0, _ => none
  | fuel + 1, version =>
      let dataCapacityBits := getNumDataCodewords version ecl * 8
      match getTotalBits segs version with
      | some dataUsedBits =>
          if dataUsedBits ≤ dataCapacityBits then some (version, dataUsedBits)
          else if maxVersion ≤ version then none
          else findVersion segs ecl maxVersion fuel (version + 1)
      | none =>
          if maxVersion ≤ version then none
          else findVersion segs ecl maxVersion fuel (version + 1)

/-- The search from the smallest version of the range. -/
def chooseVersion (segs : List Segment) (ecl : Ecc) (minVersion maxVersion : ℕ) :
    Option (ℕ × ℕ) :=
  findVersion segs ecl maxVersion (maxVersion - minVersion + 1) minVersion

/-- The loop that raises the level. -/
def boost (boostEcl : Bool) (version dataUsedBits : ℕ) (ecl : Ecc) : Ecc :=
  [Ecc.medium, Ecc.quartile, Ecc.high].foldl (fun ecl i =>
    if boostEcl && decide (dataUsedBits ≤ getNumDataCodewords version i * 8) then i else ecl) ecl

/-- The segments fit the version at the level. -/
def Fits (segs : List Segment) (version : ℕ) (ecl : Ecc) : Prop :=
  CountsFit version segs ∧ (segmentsBits version segs).length ≤ int16Max ∧
    (segmentsBits version segs).length ≤ getNumDataCodewords version ecl * 8

theorem fits_iff {segs : List Segment} {version : ℕ} {ecl : Ecc} :
    Fits segs version ecl ↔
      ∃ n, getTotalBits segs version = some n ∧ n ≤ getNumDataCodewords version ecl * 8 := by
  constructor
  · rintro ⟨hcount, hmax, hcap⟩
    exact ⟨_, getTotalBits_eq_some_iff.mpr ⟨hcount, rfl, hmax⟩, hcap⟩
  · rintro ⟨n, hn, hcap⟩
    obtain ⟨hcount, rfl, hmax⟩ := getTotalBits_eq_some_iff.mp hn
    exact ⟨hcount, hmax, hcap⟩

section

variable {segs : List Segment} {ecl : Ecc} {maxVersion : ℕ}

theorem findVersion_of_fits {fuel version n : ℕ} (hn : getTotalBits segs version = some n)
    (hcap : n ≤ getNumDataCodewords version ecl * 8) :
    findVersion segs ecl maxVersion (fuel + 1) version = some (version, n) := by
  rw [findVersion, hn]
  exact if_pos hcap

theorem findVersion_of_not_fits {fuel version : ℕ} (h : ¬ Fits segs version ecl) :
    findVersion segs ecl maxVersion (fuel + 1) version =
      if maxVersion ≤ version then none
      else findVersion segs ecl maxVersion fuel (version + 1) := by
  rw [findVersion]
  cases hbits : getTotalBits segs version with
  | none => rfl
  | some n =>
      have hcap : ¬ n ≤ getNumDataCodewords version ecl * 8 :=
        fun hcap => h (fits_iff.mpr ⟨n, hbits, hcap⟩)
      exact if_neg hcap

/-- What the search returns, from any version of the range on. -/
theorem findVersion_spec {fuel version : ℕ} (hversion : version ≤ maxVersion)
    (hfuel : maxVersion - version < fuel) :
    (∃ v, version ≤ v ∧ v ≤ maxVersion ∧ Fits segs v ecl ∧
      (∀ w, version ≤ w → w < v → ¬ Fits segs w ecl) ∧
      findVersion segs ecl maxVersion fuel version =
        some (v, (segmentsBits v segs).length)) ∨
    (∀ w, version ≤ w → w ≤ maxVersion → ¬ Fits segs w ecl) ∧
      findVersion segs ecl maxVersion fuel version = none := by
  induction fuel generalizing version with
  | zero => omega
  | succ fuel ih =>
      by_cases hfits : Fits segs version ecl
      · left
        obtain ⟨n, hn, hcap⟩ := fits_iff.mp hfits
        have hlen := (getTotalBits_eq_some_iff.mp hn).2.1
        refine ⟨version, le_rfl, hversion, hfits, fun w hw hlt => absurd hlt (by omega), ?_⟩
        rw [findVersion_of_fits hn hcap, hlen]
      · rw [findVersion_of_not_fits hfits]
        by_cases hlast : maxVersion ≤ version
        · right
          rw [if_pos hlast]
          refine ⟨fun w hw hmax => ?_, rfl⟩
          obtain rfl : w = version := by omega
          exact hfits
        · rw [if_neg hlast]
          have hbelow : ∀ w, version ≤ w → ¬ version + 1 ≤ w → ¬ Fits segs w ecl := by
            intro w hw hnext
            obtain rfl : w = version := by omega
            exact hfits
          have hnextver : version + 1 ≤ maxVersion := by omega
          rcases ih hnextver (by omega) with
            ⟨v, hv, hmax, hvfits, hfirst, hfind⟩ | ⟨hnone, hfind⟩
          · left
            refine ⟨v, by omega, hmax, hvfits, fun w hw hlt => ?_, hfind⟩
            by_cases hnext : version + 1 ≤ w
            · exact hfirst w hnext hlt
            · exact hbelow w hw hnext
          · right
            refine ⟨fun w hw hle => ?_, hfind⟩
            by_cases hnext : version + 1 ≤ w
            · exact hnone w hnext hle
            · exact hbelow w hw hnext

end

/-- The search succeeds exactly when some version of the range fits, and returns the
first that does. -/
theorem chooseVersion_eq_some_iff {segs : List Segment} {ecl : Ecc}
    {minVersion maxVersion version n : ℕ} (hrange : minVersion ≤ maxVersion) :
    chooseVersion segs ecl minVersion maxVersion = some (version, n) ↔
      minVersion ≤ version ∧ version ≤ maxVersion ∧ Fits segs version ecl ∧
        (∀ w, minVersion ≤ w → w < version → ¬ Fits segs w ecl) ∧
        n = (segmentsBits version segs).length := by
  rw [chooseVersion]
  rcases findVersion_spec hrange (Nat.lt_succ_self (maxVersion - minVersion)) with
    ⟨v, hmin, hmax, hfits, hfirst, hfind⟩ | ⟨hnone, hfind⟩
  · rw [hfind, Option.some.injEq, Prod.mk.injEq]
    constructor
    · rintro ⟨rfl, rfl⟩
      exact ⟨hmin, hmax, hfits, hfirst, rfl⟩
    · rintro ⟨hmin', -, hfits', hfirst', rfl⟩
      have hle : version ≤ v := Nat.le_of_not_lt fun hlt => hfirst' v hmin hlt hfits
      have hge : v ≤ version := Nat.le_of_not_lt fun hlt => hfirst version hmin' hlt hfits'
      obtain rfl := Nat.le_antisymm hle hge
      exact ⟨rfl, rfl⟩
  · rw [hfind]
    refine ⟨fun h => absurd h (by simp), ?_⟩
    rintro ⟨hmin, hmax, hfits, -⟩
    exact absurd hfits (hnone version hmin hmax)

theorem chooseVersion_eq_none_iff {segs : List Segment} {ecl : Ecc} {minVersion maxVersion : ℕ}
    (hrange : minVersion ≤ maxVersion) :
    chooseVersion segs ecl minVersion maxVersion = none ↔
      ∀ w, minVersion ≤ w → w ≤ maxVersion → ¬ Fits segs w ecl := by
  rw [chooseVersion]
  rcases findVersion_spec hrange (Nat.lt_succ_self (maxVersion - minVersion)) with
    ⟨v, hmin, hmax, hfits, hfirst, hfind⟩ | ⟨hnone, hfind⟩
  · rw [hfind]
    refine ⟨fun h => absurd h (by simp), fun h => absurd hfits (h v hmin hmax)⟩
  · rw [hfind]
    exact ⟨fun _ => hnone, fun _ => rfl⟩

/-! ### The level that is reached -/

/-- Raising keeps the data fitting, never lowers the level, and reaches the highest
level that fits. -/
theorem boost_spec {version n : ℕ} {ecl : Ecc} (h : Version version)
    (hfits : n ≤ getNumDataCodewords version ecl * 8) :
    n ≤ getNumDataCodewords version (boost true version n ecl) * 8 ∧
      ecl.index ≤ (boost true version n ecl).index ∧
      ∀ e, n ≤ getNumDataCodewords version e * 8 → e.index ≤ (boost true version n ecl).index := by
  have hdown : ∀ a b : Ecc, a.index ≤ b.index → n ≤ getNumDataCodewords version b * 8 →
      n ≤ getNumDataCodewords version a * 8 := fun a b hab hb =>
    hb.trans (Nat.mul_le_mul_right 8 (capacity_antitone h hab))
  have hunfold : boost true version n ecl =
      if n ≤ getNumDataCodewords version .high * 8 then .high
      else if n ≤ getNumDataCodewords version .quartile * 8 then .quartile
      else if n ≤ getNumDataCodewords version .medium * 8 then .medium
      else ecl := by
    simp [boost]
  -- the highest level that fits decides, whatever level the loop started from
  rw [hunfold]
  by_cases hhigh : n ≤ getNumDataCodewords version .high * 8
  · rw [if_pos hhigh]
    refine ⟨hhigh, by cases ecl <;> decide, fun e _ => by cases e <;> decide⟩
  · rw [if_neg hhigh]
    by_cases hquartile : n ≤ getNumDataCodewords version .quartile * 8
    · have hmost : ∀ e, n ≤ getNumDataCodewords version e * 8 → e.index ≤ Ecc.quartile.index := by
        intro e he
        cases e with
        | high => exact absurd he hhigh
        | low | medium | quartile => decide
      rw [if_pos hquartile]
      exact ⟨hquartile, hmost ecl hfits, hmost⟩
    · rw [if_neg hquartile]
      by_cases hmedium : n ≤ getNumDataCodewords version .medium * 8
      · have hmost : ∀ e, n ≤ getNumDataCodewords version e * 8 → e.index ≤ Ecc.medium.index := by
          intro e he
          cases e with
          | high => exact absurd he hhigh
          | quartile => exact absurd he hquartile
          | low | medium => decide
        rw [if_pos hmedium]
        exact ⟨hmedium, hmost ecl hfits, hmost⟩
      · have hlow : ∀ e, n ≤ getNumDataCodewords version e * 8 → e = .low := by
          intro e he
          cases e with
          | low => rfl
          | medium => exact absurd he hmedium
          | quartile => exact absurd he hquartile
          | high => exact absurd he hhigh
        rw [if_neg hmedium]
        refine ⟨hfits, le_rfl, fun e he => ?_⟩
        rw [hlow e he]
        exact Nat.zero_le _

theorem boost_false (version n : ℕ) (ecl : Ecc) : boost false version n ecl = ecl := by
  simp [boost]

/-- With or without raising, the data fits the level that is used. -/
theorem fits_boost {version : ℕ} {segs : List Segment} {ecl : Ecc} (h : Version version)
    (boostEcl : Bool) (hfits : Fits segs version ecl) :
    Fits segs version (boost boostEcl version (segmentsBits version segs).length ecl) := by
  cases boostEcl with
  | false =>
      rw [boost_false]
      exact hfits
  | true => exact ⟨hfits.1, hfits.2.1, (boost_spec h hfits.2.2).1⟩

theorem le_index_boost {version : ℕ} {segs : List Segment} {ecl : Ecc} (h : Version version)
    (boostEcl : Bool) (hfits : Fits segs version ecl) :
    ecl.index ≤ (boost boostEcl version (segmentsBits version segs).length ecl).index := by
  cases boostEcl with
  | false => rw [boost_false]
  | true => exact (boost_spec h hfits.2.2).2.1

/-- **The smallest version, the highest level**: the search finds the first version of the
range that holds the segments at the level asked for, and raising the level then reaches
the highest at which that version still holds them. -/
theorem chooseVersion_boost (segs : List Segment) (ecl : Ecc) {minVersion maxVersion : ℕ}
    (hmin : versionMin ≤ minVersion) (hrange : minVersion ≤ maxVersion)
    (hmax : maxVersion ≤ versionMax) :
    (chooseVersion segs ecl minVersion maxVersion = none ∧
        ∀ w, minVersion ≤ w → w ≤ maxVersion → ¬ Fits segs w ecl) ∨
      ∃ version n, chooseVersion segs ecl minVersion maxVersion = some (version, n) ∧
        minVersion ≤ version ∧ version ≤ maxVersion ∧
        (∀ w, minVersion ≤ w → w < version → ¬ Fits segs w ecl) ∧
        ecl.index ≤ (boost true version n ecl).index ∧
        ∀ e, Fits segs version e ↔ e.index ≤ (boost true version n ecl).index := by
  cases hchoose : chooseVersion segs ecl minVersion maxVersion with
  | none => exact Or.inl ⟨rfl, (chooseVersion_eq_none_iff hrange).mp hchoose⟩
  | some found =>
      obtain ⟨version, n⟩ := found
      obtain ⟨hv, hvmax, hfits, hfirst, rfl⟩ := (chooseVersion_eq_some_iff hrange).mp hchoose
      have hversion : Version version := ⟨hmin.trans hv, hvmax.trans hmax⟩
      obtain ⟨hboost, hup, hmost⟩ := boost_spec hversion hfits.2.2
      refine Or.inr ⟨version, _, rfl, hv, hvmax, hfirst, hup, fun e => ⟨fun he => ?_, fun he => ?_⟩⟩
      · exact hmost e he.2.2
      · exact ⟨hfits.1, hfits.2.1,
          hboost.trans (Nat.mul_le_mul_right 8 (capacity_antitone hversion he))⟩

theorem chooseVersion_boost_empty :
    (chooseVersion [] .low 1 40 = none ∧ ∀ w, 1 ≤ w → w ≤ 40 → ¬ Fits [] w .low) ∨
      ∃ version n, chooseVersion [] .low 1 40 = some (version, n) ∧
        1 ≤ version ∧ version ≤ 40 ∧ (∀ w, 1 ≤ w → w < version → ¬ Fits [] w .low) ∧
        Ecc.low.index ≤ (boost true version n .low).index ∧
        ∀ e, Fits [] version e ↔ e.index ≤ (boost true version n .low).index :=
  chooseVersion_boost [] .low (by decide) (by decide) (by decide)

end Shirokumakun.Qr
