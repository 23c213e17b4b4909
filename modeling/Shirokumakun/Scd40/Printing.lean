/-
`ac scd` prints the last reading.

The values are integers in hundredths, and `cmd_scd` prints them with a point: quotient,
point, and the remainder in two digits.  The sign of the temperature is printed on its own,
before the quotient of its magnitude, so that a temperature between -1 and 0 keeps it.  The
magnitude is taken in an `int16_t`, where the least number has none; no response of the
sensor stands for that number.

`readingLine` reads such a line as decimal numbers, without a word about hundredths.
-/
import Shirokumakun.Lib.Decimal
import Shirokumakun.Scd40.Publication

namespace Shirokumakun.Scd40

open Decimal

/-! ### The command -/

/-- What `shell_warn` and `shell_print` write, but for the end of the line. -/
inductive ShellLine
  | warn (text : List Char)
  | print (text : List Char)
  deriving DecidableEq

/-- `int16_t t_abs`. -/
def tAbs (temp_001c : Int16) : Int16 := if temp_001c ≥ 0 then temp_001c else -temp_001c

def cmdScd (r : Scd40Reading) : ShellLine :=
  if r.valid = false then .warn "No reading yet".toList
  else
    let t_abs := tAbs r.temp_001c
    .print (printf "CO2: %u ppm  T: %s%d.%02d C  RH: %u.%02u %%".toList
      [.unsigned r.co2_ppm.toNat,
        .string (if r.temp_001c < 0 then "-" else ""),
        .int (t_abs.toInt.tdiv 100), .int (t_abs.toInt.tmod 100),
        .unsigned (r.rh_001pct.toNat / 100), .unsigned (r.rh_001pct.toNat % 100)])

example : cmdScd ⟨612, -5, 4307, true⟩ = .print "CO2: 612 ppm  T: -0.05 C  RH: 43.07 %".toList := by
  decide

/-- `CO2: n ppm  T: [-]n.nn C  RH: n.nn %`. -/
def readingLine : Reader (ℕ × ℚ × ℚ) := do
  literal "CO2: ".toList
  let co2 ← number
  literal " ppm  T: ".toList
  let temp ← signed (fixed 2)
  literal " C  RH: ".toList
  let rh ← fixed 2
  literal " %".toList
  return (co2, temp, rh)

/-- The line printed of `r` is read back as the values of `r`, and the magnitude of the
temperature is taken without overflow. -/
structure Lossless (r : Scd40Reading) : Prop where
  negation : (-r.temp_001c).toInt = -r.temp_001c.toInt
  parsed : ∃ line, cmdScd r = .print line ∧
    all readingLine line = some (r.co2_ppm.toNat, (r.temp_001c.toInt : ℚ) / 100,
      (r.rh_001pct.toNat : ℚ) / 100)

/-! ### The line -/

theorem toInt_neg {t : Int16} (h : -32768 < t.toInt) : (-t).toInt = -t.toInt := by
  have hlt := t.toInt_lt
  rw [Int16.toInt_neg]
  exact Int.bmod_eq_of_le (by omega) (by omega)

theorem tAbs_toInt {t : Int16} (h : -32768 < t.toInt) : (tAbs t).toInt = t.toInt.natAbs := by
  unfold tAbs
  by_cases hnonneg : t ≥ 0
  · have hint : (0 : Int) ≤ t.toInt := Int16.le_iff_toInt_le.mp hnonneg
    rw [if_pos hnonneg]
    exact (Int.natAbs_of_nonneg hint).symm
  · have hint : ¬ (0 : Int) ≤ t.toInt := fun hle => hnonneg (Int16.le_iff_toInt_le.mpr hle)
    rw [if_neg hnonneg, toInt_neg h]
    omega

/-- `n` hundredths. -/
def hundredths (n : ℕ) : List Char := padded 0 (n / 100) ++ (['.'] ++ padded 2 (n % 100))

theorem reads_hundredths (n : ℕ) : Reads (fixed 2) (hundredths n) (n / 100) := by
  have hfixed := reads_fixed Nat.two_pos n
  norm_num at hfixed
  exact hfixed

/-- The temperature, its sign before its magnitude. -/
def signedHundredths (t : ℤ) : List Char :=
  (if t < 0 then ['-'] else []) ++ hundredths t.natAbs

theorem cmdScd_eq {r : Scd40Reading} (hvalid : r.valid = true)
    (htemp : -32768 < r.temp_001c.toInt) :
    cmdScd r = .print ("CO2: ".toList ++ (padded 0 r.co2_ppm.toNat ++ (" ppm  T: ".toList ++
      (signedHundredths r.temp_001c.toInt ++ (" C  RH: ".toList ++
        (hundredths r.rh_001pct.toNat ++ (" %".toList ++ []))))))) := by
  have hdiv : (tAbs r.temp_001c).toInt.tdiv 100 = (r.temp_001c.toInt.natAbs / 100 : ℕ) := by
    rw [tAbs_toInt htemp]
    rfl
  have hmod : (tAbs r.temp_001c).toInt.tmod 100 = (r.temp_001c.toInt.natAbs % 100 : ℕ) := by
    rw [tAbs_toInt htemp]
    rfl
  have hsign : (if r.temp_001c < 0 then "-" else "").toList
      = if r.temp_001c.toInt < 0 then ['-'] else [] := by
    have hlt : r.temp_001c < 0 ↔ r.temp_001c.toInt < 0 := Int16.lt_iff_toInt_lt
    by_cases hneg : r.temp_001c < 0
    · rw [if_pos hneg, if_pos (hlt.mp hneg)]
      rfl
    · rw [if_neg hneg, if_neg (hneg ∘ hlt.mpr)]
      rfl
  have hprint : cmdScd r = .print ("CO2: ".toList ++ (padded 0 r.co2_ppm.toNat ++
      (" ppm  T: ".toList ++ ((if r.temp_001c < 0 then "-" else "").toList ++
        (signedPadded 0 ((tAbs r.temp_001c).toInt.tdiv 100) ++
          (['.'] ++ (signedPadded 2 ((tAbs r.temp_001c).toInt.tmod 100) ++ (" C  RH: ".toList ++
            (padded 0 (r.rh_001pct.toNat / 100) ++ (['.'] ++
              (padded 2 (r.rh_001pct.toNat % 100) ++ (" %".toList ++ [])))))))))))) := by
    unfold cmdScd
    rw [if_neg (by rw [hvalid]; decide)]
    rfl
  rw [hprint, hsign, hdiv, hmod, signedPadded_natCast, signedPadded_natCast]
  unfold signedHundredths hundredths
  simp only [List.append_assoc]

theorem reads_signedHundredths (t : ℤ) :
    Reads (signed (fixed 2)) (signedHundredths t) (t / 100) := by
  have hfixed := reads_hundredths t.natAbs
  unfold signedHundredths
  by_cases hneg : t < 0
  · have hvalue : (t : ℚ) / 100 = -((t.natAbs : ℕ) / 100) := by
      have habs : ((t.natAbs : ℕ) : ℤ) = -t := by omega
      rw [← Int.cast_natCast, habs, Int.cast_neg, neg_div, neg_neg]
    rw [if_pos hneg, hvalue]
    exact hfixed.signed_neg
  · have hvalue : (t : ℚ) / 100 = (t.natAbs : ℕ) / 100 := by
      have habs : ((t.natAbs : ℕ) : ℤ) = t := by omega
      rw [← Int.cast_natCast, habs]
    rw [if_neg hneg, hvalue, List.nil_append]
    -- What is printed begins with a digit, so the reader finds no sign.
    unfold hundredths at hfixed ⊢
    cases hwhole : padded 0 (t.natAbs / 100) with
    | nil => exact absurd hwhole (padded_ne_nil _ _)
    | cons c whole =>
        have hdigit : c.isDigit = true := by
          apply isDigit_padded
          rw [hwhole]
          exact List.mem_cons_self
        rw [hwhole] at hfixed
        refine Reads.signed hfixed ?_
        rintro rfl
        exact absurd hdigit (by decide)

/-- Text and reader go through the line side by side. -/
theorem reads_line (co2 rh : ℕ) (temp : ℤ) :
    Reads readingLine ("CO2: ".toList ++ (padded 0 co2 ++ (" ppm  T: ".toList ++
      (signedHundredths temp ++ (" C  RH: ".toList ++ (hundredths rh ++
        (" %".toList ++ []))))))) (co2, (temp : ℚ) / 100, (rh : ℚ) / 100) := by
  refine (reads_literal _).bind ?_
  refine Reads.bind_before (fun rest => number_padded 0 co2 (by decide) _) ?_
  refine (reads_literal _).bind ?_
  refine (reads_signedHundredths temp).bind ?_
  refine (reads_literal _).bind ?_
  refine (reads_hundredths rh).bind ?_
  exact (reads_literal _).bind (reads_pure _)

/-- Only the temperature without a magnitude is not printed as it is. -/
theorem lossless {r : Scd40Reading} (hvalid : r.valid = true)
    (htemp : -32768 < r.temp_001c.toInt) : Lossless r :=
  ⟨toInt_neg htemp, _, cmdScd_eq hvalid htemp, (reads_line _ _ _).all⟩

/-- What is read back determines the reading. -/
theorem Lossless.eq_of_cmdScd_eq {r r' : Scd40Reading} (h : Lossless r) (h' : Lossless r')
    (hvalid : r.valid = r'.valid) (heq : cmdScd r = cmdScd r') : r = r' := by
  obtain ⟨line, hprint, hparse⟩ := h.parsed
  obtain ⟨line', hprint', hparse'⟩ := h'.parsed
  obtain rfl : line = line' := ShellLine.print.inj (hprint.symm.trans (heq.trans hprint'))
  have hvalues := Option.some.inj (hparse.symm.trans hparse')
  rw [Prod.mk.injEq, Prod.mk.injEq] at hvalues
  obtain ⟨hco2, htemp, hrh⟩ := hvalues
  have hhundred : (100 : ℚ) ≠ 0 := by norm_num
  have htempInt : r.temp_001c.toInt = r'.temp_001c.toInt := by
    exact_mod_cast (div_left_inj' hhundred).mp htemp
  have hrhNat : r.rh_001pct.toNat = r'.rh_001pct.toNat := by
    exact_mod_cast (div_left_inj' hhundred).mp hrh
  cases r
  cases r'
  rw [Scd40Reading.mk.injEq]
  exact ⟨UInt16.toNat_inj.mp hco2, Int16.toInt_inj.mp htempInt, UInt16.toNat_inj.mp hrhNat, hvalid⟩

/-! ### The result -/

/-- **The printed reading is lossless.**  Of every response whose checksums match, `ac scd`
prints a line that is read back, in decimal fixed-point numbers, as exactly the CO2
concentration, the temperature and the humidity of the reading, and negating the temperature
does not overflow; the reading is the one a poll leaves that gets this response; and two
responses with different readings are printed differently. -/
theorem printing_lossless {β γ : Type*} (bus : I2cBus β) (stack : MatterStack γ) :
    (∀ frame, (∀ w, CrcMatches frame w) → Lossless (decode frame).reading) ∧
    (∀ (s : System β γ) (out : Measurement) (frame : Vector UInt8 9), Completes bus s.bus frame →
      (step bus stack s (.poll out)).sensor.last_reading = (decode frame).reading) ∧
    (∀ frame frame', (∀ w, CrcMatches frame w) → (∀ w, CrcMatches frame' w) →
      cmdScd (decode frame).reading = cmdScd (decode frame').reading →
      (decode frame).reading = (decode frame').reading) := by
  have hlossless : ∀ frame, Lossless (decode frame).reading := by
    intro frame
    have hexact := decode_exact frame
    have hlow := hexact.temp_range.1
    exact lossless hexact.valid (by omega)
  refine ⟨fun frame _ => hlossless frame, ?_, ?_⟩
  · intro s out frame hframe
    rw [step_of_completes hframe out]
    rfl
  · intro frame frame' _ _ heq
    exact (hlossless frame).eq_of_cmdScd_eq (hlossless frame') rfl heq

end Shirokumakun.Scd40
