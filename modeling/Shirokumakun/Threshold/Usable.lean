/-
Which thresholds can be set, and which of them detect anything.

The guard of `ac threshold` is one comparison, and it lets through a NaN and an infinity.
With either no spectrum is ever above the threshold; with any other value that the guard
lets through some spectrum is.  So the condition on the arguments is that none spells a
NaN, an infinity without a minus, or a number too large for a float.
-/
import Mathlib.Algebra.Order.Ring.Star
import Shirokumakun.Threshold.Model

namespace Shirokumakun.Threshold

open Binary

/-! ### Detection -/

/-- A finite number above zero. -/
def Usable (t : Single) : Prop := ∃ x, t = .finite false x ∧ 0 < x.val

/-- Some spectrum is above the threshold. -/
def Detectable (t : Single) : Prop := ∃ fft_out, aboveThreshold t fft_out = true

/-- Neither a NaN nor infinite. -/
def noSignal : Single := .finite false (Value.zero binary32)

theorem single_zero {h : 0 < 2 ^ 24} : single 0 h = noSignal := by
  unfold single noSignal Value.exactNat Value.zero
  simp

theorem power_of_zero {fft_out : FftOut} {k : ℕ} (hr : fft_out (2 * k) = noSignal)
    (hi : fft_out (2 * k + 1) = noSignal) : power fft_out k = noSignal := by
  have hmul : Value.mul noSignal noSignal = noSignal := Value.mul_of_val_zero rfl
  show ((fft_out (2 * k)).mul _).add ((fft_out (2 * k + 1)).mul _) = _
  rw [hr, hi, hmul]
  exact Value.add_zero _

/-- A tone in the target bin alone. -/
def tone : FftOut := fun i => if i = 2 * pdmTargetBin then single 1 (by norm_num) else noSignal

theorem cut_tone : cut tone = single 1 (by norm_num) := by
  have hre : tone (2 * pdmTargetBin) = single 1 (by norm_num) := if_pos rfl
  have him : tone (2 * pdmTargetBin + 1) = noSignal := if_neg (by omega)
  have hone : (single 1 (by norm_num)).mul (single 1 (by norm_num)) = single 1 (by norm_num) :=
    Value.mul_self_of_idem (by norm_num [Value.exactNat])
  have hzero : Value.mul noSignal noSignal = noSignal := Value.mul_of_val_zero rfl
  show ((tone (2 * pdmTargetBin)).mul _).add ((tone (2 * pdmTargetBin + 1)).mul _) = _
  rw [hre, him, hone, hzero]
  exact Value.add_zero _

theorem addCell_tone (k : ℕ) : addCell tone noSignal k = noSignal := by
  unfold addCell
  by_cases hk : pdmCfarGuardCells < ((k : ℤ) - pdmTargetBin).natAbs
  · have hoff : k ≠ pdmTargetBin := by
      intro heq
      simp [heq] at hk
    have hpower : power tone k = noSignal :=
      power_of_zero (if_neg (by omega)) (if_neg (by omega))
    rw [if_pos hk, hpower]
    exact Value.add_zero _
  · rw [if_neg hk]

/-- The cells the noise is estimated from are silent in it. -/
theorem noiseEst_tone : noiseEst tone = noSignal := by
  have hsum : ∀ ks : List ℕ, ks.foldl (addCell tone) noSignal = noSignal := by
    intro ks
    induction ks with
    | nil => rfl
    | cons k rest ih =>
        rw [List.foldl_cons, addCell_tone]
        exact ih
  unfold noiseEst noiseSum
  rw [single_zero, hsum]
  exact Value.zero_div_of_ne (by norm_num [Value.exactNat, pdmCfarTrainCells])

/-- **A usable threshold detects a tone.** -/
theorem Usable.detectable {t : Single} (h : Usable t) : Detectable t := by
  obtain ⟨x, rfl, -⟩ := h
  refine ⟨tone, ?_⟩
  have hthreshold : Value.mul noSignal (.finite false x) = noSignal := Value.mul_of_val_zero rfl
  unfold aboveThreshold
  rw [noiseEst_tone, cut_tone, hthreshold]
  show decide (signed false 0 < signed false ((1 : ℕ) : ℚ)) = true
  norm_num [signed]

theorem nonNeg_power (fft_out : FftOut) (k : ℕ) : (power fft_out k).NonNeg :=
  Value.nonNeg_add (Value.nonNeg_mul_self _) (Value.nonNeg_mul_self _)

theorem nonNeg_addCell (fft_out : FftOut) {sum : Single} (h : sum.NonNeg) (k : ℕ) :
    (addCell fft_out sum k).NonNeg := by
  unfold addCell
  by_cases hk : pdmCfarGuardCells < ((k : ℤ) - pdmTargetBin).natAbs
  · rw [if_pos hk]
    exact Value.nonNeg_add h (nonNeg_power fft_out k)
  · rw [if_neg hk]
    exact h

/-- A noise estimate is a sum of squares. -/
theorem nonNeg_noiseEst (fft_out : FftOut) : (noiseEst fft_out).NonNeg := by
  have hsum : ∀ (ks : List ℕ) (sum : Single), sum.NonNeg →
      (ks.foldl (addCell fft_out) sum).NonNeg := by
    intro ks
    induction ks with
    | nil => intro sum h; exact h
    | cons k rest ih => intro sum h; exact ih _ (nonNeg_addCell fft_out h k)
  have hzero : (single 0 (by norm_num)).NonNeg := rfl
  exact Value.nonNeg_div (hsum _ _ hzero) _

/-- **A NaN detects nothing.** -/
theorem not_detectable_nan : ¬ Detectable .nan := by
  rintro ⟨fft_out, h⟩
  unfold aboveThreshold at h
  rw [Value.mul_nan, Value.nan_lt] at h
  exact Bool.false_ne_true h

/-- **Nor does an infinity**, whatever the noise: infinite times zero is a NaN. -/
theorem not_detectable_inf : ¬ Detectable (.inf false) := by
  rintro ⟨fft_out, h⟩
  unfold aboveThreshold at h
  rw [Value.mul_inf_lt (nonNeg_noiseEst fft_out)] at h
  exact Bool.false_ne_true h

/-! ### Arguments -/

/-- The string spells no NaN, no infinity without a minus, and no number without a minus
that is infinite as a float. -/
def Harmless (s : String) : Prop :=
  match Strtod.spelled s with
  | .nan => False
  | .infinity neg => neg = true
  | .number neg q => neg = true ∨ (q : ℚ) < narrowBound

theorem accepts_finite_iff {neg : Bool} {x : Magnitude binary32} :
    Accepts (.finite neg x) ↔ neg = false ∧ 0 < x.val := by
  have hle : (Value.finite neg x).le (single 0 (by norm_num)) = decide (signed neg x.val ≤ 0) := by
    rw [single_zero]
    rfl
  have hx := x.nonneg
  unfold Accepts
  rw [hle, decide_eq_false_iff_not, not_le]
  cases neg with
  | false => exact ⟨fun h => ⟨rfl, h⟩, fun h => h.2⟩
  | true =>
      constructor
      · intro h
        exact absurd h (not_lt.mpr (neg_nonpos.mpr hx))
      · rintro ⟨h, -⟩
        exact absurd h.symm Bool.false_ne_true

/-- **What the guard lets through**, argument by argument: after a harmless one only what is
usable, after any other one a NaN or an infinity. -/
theorem accepts_cases (s : String) :
    Harmless s ∧ (Accepts (parseThreshold s) → Usable (parseThreshold s)) ∨
      ¬ Harmless s ∧ Accepts (parseThreshold s) ∧
        (parseThreshold s = .nan ∨ parseThreshold s = .inf false) := by
  unfold Harmless parseThreshold
  cases Strtod.spelled s with
  | nan => exact Or.inr ⟨not_false, rfl, Or.inl rfl⟩
  | infinity neg =>
      cases neg with
      | true => exact Or.inl ⟨rfl, fun h => absurd h Bool.noConfusion⟩
      | false => exact Or.inr ⟨Bool.noConfusion, rfl, Or.inr rfl⟩
  | number neg q =>
      show (neg = true ∨ (q : ℚ) < narrowBound) ∧
          (Accepts ((Value.ofRat binary64 neg q q.cast_nonneg).convert binary32) → _) ∨
        ¬ (neg = true ∨ (q : ℚ) < narrowBound) ∧ _
      rcases Value.narrow_cases neg q.cast_nonneg with ⟨hlt, x, hx⟩ | ⟨hle, hinf⟩
      · refine Or.inl ⟨Or.inr hlt, ?_⟩
        intro haccepts
        rw [hx] at haccepts
        obtain ⟨rfl, hpos⟩ := accepts_finite_iff.mp haccepts
        exact ⟨x, hx, hpos⟩
      · cases neg with
        | true =>
            refine Or.inl ⟨Or.inl rfl, ?_⟩
            intro haccepts
            rw [hinf] at haccepts
            exact absurd haccepts.symm Bool.false_ne_true
        | false =>
            refine Or.inr ⟨?_, ?_, Or.inr hinf⟩
            · rintro (h | h)
              · exact Bool.false_ne_true h
              · exact not_lt.mpr hle h
            · show Accepts ((Value.ofRat binary64 false q q.cast_nonneg).convert binary32)
              rw [hinf]
              rfl

/-! ### Runs -/

/-- What the claim of usability says of a device. -/
def Serves (d : Device) : Prop := Usable d.detect_threshold ∧ Detectable d.detect_threshold

theorem serves_iff {d : Device} : Serves d ↔ Usable d.detect_threshold :=
  ⟨fun h => h.1, fun h => ⟨h, h.detectable⟩⟩

/-- A command is given nothing but harmless arguments. -/
def HarmlessStep (_ : Device) : Act → Prop
  | .threshold (some s) _ => Harmless s
  | _ => True

/-- Everything stored is usable, so that loading it is safe. -/
def StoredUsable (d : Device) : Prop := ∀ e ∈ d.stored, Usable e.value

theorem usable_default : Usable defaultThreshold :=
  ⟨_, rfl, by norm_num [Value.exactNat]⟩

/-- **One step** keeps the threshold usable exactly when it is harmless. -/
theorem step_usable_iff {d d' : Device} {a : Act} (hstored : StoredUsable d) (h : Serves d)
    (hs : machine.step d a = some d') : HarmlessStep d a ↔ Serves d' := by
  rw [serves_iff] at h ⊢
  cases stepped hs with
  | shown saveErr => exact ⟨fun _ => h, fun _ => trivial⟩
  | @refused s saveErr hrefused =>
      rcases accepts_cases s with ⟨hharmless, -⟩ | ⟨-, haccepts, -⟩
      · exact ⟨fun _ => h, fun _ => hharmless⟩
      · exact absurd haccepts hrefused
  | @accepted s saveErr haccepts =>
      show Harmless s ↔ Usable (parseThreshold s)
      rcases accepts_cases s with ⟨hharmless, husable⟩ | ⟨hharm, -, hbad⟩
      · exact ⟨fun _ => husable haccepts, fun _ => hharmless⟩
      · refine ⟨fun hharmless => absurd hharmless hharm, ?_⟩
        rintro ⟨x, hx, -⟩
        rw [hx] at hbad
        rcases hbad with hnan | hinf
        · cases hnan
        · cases hinf
  | reset => exact ⟨fun _ => usable_default, fun _ => trivial⟩
  | load => exact ⟨fun _ => settingsLoadSubtree_induction h hstored, fun _ => trivial⟩

/-- What harmless commands store is usable. -/
theorem step_storedUsable {d d' : Device} {a : Act} (hstored : StoredUsable d)
    (hharmless : HarmlessStep d a) (hs : machine.step d a = some d') : StoredUsable d' := by
  cases stepped hs with
  | shown saveErr => exact hstored
  | refused saveErr hrefused => exact hstored
  | @accepted s saveErr haccepts =>
      intro e he
      rcases mem_settingsSaveOne he with rfl | hmem
      · rcases accepts_cases s with ⟨-, husable⟩ | ⟨hharm, -⟩
        · exact husable haccepts
        · exact absurd hharmless hharm
      · exact hstored e hmem
  | reset => exact hstored
  | load => exact hstored

/-- **The threshold stays usable exactly in the runs of harmless arguments.**  In every such
run each state reached has a finite threshold above zero, which some spectrum exceeds; and a
run all of whose states are like that was given nothing else.  A NaN or an infinity, once
set, detects nothing. -/
theorem threshold_usable (acts : List Act) :
    (∀ d, machine.Reach HarmlessStep d → Serves d) ∧
      (machine.Always Serves machine.init acts ↔ machine.Obeys HarmlessStep machine.init acts) ∧
      ¬ Detectable .nan ∧ ¬ Detectable (.inf false) := by
  have hinit : Serves machine.init := serves_iff.mpr usable_default
  have hstored : StoredUsable machine.init := fun e he => absurd he List.not_mem_nil
  obtain ⟨hreach, halways⟩ := Transition.Machine.exact_condition (K := StoredUsable)
    (fun _ _ _ hK hP hs => step_usable_iff hK hP hs)
    (fun _ _ _ hK _ hC hs => step_storedUsable hK hC hs) hstored hinit acts
  exact ⟨hreach, halways, not_detectable_nan, not_detectable_inf⟩

/-- `ac threshold nan` is accepted and saved, and the reboot that follows loads it. -/
theorem threshold_nan_survives :
    ∃ d, machine.run machine.init [.threshold (some "nan") 0, .reset, .load] = some d ∧
      machine.Reachable d ∧ d.detect_threshold = .nan ∧ ¬ Serves d := by
  have hspelled : Strtod.spelled "nan" = .nan := by decide +kernel
  have hparse : parseThreshold "nan" = .nan := by
    unfold parseThreshold
    rw [hspelled]
    rfl
  have haccepts : Accepts (parseThreshold "nan") := by
    rw [hparse]
    rfl
  have hstep := step_of_accepts haccepts 0 machine.init
  rw [hparse] at hstep
  have hrun : machine.run machine.init [.threshold (some "nan") 0, .reset, .load]
      = machine.run (machine.init.accepted .nan 0) [.reset, .load] :=
    machine.run_cons_of_step hstep _
  have hload : ∀ t, settingsLoadSubtree (machine.init.accepted .nan 0).stored t = .nan :=
    settingsLoadSubtree_save .nan []
  refine ⟨_, hrun, Transition.Machine.reachable_of_run hrun, hload defaultThreshold, ?_⟩
  rw [serves_iff]
  rintro ⟨x, hx, -⟩
  rw [hload] at hx
  cases hx

end Shirokumakun.Threshold
