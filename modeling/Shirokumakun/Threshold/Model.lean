/-
The detection threshold: how it is set, saved, loaded and used.

`ac threshold` reads its argument with `atof`, narrows it to a float, and refuses what is
not above zero; `pdm_manager_save_threshold` puts it into RAM and then hands it to the
settings subsystem, which may fail; after a reset, `pdm_manager_init` loads what was saved.
The work handler multiplies it with the noise estimate and compares.

The settings subsystem is kept as the entries it holds; the outcome of a save is chosen
with the command.  An entry's value stands for its bytes: four bytes that were a float are
the same float when they are copied back.  `log` is not a variable of the program but what
the shell's user has seen so far.
-/
import Shirokumakun.Lib.Strtod
import Shirokumakun.Lib.Transition

namespace Shirokumakun.Threshold

open Binary

abbrev Single := Value binary32

abbrev Double := Value binary64

/-- An integer constant as a float. -/
def single (n : ℕ) (hn : n < 2 ^ 24) : Single :=
  .finite false
    (Value.exactNat binary32 (by norm_num [Rounding.Format.minExp, binary32])
      (by norm_num [binary32]) n hn)

/-! ### What the work handler does with it -/

def pdmTargetBin : ℕ := 127
def pdmCfarGuardCells : ℕ := 2
def pdmCfarTrainCells : ℕ := 10

/-- The output of the FFT, as the code indexes it. -/
abbrev FftOut := ℕ → Single

/-- `r * r + im * im` of bin `k`. -/
def power (fft_out : FftOut) (k : ℕ) : Single :=
  let r := fft_out (2 * k)
  let im_k := fft_out (2 * k + 1)
  (r.mul r).add (im_k.mul im_k)

def cut (fft_out : FftOut) : Single := power fft_out pdmTargetBin

/-- The body of the loop: the guard cells and the target bin are skipped. -/
def addCell (fft_out : FftOut) (noise_sum : Single) (k : ℕ) : Single :=
  if pdmCfarGuardCells < ((k : ℤ) - pdmTargetBin).natAbs then
    noise_sum.add (power fft_out k)
  else noise_sum

/-- The loop over the cells on both sides of the target bin. -/
def noiseSum (fft_out : FftOut) : Single :=
  let first := pdmTargetBin - pdmCfarGuardCells - pdmCfarTrainCells
  (List.range' first (2 * (pdmCfarGuardCells + pdmCfarTrainCells) + 1)).foldl
    (addCell fft_out) (single 0 (by norm_num))

def noiseEst (fft_out : FftOut) : Single :=
  (noiseSum fft_out).div (single (2 * pdmCfarTrainCells) (by norm_num [pdmCfarTrainCells]))

/-- `cut > noise_est * detect_threshold`. -/
def aboveThreshold (detect_threshold : Single) (fft_out : FftOut) : Bool :=
  ((noiseEst fft_out).mul detect_threshold).lt (cut fft_out)

/-! ### The settings subsystem -/

/-- An entry `subtree/name`; `len` bytes, which are those of the float `value`. -/
structure Setting where
  subtree : String
  name : String
  len : ℕ
  value : Single

def sizeofFloat : ℕ := 4

/-- `settings_save_one`, returning `err`: if that is zero the entry replaces the one of the
same name, and otherwise nothing changes. -/
def settingsSaveOne (entry : Setting) (err : Int) (stored : List Setting) : List Setting :=
  if err = 0 then
    entry :: stored.filter fun e => ¬ (e.subtree = entry.subtree ∧ e.name = entry.name)
  else stored

/-- The handler: `read_cb` copies the stored bytes over `detect_threshold`. -/
def pdmSettingsSet (name : String) (len : ℕ) (value detect_threshold : Single) : Single :=
  if name = "threshold" ∧ len = sizeofFloat then value else detect_threshold

/-- `settings_load_subtree("pdm")`: the handler sees every entry of its subtree. -/
def settingsLoadSubtree (stored : List Setting) (detect_threshold : Single) : Single :=
  (stored.filter fun e => e.subtree = "pdm").foldl
    (fun threshold e => pdmSettingsSet e.name e.len e.value threshold) detect_threshold

/-- Loading leaves the threshold, or sets it to the value of an entry. -/
theorem settingsLoadSubtree_induction {P : Single → Prop} {stored : List Setting}
    {detect_threshold : Single} (hthreshold : P detect_threshold)
    (hstored : ∀ e ∈ stored, P e.value) : P (settingsLoadSubtree stored detect_threshold) := by
  unfold settingsLoadSubtree
  induction stored generalizing detect_threshold with
  | nil => exact hthreshold
  | cons e rest ih =>
      have hrest : ∀ e' ∈ rest, P e'.value := fun e' he' => hstored e' (List.mem_cons_of_mem e he')
      by_cases hsub : e.subtree = "pdm"
      · rw [List.filter_cons_of_pos (by simpa using hsub), List.foldl_cons]
        apply ih _ hrest
        unfold pdmSettingsSet
        by_cases hname : e.name = "threshold" ∧ e.len = sizeofFloat
        · rw [if_pos hname]
          exact hstored e List.mem_cons_self
        · rw [if_neg hname]
          exact hthreshold
      · rw [List.filter_cons_of_neg (by simpa using hsub)]
        exact ih hthreshold hrest

/-- An entry there after a save is the one saved, or was there before. -/
theorem mem_settingsSaveOne {entry e : Setting} {err : Int} {stored : List Setting}
    (h : e ∈ settingsSaveOne entry err stored) : e = entry ∨ e ∈ stored := by
  unfold settingsSaveOne at h
  by_cases herr : err = 0
  · rw [if_pos herr] at h
    rcases List.mem_cons.mp h with heq | hmem
    · exact Or.inl heq
    · exact Or.inr (List.mem_of_mem_filter hmem)
  · rw [if_neg herr] at h
    exact Or.inr h

/-- Entries the handler does not take leave the threshold alone. -/
theorem settingsLoadSubtree_of_none (stored : List Setting) (detect_threshold : Single)
    (h : ∀ e ∈ stored, ¬ (e.subtree = "pdm" ∧ e.name = "threshold")) :
    settingsLoadSubtree stored detect_threshold = detect_threshold := by
  unfold settingsLoadSubtree
  induction stored with
  | nil => rfl
  | cons e rest ih =>
      have hrest := ih fun e' he' => h e' (List.mem_cons_of_mem e he')
      by_cases hsub : e.subtree = "pdm"
      · have hname : ¬ (e.name = "threshold" ∧ e.len = sizeofFloat) := by
          intro hname
          exact h e List.mem_cons_self ⟨hsub, hname.1⟩
        rw [List.filter_cons_of_pos (by simpa using hsub), List.foldl_cons, pdmSettingsSet,
          if_neg hname]
        exact hrest
      · rw [List.filter_cons_of_neg (by simpa using hsub)]
        exact hrest

/-- **What was saved is what is loaded.** -/
theorem settingsLoadSubtree_save (t : Single) (stored : List Setting) (detect_threshold : Single) :
    settingsLoadSubtree (settingsSaveOne ⟨"pdm", "threshold", sizeofFloat, t⟩ 0 stored)
      detect_threshold = t := by
  have hothers := settingsLoadSubtree_of_none
    (stored.filter fun e => ¬ (e.subtree = "pdm" ∧ e.name = "threshold")) t
    (fun e he => of_decide_eq_true (List.mem_filter.mp he).2)
  unfold settingsSaveOne
  rw [if_pos rfl]
  unfold settingsLoadSubtree at hothers ⊢
  rw [List.filter_cons_of_pos rfl, List.foldl_cons, pdmSettingsSet, if_pos ⟨rfl, rfl⟩]
  exact hothers

/-! ### The shell command -/

inductive Reply
  | current (t : Single)
  | mustBePositive
  | setAndSaved (t : Single)

/-- What came of a command that was given a value: the code of the save, if one was
attempted, the line printed, and the threshold before and after. -/
structure Outcome where
  saveErr : Option Int
  reply : Reply
  before : Single
  after : Single

structure Device where
  detect_threshold : Single
  stored : List Setting
  /-- `pdm_manager_init` has loaded the settings since the last reset. -/
  loaded : Bool
  log : List Outcome

def defaultThreshold : Single := single 25 (by norm_num)

/-- RAM first; the error of the save goes no further than the device's log. -/
def pdmManagerSaveThreshold (t : Single) (saveErr : Int) (d : Device) : Device :=
  { d with
    detect_threshold := t
    stored := settingsSaveOne ⟨"pdm", "threshold", sizeofFloat, t⟩ saveErr d.stored }

/-- `(float)atof(s)`. -/
def parseThreshold (s : String) : Single :=
  let d : Double := (Strtod.spelled s).toValue binary64
  d.convert binary32

def einval : Int := 22

/-- `ac threshold` without an argument, or with one.  `saveErr` is what the settings
subsystem will return, should it be called. -/
def cmdThreshold (arg : Option String) (saveErr : Int) (d : Device) : Int × Reply × Device :=
  match arg with
  | none => (0, .current d.detect_threshold, d)
  | some s =>
      let t := parseThreshold s
      if t.le (single 0 (by norm_num)) then
        let outcome := ⟨none, .mustBePositive, d.detect_threshold, d.detect_threshold⟩
        (-einval, .mustBePositive, { d with log := d.log ++ [outcome] })
      else
        let d' := pdmManagerSaveThreshold t saveErr d
        let outcome := ⟨some saveErr, .setAndSaved t, d.detect_threshold, d'.detect_threshold⟩
        (0, .setAndSaved t, { d' with log := d'.log ++ [outcome] })

/-! ### Runs -/

inductive Act
  | threshold (arg : Option String) (saveErr : Int)
  | reset
  | load

/-- A reset restores the initialised data; what is stored, and what was printed, stays. -/
def step (d : Device) : Act → Option Device
  | .threshold arg saveErr => some (cmdThreshold arg saveErr d).2.2
  | .reset => some { d with detect_threshold := defaultThreshold, loaded := false }
  | .load =>
      some { d with
        detect_threshold := settingsLoadSubtree d.stored d.detect_threshold
        loaded := true }

/-- A new device, with nothing stored. -/
def machine : Transition.Machine Device Act where
  init := ⟨defaultThreshold, [], false, []⟩
  step := step

/-- What a refused value leaves. -/
def Device.refused (d : Device) : Device :=
  { d with log := d.log ++ [⟨none, .mustBePositive, d.detect_threshold, d.detect_threshold⟩] }

/-- What an accepted value leaves. -/
def Device.accepted (d : Device) (t : Single) (saveErr : Int) : Device :=
  { pdmManagerSaveThreshold t saveErr d with
    log := d.log ++ [⟨some saveErr, .setAndSaved t, d.detect_threshold, t⟩] }

/-- The guard of `cmd_threshold` lets `t` through. -/
def Accepts (t : Single) : Prop := t.le (single 0 (by norm_num)) = false

theorem cmdThreshold_of_accepts {s : String} (h : Accepts (parseThreshold s)) (saveErr : Int)
    (d : Device) :
    (cmdThreshold (some s) saveErr d).2.2 = d.accepted (parseThreshold s) saveErr := by
  unfold Accepts at h
  unfold cmdThreshold
  simp only [h, Bool.false_eq_true, if_false]
  rfl

theorem cmdThreshold_of_refuses {s : String} (h : ¬ Accepts (parseThreshold s)) (saveErr : Int)
    (d : Device) : (cmdThreshold (some s) saveErr d).2.2 = d.refused := by
  unfold Accepts at h
  rw [Bool.not_eq_false] at h
  unfold cmdThreshold
  simp only [h, if_true]
  rfl

/-- **What a step can do**, by what the device makes of it. -/
inductive Stepped (d : Device) : Act → Device → Prop
  | shown (saveErr : Int) : Stepped d (.threshold none saveErr) d
  | refused {s : String} (saveErr : Int) (h : ¬ Accepts (parseThreshold s)) :
      Stepped d (.threshold (some s) saveErr) d.refused
  | accepted {s : String} (saveErr : Int) (h : Accepts (parseThreshold s)) :
      Stepped d (.threshold (some s) saveErr) (d.accepted (parseThreshold s) saveErr)
  | reset : Stepped d .reset { d with detect_threshold := defaultThreshold, loaded := false }
  | load : Stepped d .load { d with
      detect_threshold := settingsLoadSubtree d.stored d.detect_threshold
      loaded := true }

theorem stepped {d d' : Device} {a : Act} (hs : machine.step d a = some d') : Stepped d a d' := by
  cases a with
  | threshold arg saveErr =>
      obtain rfl := Option.some.inj hs
      cases arg with
      | none => exact Stepped.shown saveErr
      | some s =>
          by_cases haccepts : Accepts (parseThreshold s)
          · rw [cmdThreshold_of_accepts haccepts]
            exact Stepped.accepted saveErr haccepts
          · rw [cmdThreshold_of_refuses haccepts]
            exact Stepped.refused saveErr haccepts
  | reset =>
      obtain rfl := Option.some.inj hs
      exact Stepped.reset
  | load =>
      obtain rfl := Option.some.inj hs
      exact Stepped.load

theorem step_of_accepts {s : String} (h : Accepts (parseThreshold s)) (saveErr : Int)
    (d : Device) : machine.step d (.threshold (some s) saveErr)
      = some (d.accepted (parseThreshold s) saveErr) :=
  congrArg some (cmdThreshold_of_accepts h saveErr d)

end Shirokumakun.Threshold
