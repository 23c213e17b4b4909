/-
What the shell says was saved, and what is there after a reboot.

The error of the save does not reach the shell, and RAM is changed before the save is
tried.  So as long as every save succeeds, what is loaded is what was last reported; and
the first save that fails is reported like the others.
-/
import Shirokumakun.Threshold.Usable

namespace Shirokumakun.Threshold

open Binary

/-- The value in the last "Set and saved" of a log. -/
def lastReported (log : List Outcome) : Option Single :=
  log.foldl (fun last o => match o.reply with
    | .setAndSaved t => some t
    | _ => last) none

theorem lastReported_refused (d : Device) : lastReported d.refused.log = lastReported d.log := by
  unfold lastReported Device.refused
  rw [List.foldl_append]
  rfl

theorem lastReported_accepted (d : Device) (t : Single) (saveErr : Int) :
    lastReported (d.accepted t saveErr).log = some t := by
  unfold lastReported Device.accepted
  rw [List.foldl_append]
  rfl

/-- A command whose save failed left the threshold alone and did not report it as saved. -/
def Honest (log : List Outcome) : Prop :=
  ∀ o ∈ log, ∀ err, o.saveErr = some err → err ≠ 0 →
    o.after = o.before ∧ ∀ t, o.reply ≠ .setAndSaved t

/-- **What is reported is what persists.** -/
structure Persists (d : Device) : Prop where
  honest : Honest d.log
  loads : d.loaded = true → d.detect_threshold = (lastReported d.log).getD defaultThreshold

/-- The settings subsystem saves whatever an accepted command hands it. -/
def SavesSucceed (_ : Device) : Act → Prop
  | .threshold (some s) saveErr => Accepts (parseThreshold s) → saveErr = 0
  | _ => True

/-- What is stored is what was last reported; while nothing was, RAM has the default. -/
structure StoredReported (d : Device) : Prop where
  stored : ∀ t, settingsLoadSubtree d.stored t = (lastReported d.log).getD t
  unreported : lastReported d.log = none → d.detect_threshold = defaultThreshold

theorem honest_refused {d : Device} (h : Honest d.log) : Honest d.refused.log := by
  intro o ho err herr
  rcases List.mem_append.mp ho with hmem | hnew
  · exact h o hmem err herr
  · rw [List.mem_singleton] at hnew
    rw [hnew] at herr
    exact absurd herr (Option.some_ne_none err).symm

/-- After an accepted command the log is honest only if the save succeeded. -/
theorem honest_accepted_iff {d : Device} (h : Honest d.log) (t : Single) (saveErr : Int) :
    Honest (d.accepted t saveErr).log ↔ saveErr = 0 := by
  constructor
  · intro hhonest
    by_contra hne
    have hlast := hhonest _ (List.mem_append_right d.log (List.mem_singleton_self _)) saveErr
      rfl hne
    exact hlast.2 t rfl
  · intro hzero o ho err herr hne
    rcases List.mem_append.mp ho with hmem | hnew
    · exact h o hmem err herr hne
    · rw [List.mem_singleton] at hnew
      rw [hnew, Option.some.injEq] at herr
      exact absurd (herr.symm.trans hzero) hne

/-- Loading what is stored gives what was reported, or else the default. -/
theorem load_eq {d : Device} (h : StoredReported d) :
    settingsLoadSubtree d.stored d.detect_threshold
      = (lastReported d.log).getD defaultThreshold := by
  rw [h.stored]
  rcases hlast : lastReported d.log with _ | t
  · exact h.unreported hlast
  · rfl

/-- **One step** keeps the promise exactly when a save it makes succeeds. -/
theorem step_persists_iff {d d' : Device} {a : Act} (hstored : StoredReported d) (h : Persists d)
    (hs : machine.step d a = some d') : SavesSucceed d a ↔ Persists d' := by
  cases stepped hs with
  | shown saveErr => exact ⟨fun _ => h, fun _ => trivial⟩
  | refused saveErr hrefused =>
      refine ⟨fun _ => ⟨honest_refused h.honest, ?_⟩, fun _ hacc => absurd hacc hrefused⟩
      rw [lastReported_refused]
      exact h.loads
  | accepted saveErr haccepts =>
      constructor
      · intro hsave
        refine ⟨(honest_accepted_iff h.honest _ _).mpr (hsave haccepts), ?_⟩
        intro _
        rw [lastReported_accepted]
        rfl
      · intro hpersists _
        exact (honest_accepted_iff h.honest _ _).mp hpersists.honest
  | reset =>
      exact ⟨fun _ => ⟨h.honest, fun hloaded => absurd hloaded Bool.false_ne_true⟩,
        fun _ => trivial⟩
  | load => exact ⟨fun _ => ⟨h.honest, fun _ => load_eq hstored⟩, fun _ => trivial⟩

theorem step_storedReported {d d' : Device} {a : Act} (h : StoredReported d)
    (hsaves : SavesSucceed d a) (hs : machine.step d a = some d') : StoredReported d' := by
  cases stepped hs with
  | shown saveErr => exact h
  | refused saveErr hrefused =>
      refine ⟨?_, ?_⟩
      · rw [lastReported_refused]
        exact h.stored
      · rw [lastReported_refused]
        exact h.unreported
  | accepted saveErr haccepts =>
      refine ⟨?_, ?_⟩
      · intro t
        rw [lastReported_accepted, hsaves haccepts]
        exact settingsLoadSubtree_save _ d.stored t
      · intro hnone
        rw [lastReported_accepted] at hnone
        exact absurd hnone (Option.some_ne_none _)
  | reset => exact ⟨h.stored, fun _ => rfl⟩
  | load =>
      refine ⟨h.stored, ?_⟩
      intro hnone
      show settingsLoadSubtree d.stored d.detect_threshold = defaultThreshold
      rw [load_eq h, hnone]
      rfl

/-- **The report holds exactly in the runs whose saves succeed.**  In every such run, once
the settings are loaded the threshold is the last one reported as saved, or the default;
and a run in which that is so throughout, with no failed save reported as a success, had no
failed save of an accepted value. -/
theorem threshold_persists (acts : List Act) :
    (∀ d, machine.Reach SavesSucceed d → Persists d) ∧
      (machine.Always Persists machine.init acts ↔
        machine.Obeys SavesSucceed machine.init acts) := by
  have hinit : Persists machine.init :=
    ⟨fun o ho => absurd ho List.not_mem_nil, fun h => absurd h Bool.false_ne_true⟩
  have hstored : StoredReported machine.init := ⟨fun _ => rfl, fun _ => rfl⟩
  exact Transition.Machine.exact_condition (K := StoredReported)
    (fun _ _ _ hK hP hs => step_persists_iff hK hP hs)
    (fun _ _ _ hK _ hC hs => step_storedReported hK hC hs) hstored hinit acts

theorem parseThreshold_thirty : parseThreshold "30" = single 30 (by norm_num) := by
  have hspelled : Strtod.spelled "30" = .number false 30 := by decide +kernel
  have hdouble : Value.ofRat binary64 false ((30 : ℚ≥0) : ℚ) (30 : ℚ≥0).cast_nonneg
      = .finite false (Value.exactNat binary64 (by norm_num [Rounding.Format.minExp, binary64])
        (by norm_num [binary64]) 30 (by norm_num [binary64])) :=
    Value.ofRat_eq _ _ (by norm_num [Value.exactNat])
  unfold parseThreshold
  rw [hspelled]
  show (Value.ofRat binary64 false ((30 : ℚ≥0) : ℚ) (30 : ℚ≥0).cast_nonneg).convert binary32 = _
  rw [hdouble]
  exact Value.ofRat_eq (Nat.cast_nonneg 30) _ rfl

/-- `ac threshold 30` with a save that fails reports 30 as saved, and after the reboot the
threshold is 25. -/
theorem threshold_failed_save_reported :
    ∃ d, machine.run machine.init [.load, .threshold (some "30") (-5), .reset, .load] = some d ∧
      machine.Reachable d ∧ lastReported d.log = some (single 30 (by norm_num)) ∧
      d.detect_threshold = single 25 (by norm_num) ∧ ¬ Persists d := by
  let booted : Device := { machine.init with loaded := true }
  have haccepts : Accepts (parseThreshold "30") := by
    rw [parseThreshold_thirty]
    exact accepts_finite_iff.mpr ⟨rfl, by norm_num [Value.exactNat]⟩
  have hstep := step_of_accepts haccepts (-5) booted
  rw [parseThreshold_thirty] at hstep
  have hrun : machine.run machine.init [.load, .threshold (some "30") (-5), .reset, .load]
      = machine.run (booted.accepted (single 30 (by norm_num)) (-5)) [.reset, .load] :=
    machine.run_cons_of_step hstep _
  refine ⟨_, hrun, Transition.Machine.reachable_of_run hrun, rfl, rfl, ?_⟩
  intro hpersists
  have hloads := hpersists.loads rfl
  have hval : (25 : ℚ) = 30 := congrArg Magnitude.val (Value.finite.inj hloads).2
  norm_num at hval

end Shirokumakun.Threshold
