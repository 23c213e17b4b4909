/-
Whether what is published belongs to one measurement.

A poll writes four attributes and the reading, one after the other, and looks at no return
code.  The attribute of the CO2 concentration has limits, set when the sensor is started, and
keeps its old value when it is given one beyond them; the sensor sends sixteen bits.  The
limits are therefore exactly what decides whether the five values stay together.

The clusters belong to the Matter stack.  They are parameters, and `Behaves` says what is
relied on: `view` reads the attributes back.
-/
import Shirokumakun.Scd40.Corruption

namespace Shirokumakun.Scd40

/-! ### The clusters -/

/-- The setters of `MatterStack`, what is called besides at start-up, and the attributes a
device boots with. -/
structure ClusterStack (γ : Type*) extends MatterStack γ where
  start : γ
  airQualityInit : γ → γ
  co2Init : γ → γ
  setMinMeasuredValue : (endpoint : Nat) → UInt16 → γ → γ
  setMaxMeasuredValue : (endpoint : Nat) → UInt16 → γ → γ

/-- The attributes, read back; `none` is null. -/
structure View where
  localTemperature : Option Int16
  relativeHumidity : Option UInt16
  airQuality : AirQualityEnum
  co2MeasuredValue : Option UInt16
  co2Min : Option UInt16
  co2Max : Option UInt16
  deriving DecidableEq

/-- The value is not beyond a limit that has been set. -/
def View.Accepts (x : View) (v : UInt16) : Prop :=
  (∀ low ∈ x.co2Min, low ≤ v) ∧ ∀ high ∈ x.co2Max, v ≤ high

-- A limit is one value at most, so instance search must not go through all of them.
instance (x : View) (v : UInt16) : Decidable (x.Accepts v) :=
  @instDecidableAnd _ _ (Option.decidableForallMem x.co2Min) (Option.decidableForallMem x.co2Max)

/-- What the clusters do.  The measured value of the CO2 cluster is null until it is set, and
the limits are set while it still is; outside of them it keeps its value.  The other setters
succeed. -/
structure Behaves {γ : Type*} (stack : ClusterStack γ) (view : γ → View) : Prop where
  start : (view stack.start).co2MeasuredValue = none ∧ (view stack.start).co2Min = none ∧
    (view stack.start).co2Max = none
  airQualityInit : ∀ a, view (stack.airQualityInit a) = view a
  co2Init : ∀ a, view (stack.co2Init a) = view a
  setMin : ∀ low a, (view a).co2MeasuredValue = none → (view a).co2Max = none →
    view (stack.setMinMeasuredValue 3 low a) = { view a with co2Min := some low }
  setMax : ∀ high a, (view a).co2MeasuredValue = none →
    (∀ low ∈ (view a).co2Min, low ≤ high) →
      view (stack.setMaxMeasuredValue 3 high a) = { view a with co2Max := some high }
  localTemperature : ∀ v a,
    view (stack.setLocalTemperature 1 v a) = { view a with localTemperature := some v }
  relativeHumidity : ∀ v a,
    view (stack.setRelativeHumidity 2 v a) = { view a with relativeHumidity := some v }
  airQuality : ∀ v a, view (stack.updateAirQuality 3 v a) = { view a with airQuality := v }
  co2_accepted : ∀ v a, (view a).Accepts v →
    view (stack.setCo2MeasuredValue 3 v a) = { view a with co2MeasuredValue := some v }
  co2_rejected : ∀ v a, ¬ (view a).Accepts v →
    view (stack.setCo2MeasuredValue 3 v a) = view a

/-! ### Starting the sensor -/

def scd40CmdStartPeriodic : UInt16 := 0x21B1
def scd40CmdStopPeriodic : UInt16 := 0x3F86
def enodev : Int := 19

/-- The code, and what is left of bus and attributes; polling begins if the code is zero. -/
def scd40ManagerInit {β γ : Type*} (bus : I2cBus β) (stack : ClusterStack γ)
    (deviceIsReady : Bool) (b : β) : Int × β × γ :=
  if deviceIsReady then
    let attributes := stack.airQualityInit stack.start
    let attributes := stack.co2Init attributes
    let attributes := stack.setMinMeasuredValue 3 0 attributes
    let attributes := stack.setMaxMeasuredValue 3 40000 attributes
    let (_, b) := scd40WriteCmd bus scd40CmdStopPeriodic (bus.sleepMsec 1000 b)
    let (ret, b) := scd40WriteCmd bus scd40CmdStartPeriodic (bus.sleepMsec 500 b)
    (ret, b, attributes)
  else (-enodev, b, stack.start)

/-! ### One measurement -/

/-- The attributes and the reading are those of the measurement. -/
structure Agrees (m : Measurement) (x : View) (r : Scd40Reading) : Prop where
  reading : r = m.reading
  temperature : x.localTemperature = some m.temp_001c
  humidity : x.relativeHumidity = some m.rh_001pct
  airQuality : x.airQuality = co2ToAirQuality m.co2_ppm
  co2 : x.co2MeasuredValue = some m.co2_ppm

section

variable {β γ : Type*} (bus : I2cBus β) (view : γ → View)

/-- All that is published is the most recent measurement. -/
def OneFrame (s : System β γ) : Prop :=
  ∀ m, s.sensor.published.getLast? = some m →
    Agrees m (view s.sensor.attributes) s.sensor.last_reading

/-- A poll that completes gets no more than 40000 ppm. -/
def Co2InRange (s : System β γ) : Act β → Prop
  | .poll _ => ∀ frame, Completes bus s.bus frame → (decode frame).co2_ppm ≤ 40000
  | .elapse _ => True

/-- The invariant: the limits stand, and the concentration is within them. -/
structure Limits (x : View) : Prop where
  low : x.co2Min = some 0
  high : x.co2Max = some 40000
  within : ∀ v, x.co2MeasuredValue = some v → v ≤ 40000

end

section

variable {β γ : Type*} {bus : I2cBus β} {stack : ClusterStack γ} {view : γ → View}

theorem Limits.accepts_iff {x : View} (h : Limits x) (v : UInt16) : x.Accepts v ↔ v ≤ 40000 := by
  constructor
  · intro hv
    exact hv.2 40000 h.high
  · intro hv
    refine ⟨?_, ?_⟩
    · intro low hlow
      rw [h.low, Option.mem_some] at hlow
      rw [← hlow]
      exact UInt16.zero_le
    · intro high hhigh
      rw [h.high, Option.mem_some] at hhigh
      rwa [← hhigh]

theorem limits_of_init (h : Behaves stack view) {deviceIsReady : Bool} {b₀ b : β} {a : γ}
    (hinit : scd40ManagerInit bus stack deviceIsReady b₀ = (0, b, a)) : Limits (view a) := by
  cases deviceIsReady with
  | false =>
      have hcode : -enodev = 0 := (Prod.mk.inj hinit).1
      exact absurd hcode (by decide)
  | true =>
      obtain ⟨hnull, hnolow, hnohigh⟩ := h.start
      have hboot : view (stack.co2Init (stack.airQualityInit stack.start)) = view stack.start := by
        rw [h.co2Init, h.airQualityInit]
      have hlow := h.setMin 0 (stack.co2Init (stack.airQualityInit stack.start))
        (by rw [hboot, hnull]) (by rw [hboot, hnohigh])
      rw [hboot] at hlow
      have hhigh := h.setMax 40000 (stack.setMinMeasuredValue 3 0 _) (by rw [hlow, hnull]) (by
        intro low hlow'
        rw [hlow, Option.mem_some] at hlow'
        rw [← hlow']
        exact UInt16.zero_le)
      obtain ⟨-, ha⟩ := Prod.mk.inj (Prod.mk.inj hinit).2
      rw [← ha]
      refine ⟨?_, ?_, ?_⟩
      · rw [hhigh, hlow]
      · rw [hhigh]
      · intro v hv
        rw [hhigh, hlow, hnull] at hv
        exact absurd hv.symm (Option.some_ne_none v)

/-- **One publication**, within the limits or beyond them. -/
theorem publish_cases (h : Behaves stack view) {s : Sensor γ} (hlim : Limits (view s.attributes))
    (m : Measurement) :
    Limits (view (updateMatterAttributes stack.toMatterStack m s).attributes) ∧
      (Agrees m (view (updateMatterAttributes stack.toMatterStack m s).attributes) m.reading ↔
        m.co2_ppm ≤ 40000) := by
  -- What the first three setters leave.
  have hthree : view (stack.updateAirQuality 3 (co2ToAirQuality m.co2_ppm)
      (stack.setRelativeHumidity 2 m.rh_001pct
        (stack.setLocalTemperature 1 m.temp_001c s.attributes)))
      = { view s.attributes with
          localTemperature := some m.temp_001c
          relativeHumidity := some m.rh_001pct
          airQuality := co2ToAirQuality m.co2_ppm } := by
    rw [h.airQuality, h.relativeHumidity, h.localTemperature]
  have hlimits : Limits { view s.attributes with
      localTemperature := some m.temp_001c
      relativeHumidity := some m.rh_001pct
      airQuality := co2ToAirQuality m.co2_ppm } := ⟨hlim.low, hlim.high, hlim.within⟩
  have hlast : (updateMatterAttributes stack.toMatterStack m s).attributes
      = stack.setCo2MeasuredValue 3 m.co2_ppm (stack.updateAirQuality 3
          (co2ToAirQuality m.co2_ppm) (stack.setRelativeHumidity 2 m.rh_001pct
            (stack.setLocalTemperature 1 m.temp_001c s.attributes))) := rfl
  rw [hlast]
  by_cases hrange : m.co2_ppm ≤ 40000
  · rw [h.co2_accepted _ _ (by rw [hthree]; exact (hlimits.accepts_iff _).mpr hrange), hthree]
    refine ⟨⟨hlim.low, hlim.high, ?_⟩, iff_of_true ⟨rfl, rfl, rfl, rfl, rfl⟩ hrange⟩
    intro v hv
    rw [← Option.some.inj hv]
    exact hrange
  · rw [h.co2_rejected _ _ (by rw [hthree]; exact mt (hlimits.accepts_iff _).mp hrange), hthree]
    refine ⟨hlimits, iff_of_false ?_ hrange⟩
    intro hagrees
    exact hrange (hlim.within _ hagrees.co2)

/-! ### Sequences of polls -/

theorem oneFrame_init {b : β} {a : γ} :
    OneFrame view (machine bus stack.toMatterStack b a).init := by
  intro m hm
  exact absurd hm.symm (Option.some_ne_none m)

variable {s : System β γ} {a : Act β}

/-- A step keeps the limits. -/
theorem limits_step (h : Behaves stack view) (hlim : Limits (view s.sensor.attributes)) :
    Limits (view (step bus stack.toMatterStack s a).sensor.attributes) := by
  by_cases hsucc : Succeeds bus s a
  · cases a with
    | poll out =>
        obtain ⟨frame, hframe⟩ := hsucc
        rw [step_of_completes hframe out]
        exact (publish_cases h hlim (decode frame)).1
    | elapse b => exact absurd hsucc not_false
  · rw [step_of_not_succeeds hsucc]
    exact hlim

/-- **A step keeps the values together** exactly when it stays in range. -/
theorem oneFrame_step_iff (h : Behaves stack view) (hlim : Limits (view s.sensor.attributes))
    (hone : OneFrame view s) :
    Co2InRange bus s a ↔ OneFrame view (step bus stack.toMatterStack s a) := by
  by_cases hsucc : Succeeds bus s a
  · cases a with
    | poll out =>
        obtain ⟨frame, hframe⟩ := hsucc
        have hstep : (step bus stack.toMatterStack s (.poll out)).sensor
            = updateMatterAttributes stack.toMatterStack (decode frame) s.sensor :=
          step_of_completes hframe out
        have hlast : (step bus stack.toMatterStack s (.poll out)).sensor.published.getLast?
            = some (decode frame) := by
          rw [hstep]
          exact List.getLast?_concat ..
        have hreading : (step bus stack.toMatterStack s (.poll out)).sensor.last_reading
            = (decode frame).reading := by
          rw [hstep]
          rfl
        have hiff := (publish_cases h hlim (decode frame)).2
        constructor
        · intro hrange m hm
          rw [hlast, Option.some.injEq] at hm
          rw [← hm, hreading, hstep]
          exact hiff.mpr (hrange frame hframe)
        · intro hone' frame' hframe'
          have hagrees := hone' _ hlast
          rw [hreading, hstep] at hagrees
          rw [← hframe.unique hframe']
          exact hiff.mp hagrees
    | elapse b => exact absurd hsucc not_false
  · have hsame : (step bus stack.toMatterStack s a).sensor = s.sensor :=
      step_of_not_succeeds hsucc
    have hrange : Co2InRange bus s a := by
      cases a with
      | poll out =>
          intro frame hframe
          exact absurd ⟨frame, hframe⟩ hsucc
      | elapse b => trivial
    refine iff_of_true hrange ?_
    intro m hm
    rw [hsame] at hm ⊢
    exact hone m hm

end

/-- **Exactly when what is published belongs to one measurement**: in the runs in which no
poll gets more than 40000 ppm.  The most recent measurement is that of the last poll that
completed. -/
theorem oneFrame_exact {β γ : Type*} {bus : I2cBus β} {stack : ClusterStack γ} {view : γ → View}
    (h : Behaves stack view) {deviceIsReady : Bool} {b₀ b : β} {a : γ}
    (hinit : scd40ManagerInit bus stack deviceIsReady b₀ = (0, b, a)) (acts : List (Act β)) :
    (∀ s, (machine bus stack.toMatterStack b a).Reach (Co2InRange bus) s → OneFrame view s) ∧
    ((machine bus stack.toMatterStack b a).Always (OneFrame view)
        (machine bus stack.toMatterStack b a).init acts ↔
      (machine bus stack.toMatterStack b a).Obeys (Co2InRange bus)
        (machine bus stack.toMatterStack b a).init acts) ∧
    (∀ s out frame, Completes bus s.bus frame →
      (step bus stack.toMatterStack s (.poll out)).sensor.published.getLast?
        = some (decode frame)) ∧
    (∀ s act, ¬ Succeeds bus s act →
      (step bus stack.toMatterStack s act).sensor = s.sensor) := by
  have hexact := Transition.Machine.exact_condition (m := machine bus stack.toMatterStack b a)
    (C := Co2InRange bus) (P := OneFrame view) (K := fun s => Limits (view s.sensor.attributes))
    (fun s act s' hlim hone hs => by
      obtain rfl := Option.some.inj hs
      exact oneFrame_step_iff h hlim hone)
    (fun s act s' hlim _ _ hs => by
      obtain rfl := Option.some.inj hs
      exact limits_step h hlim)
    (limits_of_init h hinit) oneFrame_init acts
  refine ⟨hexact.1, hexact.2, ?_, ?_⟩
  · intro s out frame hframe
    rw [step_of_completes hframe out]
    exact List.getLast?_concat ..
  · intro s act hno
    exact step_of_not_succeeds hno

/-! ### A measurement beyond the limits -/

/-- Clusters that are nothing but the values in them. -/
def cells : ClusterStack View where
  start := ⟨none, none, .kUnknown, none, none, none⟩
  airQualityInit x := x
  co2Init x := x
  setMinMeasuredValue _ low x := { x with co2Min := some low }
  setMaxMeasuredValue _ high x := { x with co2Max := some high }
  setLocalTemperature _ v x := { x with localTemperature := some v }
  setRelativeHumidity _ v x := { x with relativeHumidity := some v }
  updateAirQuality _ v x := { x with airQuality := v }
  setCo2MeasuredValue _ v x := if x.Accepts v then { x with co2MeasuredValue := some v } else x

/-- The values after start-up. -/
def startedCells : View := ⟨none, none, .kUnknown, none, some 0, some 40000⟩

theorem cells_behaves : Behaves cells id where
  start := ⟨rfl, rfl, rfl⟩
  airQualityInit _ := rfl
  co2Init _ := rfl
  setMin _ _ _ _ := rfl
  setMax _ _ _ _ := rfl
  localTemperature _ _ := rfl
  relativeHumidity _ _ := rfl
  airQuality _ _ := rfl
  co2_accepted _ _ h := if_pos h
  co2_rejected _ _ h := if_neg h

/-- A response with 40001 ppm. -/
def highFrame : List UInt8 := [0x9C, 0x41, 0x74, 0x66, 0x67, 0xA2, 0x5E, 0xB9, 0x3C]

/-- What the sensor that answers everything measures. -/
theorem completes_answering {b : List UInt8} {frame : Vector UInt8 9}
    (hframe : Vector.ofFn (fun i => b.getD i 0) = frame) (hcrc : ∀ w, CrcMatches frame w) :
    Completes (answering [0x80, 0x06, 0x04]) b frame := by
  refine ⟨b, #v[0x80, 0x06, 0x04], b, ?_, rfl, by decide, b, b, ?_, ?_, hcrc⟩
  · exact scd40WriteCmd_eq_zero_iff.mp rfl
  · exact scd40WriteCmd_eq_zero_iff.mp rfl
  · rw [← hframe]
    rfl

/-- After a poll of 500 ppm the values belong to one measurement; with a poll of 40001 ppm
after it they do not throughout. -/
theorem oneFrame_cells :
    OneFrame id (step (answering [0x80, 0x06, 0x04]) cells.toMatterStack
      ⟨sampleFrame, sensorInit startedCells⟩ (.poll ⟨0, 0, 0⟩)) ∧
    ¬ (machine (answering [0x80, 0x06, 0x04]) cells.toMatterStack sampleFrame startedCells).Always
      (OneFrame id) ⟨sampleFrame, sensorInit startedCells⟩
      [.poll ⟨0, 0, 0⟩, .elapse highFrame, .poll ⟨0, 0, 0⟩] := by
  have hinit : scd40ManagerInit (answering [0x80, 0x06, 0x04]) cells true sampleFrame
      = (0, sampleFrame, startedCells) := rfl
  obtain ⟨hreach, hexact, -⟩ := oneFrame_exact cells_behaves hinit
    [.poll ⟨0, 0, 0⟩, .elapse highFrame, .poll ⟨0, 0, 0⟩]
  have hlow : Completes (answering [0x80, 0x06, 0x04]) sampleFrame
      #v[0x01, 0xF4, 0x33, 0x66, 0x67, 0xA2, 0x5E, 0xB9, 0x3C] :=
    completes_answering (by decide) (by decide +kernel)
  have hhigh : Completes (answering [0x80, 0x06, 0x04]) highFrame
      #v[0x9C, 0x41, 0x74, 0x66, 0x67, 0xA2, 0x5E, 0xB9, 0x3C] :=
    completes_answering (by decide) (by decide +kernel)
  constructor
  · refine hreach _ (.step (a := .poll ⟨0, 0, 0⟩) .init ?_ rfl)
    intro frame hframe
    rw [hframe.unique hlow]
    decide
  · intro halways
    -- The run ends with a poll that is out of range.
    obtain ⟨-, hobeys⟩ := hexact.mp halways _ rfl
    obtain ⟨-, hobeys⟩ := hobeys _ rfl
    obtain ⟨hrange, -⟩ := hobeys _ rfl
    exact absurd (hrange _ hhigh) (by decide)

/-- After 500 ppm come 40001: the reading and the air quality follow, the concentration that
is published stays. -/
theorem co2_left_behind :
    scd40ManagerInit (answering [0x80, 0x06, 0x04]) cells true sampleFrame
      = (0, sampleFrame, startedCells) ∧
    ∃ s, (machine (answering [0x80, 0x06, 0x04]) cells.toMatterStack sampleFrame startedCells).run
        (machine (answering [0x80, 0x06, 0x04]) cells.toMatterStack sampleFrame startedCells).init
        [.poll ⟨0, 0, 0⟩, .elapse highFrame, .poll ⟨0, 0, 0⟩] = some s ∧
      s.sensor.last_reading.co2_ppm = 40001 ∧
      s.sensor.attributes.airQuality = .kExtremelyPoor ∧
      s.sensor.attributes.co2MeasuredValue = some 500 ∧
      ¬ OneFrame id s := by
  refine ⟨rfl, _, rfl, by decide +kernel, by decide +kernel, by decide +kernel, ?_⟩
  intro h
  have hagrees := h ⟨40001, 2500, 3700⟩ (by decide +kernel)
  exact absurd hagrees.co2 (by decide +kernel)

end Shirokumakun.Scd40
