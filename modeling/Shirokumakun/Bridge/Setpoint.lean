/-
The temperature of a derived state, and the setpoint it is taken from.

The setpoint is divided by 100, narrowed to a byte, and only then limited to 16..30, so
what is limited is the quotient modulo 256.  And the setpoint is chosen by an if-chain of
its own: the modes that `system_mode_to_ac_mode` maps to cooling by its default branch read
no setpoint at all.  Both functions that derive a state do the same.
-/
import Shirokumakun.Bridge.Derive

namespace Shirokumakun

/-! ### Limiting a temperature -/

/-- Whole degrees of a setpoint in hundredths, truncated. -/
def wholeDegrees (setpoint : Int16) : Int := setpoint.toInt.tdiv 100

/-- Limited to 16..30, over the integers. -/
def limited (setpoint : Int16) : Int := min 30 (max 16 (wholeDegrees setpoint))

/-- The two clamps, on the temperature alone. -/
def clampTempC (tempC : UInt8) : UInt8 :=
  let tempC := if tempC < 16 then 16 else tempC
  if 30 < tempC then 30 else tempC

theorem toNat_clampTempC (t : UInt8) : (clampTempC t).toNat = min 30 (max 16 t.toNat) := by
  unfold clampTempC
  by_cases hlow : t < 16
  · have hlow' : t.toNat < 16 := UInt8.lt_iff_toNat_lt.mp hlow
    have hhigh : ¬ (30 : UInt8) < 16 := by decide
    simp only [if_pos hlow, if_neg hhigh]
    show 16 = _
    omega
  · have hlow' : ¬ t.toNat < 16 := fun h => hlow (UInt8.lt_iff_toNat_lt.mpr h)
    simp only [if_neg hlow]
    by_cases hhigh : 30 < t
    · have hhigh' : 30 < t.toNat := UInt8.lt_iff_toNat_lt.mp hhigh
      rw [if_pos hhigh]
      show 30 = _
      omega
    · have hhigh' : ¬ 30 < t.toNat := fun h => hhigh (UInt8.lt_iff_toNat_lt.mpr h)
      rw [if_neg hhigh]
      omega

/-- The narrowing cast keeps the quotient modulo 256. -/
theorem toNat_toTempC (setpoint : Int16) :
    ((toTempC setpoint).toNat : Int) = wholeDegrees setpoint % 256 := by
  unfold toTempC UInt8.ofInt wholeDegrees
  rw [UInt8.toNat_ofNat']
  omega

/-- Truncation by cases, for the linear arithmetic below. -/
theorem wholeDegrees_cases (setpoint : Int16) :
    0 ≤ setpoint.toInt ∧ wholeDegrees setpoint = setpoint.toInt / 100 ∨
      setpoint.toInt < 0 ∧ wholeDegrees setpoint = -(-setpoint.toInt / 100) := by
  unfold wholeDegrees
  by_cases hsign : 0 ≤ setpoint.toInt
  · exact Or.inl ⟨hsign, Int.tdiv_eq_ediv_of_nonneg hsign⟩
  · refine Or.inr ⟨by omega, ?_⟩
    rw [← Int.tdiv_eq_ediv_of_nonneg (by omega), Int.neg_tdiv, Int.neg_neg]

/-- The setpoints whose quotient modulo 256 is limited to what the quotient itself is: the
quotient fits a byte, or it is far enough below zero, or above 255, to come out on the same
side. -/
def Clamps (setpoint : Int16) : Prop :=
  (-99 ≤ setpoint.toInt ∧ setpoint.toInt ≤ 25599) ∨
    (-25699 ≤ setpoint.toInt ∧ setpoint.toInt ≤ -24000) ∨ 28600 ≤ setpoint.toInt

/-- **When the clamp is right.** -/
theorem clamp_eq_iff (setpoint : Int16) :
    ((clampTempC (toTempC setpoint)).toNat : Int) = limited setpoint ↔ Clamps setpoint := by
  have hlow : -32768 ≤ setpoint.toInt := setpoint.le_toInt
  have hhigh : setpoint.toInt < 32768 := setpoint.toInt_lt
  have hbyte := toNat_toTempC setpoint
  rw [toNat_clampTempC]
  unfold limited Clamps
  rcases wholeDegrees_cases setpoint with ⟨hsign, hq⟩ | ⟨hsign, hq⟩
  · rw [hq] at hbyte ⊢
    omega
  · rw [hq] at hbyte ⊢
    omega

theorem limited_mono {s t : Int16} (h : s.toInt ≤ t.toInt) : limited s ≤ limited t := by
  unfold limited
  rcases wholeDegrees_cases s with ⟨hs, hqs⟩ | ⟨hs, hqs⟩
  · rcases wholeDegrees_cases t with ⟨ht, hqt⟩ | ⟨ht, hqt⟩
    · omega
    · omega
  · rcases wholeDegrees_cases t with ⟨ht, hqt⟩ | ⟨ht, hqt⟩
    · omega
    · omega

/-! ### The derived state -/

/-- The setpoint that the derivation reads, 24 degrees where it reads none. -/
def selectedSetpoint (store : AttributeStore) : Int16 :=
  if store.getEnum8 systemModeAttr kCool = 3 then
    store.getInt16 occupiedCoolingSetpointAttr 2400
  else if store.getEnum8 systemModeAttr kCool = 4 then
    store.getInt16 occupiedHeatingSetpointAttr 2400
  else 2400

/-- Clamping a state clamps its temperature. -/
theorem clamp_state (state : AcState) :
    (let low := if state.tempC < 16 then { state with tempC := 16 } else state
     if 30 < low.tempC then { low with tempC := 30 } else low)
      = { state with tempC := clampTempC state.tempC } := by
  unfold clampTempC
  by_cases hlow : state.tempC < 16
  · have hhigh : ¬ (30 : UInt8) < 16 := by decide
    simp only [if_pos hlow, if_neg hhigh]
  · simp only [if_neg hlow]
    by_cases hhigh : 30 < state.tempC
    · simp only [if_pos hhigh]
    · simp only [if_neg hhigh]

/-- **The derivation, field by field.** -/
theorem derive_eq (store : AttributeStore) : derive store =
    { power := store.getBool onOffAttr false
      mode := systemModeToAcMode (store.getEnum8 systemModeAttr kCool)
      tempC := clampTempC (toTempC (selectedSetpoint store))
      fan := fanModeToSpeed (store.getEnum8 fanModeAttr kAuto) } :=
  clamp_state _

/-- In Cool or Heat, `setpoint` is what the setpoint attribute of that mode holds. -/
def Governs (store : AttributeStore) (setpoint : Int16) : Prop :=
  (store systemModeAttr = some (.enum8 3) ∧
      store occupiedCoolingSetpointAttr = some (.int16s setpoint)) ∨
    (store systemModeAttr = some (.enum8 4) ∧
      store occupiedHeatingSetpointAttr = some (.int16s setpoint))

theorem derive_tempC_of_governs {store : AttributeStore} {setpoint : Int16}
    (h : Governs store setpoint) : (derive store).tempC = clampTempC (toTempC setpoint) := by
  have hselected : selectedSetpoint store = setpoint := by
    unfold selectedSetpoint AttributeStore.getEnum8 AttributeStore.getInt16
    rcases h with ⟨hmode, hset⟩ | ⟨hmode, hset⟩
    · rw [hmode, hset]
      rfl
    · rw [hmode, hset]
      rfl
  rw [derive_eq, hselected]

/-- **Where the temperature is right.**  In Cool and in Heat, and in both functions, the
temperature is the setpoint in whole degrees limited to 16..30 exactly if `Clamps` holds of
the setpoint; it always is in 16..30, and over the setpoints of which `Clamps` holds it is
monotone. -/
theorem tempC_limited_iff (store : AttributeStore) (statics : IrStatics) (setpoint : Int16)
    (h : Governs store setpoint) :
    (((derive store).tempC.toNat : Int) = limited setpoint ↔ Clamps setpoint) ∧
    (((zclCallbacksReady store statics).lastSent.tempC.toNat : Int) = limited setpoint ↔
      Clamps setpoint) ∧
    16 ≤ (derive store).tempC ∧ (derive store).tempC ≤ 30 ∧
    ∀ store' setpoint', Governs store' setpoint' → Clamps setpoint → Clamps setpoint' →
      setpoint.toInt ≤ setpoint'.toInt →
        (derive store).tempC.toNat ≤ (derive store').tempC.toNat := by
  have htemp := derive_tempC_of_governs h
  refine ⟨?_, ?_, (derive_tempC store).1, (derive_tempC store).2, ?_⟩
  · rw [htemp]
    exact clamp_eq_iff setpoint
  · rw [zclCallbacksReady_eq, htemp]
    exact clamp_eq_iff setpoint
  · intro store' setpoint' h' hclamps hclamps' hle
    have hs := (clamp_eq_iff setpoint).mpr hclamps
    have ht := (clamp_eq_iff setpoint').mpr hclamps'
    have hmono := limited_mono hle
    rw [htemp, derive_tempC_of_governs h']
    omega

/-! ### Stores that can be read -/

/-- A value for each attribute read. -/
structure Readings where
  onOff : Bool
  systemMode : UInt8
  cooling : Int16
  heating : Int16
  fanMode : UInt8

/-- Every `Get` succeeds, with these values. -/
structure Holds (store : AttributeStore) (r : Readings) : Prop where
  onOff : store onOffAttr = some (.boolean r.onOff)
  systemMode : store systemModeAttr = some (.enum8 r.systemMode)
  cooling : store occupiedCoolingSetpointAttr = some (.int16s r.cooling)
  heating : store occupiedHeatingSetpointAttr = some (.int16s r.heating)
  fanMode : store fanModeAttr = some (.enum8 r.fanMode)

/-- The store that holds just them. -/
def Readings.store (r : Readings) : AttributeStore := fun path =>
  if path = onOffAttr then some (.boolean r.onOff)
  else if path = systemModeAttr then some (.enum8 r.systemMode)
  else if path = occupiedCoolingSetpointAttr then some (.int16s r.cooling)
  else if path = occupiedHeatingSetpointAttr then some (.int16s r.heating)
  else if path = fanModeAttr then some (.enum8 r.fanMode)
  else none

theorem Readings.holds (r : Readings) : Holds r.store r := ⟨rfl, rfl, rfl, rfl, rfl⟩

/-- The device's default of 26 degrees, in Cool. -/
theorem tempC_limited_default :
    let r : Readings := ⟨true, 3, 2600, 2000, 5⟩
    ((derive r.store).tempC.toNat : Int) = limited 2600 := by
  intro r
  exact (tempC_limited_iff r.store ⟨derive r.store, true, true⟩ 2600
    (Or.inl ⟨rfl, rfl⟩)).1.mpr (Or.inl ⟨by decide, by decide⟩)

/-- One degree below zero is sent as 30 degrees. -/
theorem tempC_below_zero :
    let r : Readings := ⟨true, 3, -100, 2000, 5⟩
    Governs r.store (-100) ∧ (derive r.store).tempC = 30 ∧ limited (-100) = 16 ∧
      ∀ statics, (zclCallbacksReady r.store statics).lastSent.tempC = 30 := by
  intro r
  refine ⟨Or.inl ⟨rfl, rfl⟩, by decide, by decide, ?_⟩
  intro statics
  rw [zclCallbacksReady_eq]
  decide

/-! ### Mode and setpoint -/

/-- SystemMode in its range, the setpoints in 7.00 to 32.00 degrees. -/
structure Readings.Admitted (r : Readings) : Prop where
  systemMode : r.systemMode ≤ 9
  cooling : 700 ≤ r.cooling.toInt ∧ r.cooling.toInt ≤ 3200
  heating : 700 ≤ r.heating.toInt ∧ r.heating.toInt ≤ 3200

/-- Two setpoints that are whole degrees apart within 16..30. -/
def DegreesApart (s t : Int16) : Prop :=
  (16 ≤ wholeDegrees s ∧ wholeDegrees s ≤ 30) ∧ (16 ≤ wholeDegrees t ∧ wholeDegrees t ≤ 30) ∧
    wholeDegrees s ≠ wholeDegrees t

/-- **Mode and setpoint agree** in the state that `d` derives from a store: a state that
cools has the cooling setpoint, one that heats the heating setpoint, and moving it by whole
degrees changes the state. -/
structure SetpointFollowed (d : AttributeStore → AcState) (store : AttributeStore)
    (r : Readings) : Prop where
  cooling : (d store).mode = acModeCooling → ((d store).tempC.toNat : Int) = limited r.cooling
  heating : (d store).mode = acModeHeating → ((d store).tempC.toNat : Int) = limited r.heating
  cooling_moves : (d store).mode = acModeCooling → ∀ s t, DegreesApart s t →
    d (store.write occupiedCoolingSetpointAttr (.int16s s))
      ≠ d (store.write occupiedCoolingSetpointAttr (.int16s t))
  heating_moves : (d store).mode = acModeHeating → ∀ s t, DegreesApart s t →
    d (store.write occupiedHeatingSetpointAttr (.int16s s))
      ≠ d (store.write occupiedHeatingSetpointAttr (.int16s t))

/-- Cool, Heat, FanOnly or Dry: the modes that `system_mode_to_ac_mode` names. -/
def Named (systemMode : UInt8) : Prop :=
  systemMode = 3 ∨ systemMode = 4 ∨ systemMode = 7 ∨ systemMode = 8

theorem derive_mode {store : AttributeStore} {m : UInt8}
    (h : store systemModeAttr = some (.enum8 m)) :
    (derive store).mode = systemModeToAcMode m := by
  rw [derive_eq, AttributeStore.getEnum8, h]

theorem limited_of_admitted {s : Int16} (h : 700 ≤ s.toInt ∧ s.toInt ≤ 3200) :
    ((clampTempC (toTempC s)).toNat : Int) = limited s :=
  (clamp_eq_iff s).mpr (Or.inl ⟨by omega, by omega⟩)

/-- The setpoint of the mode, moved by whole degrees, moves the temperature. -/
theorem derive_ne_of_governs {store store' : AttributeStore} {s t : Int16}
    (h : Governs store s) (h' : Governs store' t) (hapart : DegreesApart s t) :
    derive store ≠ derive store' := by
  obtain ⟨⟨hs, hs'⟩, ⟨ht, ht'⟩, hne⟩ := hapart
  have hclamps : ∀ u : Int16, 16 ≤ wholeDegrees u → wholeDegrees u ≤ 30 →
      ((clampTempC (toTempC u)).toNat : Int) = wholeDegrees u := by
    intro u hu hu'
    have hbyte := toNat_toTempC u
    rw [toNat_clampTempC]
    omega
  intro heq
  have htemp : clampTempC (toTempC s) = clampTempC (toTempC t) := by
    rw [← derive_tempC_of_governs h, ← derive_tempC_of_governs h', heq]
  apply hne
  rw [← hclamps s hs hs', ← hclamps t ht ht', htemp]

/-- A mode that the switch does not name cools, and reads no setpoint. -/
theorem derive_of_not_named {store : AttributeStore} {m : UInt8}
    (h : store systemModeAttr = some (.enum8 m)) (hm : ¬ Named m) :
    (derive store).mode = acModeCooling ∧ ∀ s,
      derive (store.write occupiedCoolingSetpointAttr (.int16s s)) = derive store := by
  unfold Named at hm
  rw [not_or, not_or, not_or] at hm
  obtain ⟨h3, h4, h7, h8⟩ := hm
  refine ⟨?_, ?_⟩
  · rw [derive_mode h]
    unfold systemModeToAcMode
    rw [if_neg h3, if_neg h4, if_neg h7, if_neg h8]
  · intro s
    have hother : ∀ path : AttributePath, path ≠ occupiedCoolingSetpointAttr →
        store.write occupiedCoolingSetpointAttr (.int16s s) path = store path :=
      fun path hpath => Function.update_of_ne hpath _ _
    have hselected : ∀ st : AttributeStore, st systemModeAttr = some (.enum8 m) →
        selectedSetpoint st = 2400 := by
      intro st hst
      unfold selectedSetpoint AttributeStore.getEnum8
      rw [hst]
      exact (if_neg h3).trans (if_neg h4)
    have hmode : store.write occupiedCoolingSetpointAttr (.int16s s) systemModeAttr
        = some (.enum8 m) := (hother systemModeAttr (by decide)).trans h
    rw [derive_eq, derive_eq store, hselected _ hmode, hselected _ h]
    unfold AttributeStore.getBool AttributeStore.getEnum8
    rw [hother onOffAttr (by decide), hother systemModeAttr (by decide),
      hother fanModeAttr (by decide)]

/-- The setpoint written is the one that governs, in the mode it belongs to. -/
theorem governs_write {store : AttributeStore} (s : Int16) :
    (store systemModeAttr = some (.enum8 3) →
      Governs (store.write occupiedCoolingSetpointAttr (.int16s s)) s) ∧
    (store systemModeAttr = some (.enum8 4) →
      Governs (store.write occupiedHeatingSetpointAttr (.int16s s)) s) := by
  refine ⟨?_, ?_⟩
  · intro hmode
    refine Or.inl ⟨?_, Function.update_self _ _ _⟩
    exact (Function.update_of_ne (by decide) _ _).trans hmode
  · intro hmode
    refine Or.inr ⟨?_, Function.update_self _ _ _⟩
    exact (Function.update_of_ne (by decide) _ _).trans hmode

theorem followed_of_named {store : AttributeStore} {r : Readings} (h : Holds store r)
    (hadmitted : r.Admitted) (hm : Named r.systemMode) : SetpointFollowed derive store r := by
  have hmode := derive_mode h.systemMode
  have hcool := h.systemMode
  rcases hm with hm | hm | hm | hm
  · rw [hm] at hmode hcool
    have hheats : (derive store).mode ≠ acModeHeating := by
      rw [hmode]
      decide
    refine ⟨fun _ => ?_, fun h => absurd h hheats, fun _ s t => ?_, fun h => absurd h hheats⟩
    · rw [derive_tempC_of_governs (Or.inl ⟨hcool, h.cooling⟩)]
      exact limited_of_admitted hadmitted.cooling
    · exact derive_ne_of_governs ((governs_write s).1 hcool) ((governs_write t).1 hcool)
  · rw [hm] at hmode hcool
    have hcools : (derive store).mode ≠ acModeCooling := by
      rw [hmode]
      decide
    refine ⟨fun h => absurd h hcools, fun _ => ?_, fun h => absurd h hcools, fun _ s t => ?_⟩
    · rw [derive_tempC_of_governs (Or.inr ⟨hcool, h.heating⟩)]
      exact limited_of_admitted hadmitted.heating
    · exact derive_ne_of_governs ((governs_write s).2 hcool) ((governs_write t).2 hcool)
  · rw [hm] at hmode
    have hneither : (derive store).mode ≠ acModeCooling ∧ (derive store).mode ≠ acModeHeating := by
      rw [hmode]
      decide
    exact ⟨fun h => absurd h hneither.1, fun h => absurd h hneither.2,
      fun h => absurd h hneither.1, fun h => absurd h hneither.2⟩
  · rw [hm] at hmode
    have hneither : (derive store).mode ≠ acModeCooling ∧ (derive store).mode ≠ acModeHeating := by
      rw [hmode]
      decide
    exact ⟨fun h => absurd h hneither.1, fun h => absurd h hneither.2,
      fun h => absurd h hneither.1, fun h => absurd h hneither.2⟩

/-- **The setpoint is followed exactly in the modes that are named.**  For stores that can
be read, in both functions. -/
theorem setpoint_followed_iff (store : AttributeStore) (statics : IrStatics) (r : Readings)
    (h : Holds store r) (hadmitted : r.Admitted) :
    (SetpointFollowed derive store r ↔ Named r.systemMode) ∧
    (SetpointFollowed (fun s => (zclCallbacksReady s statics).lastSent) store r ↔
      Named r.systemMode) := by
  have hcopy : (fun s => (zclCallbacksReady s statics).lastSent) = derive := by
    funext s
    rw [zclCallbacksReady_eq]
  have hiff : SetpointFollowed derive store r ↔ Named r.systemMode := by
    constructor
    · intro hfollowed
      by_contra hm
      obtain ⟨hcools, hsame⟩ := derive_of_not_named h.systemMode hm
      have hapart : DegreesApart 1600 1700 :=
        ⟨⟨by decide, by decide⟩, ⟨by decide, by decide⟩, by decide⟩
      exact hfollowed.cooling_moves hcools 1600 1700 hapart
        ((hsame 1600).trans (hsame 1700).symm)
    · intro hm
      exact followed_of_named h hadmitted hm
  refine ⟨hiff, ?_⟩
  rw [hcopy]
  exact hiff

/-- The device's defaults, in Cool. -/
theorem setpoint_followed_cool :
    let r : Readings := ⟨true, 3, 2600, 2000, 5⟩
    SetpointFollowed derive r.store r := by
  intro r
  exact (setpoint_followed_iff r.store ⟨derive r.store, true, true⟩ r r.holds
    ⟨by decide, by decide, by decide⟩).1.mpr (Or.inl rfl)

/-- In the device's default SystemMode, 1, the unit cools to 24 degrees for a setpoint of
26, and for every other. -/
theorem setpoint_ignored :
    let r : Readings := ⟨true, 1, 2600, 2000, 5⟩
    Holds r.store r ∧ r.Admitted ∧ (derive r.store).mode = acModeCooling ∧
      (derive r.store).tempC = 24 ∧ limited r.cooling = 26 ∧
      ¬ SetpointFollowed derive r.store r := by
  intro r
  refine ⟨r.holds, ⟨by decide, by decide, by decide⟩, by decide, by decide, by decide, ?_⟩
  intro hfollowed
  exact absurd (hfollowed.cooling (by decide)) (by decide)

end Shirokumakun
