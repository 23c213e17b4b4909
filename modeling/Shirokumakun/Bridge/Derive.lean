/-
From Matter attributes to an AC state, `zcl_callbacks.cpp`.

Two functions of the source compute an `AcState` from the same five attributes of
endpoint 1: `send_ir_if_changed`, which builds the state it may transmit, and
`zcl_callbacks_ready`, which records the state at boot as already sent.  They are copies
of each other, not one function, so they are two definitions here as well, each from its
own text, and `zclCallbacksReady_eq` says that they agree on every store.

`zcl_callbacks_ready` is kept as a list of statements because the Matter thread can run
between any two of them; `zclCallbacksReady` executes the list without interruption.
-/
import Shirokumakun.IrCodec
import Mathlib.Logic.Function.Basic

namespace Shirokumakun

/-! ### Attributes -/

/-- `ConcreteAttributePath`. -/
structure AttributePath where
  mEndpointId : UInt16
  mClusterId : UInt32
  mAttributeId : UInt32
deriving DecidableEq

/-- An attribute's value by its type. -/
inductive AttributeValue
  | boolean (b : Bool)
  | enum8 (n : UInt8)
  | int16s (n : Int16)
  | octets (bytes : List UInt8)
deriving DecidableEq

/-- What the attributes hold; `none` where there is nothing to read. -/
def AttributeStore : Type := AttributePath → Option AttributeValue

namespace AttributeStore

def write (store : AttributeStore) (path : AttributePath) (v : AttributeValue) : AttributeStore :=
  Function.update store path (some v)

/-- The generated `Get` accessors: a `Get` that fails leaves the variable `x` as it is. -/
def getBool (store : AttributeStore) (path : AttributePath) (x : Bool) : Bool :=
  match store path with
  | some (.boolean b) => b
  | _ => x

def getEnum8 (store : AttributeStore) (path : AttributePath) (x : UInt8) : UInt8 :=
  match store path with
  | some (.enum8 n) => n
  | _ => x

def getInt16 (store : AttributeStore) (path : AttributePath) (x : Int16) : Int16 :=
  match store path with
  | some (.int16s n) => n
  | _ => x

end AttributeStore

def onOffId : UInt32 := 0x0006
def thermostatId : UInt32 := 0x0201
def fanControlId : UInt32 := 0x0202

/-- The attributes read, all on endpoint 1. -/
def onOffAttr : AttributePath := ⟨1, onOffId, 0x0000⟩
def systemModeAttr : AttributePath := ⟨1, thermostatId, 0x001C⟩
def occupiedCoolingSetpointAttr : AttributePath := ⟨1, thermostatId, 0x0011⟩
def occupiedHeatingSetpointAttr : AttributePath := ⟨1, thermostatId, 0x0012⟩
def fanModeAttr : AttributePath := ⟨1, fanControlId, 0x0000⟩

/-- `SystemModeEnum::kCool` and `FanModeEnum::kAuto`, the initial values. -/
def kCool : UInt8 := 3
def kAuto : UInt8 := 5

/-! ### Mappings -/

/-- `system_mode_to_ac_mode`. -/
def systemModeToAcMode (systemMode : UInt8) : AcMode :=
  if systemMode = 3 then acModeCooling
  else if systemMode = 4 then acModeHeating
  else if systemMode = 7 then acModeVentilation
  else if systemMode = 8 then acModeDehumidify
  else acModeCooling

/-- `fan_mode_to_speed`. -/
def fanModeToSpeed (fanMode : UInt8) : FanSpeed :=
  if fanMode = 0 then fanSpeed1
  else if fanMode = 1 then fanSpeed1
  else if fanMode = 2 then fanSpeed3
  else if fanMode = 3 then fanSpeed5
  else if fanMode = 5 then fanSpeedAuto
  else fanSpeedAuto

/-- `(uint8_t)(setpoint / 100)`: the division truncates towards zero, the cast wraps. -/
def toTempC (setpoint : Int16) : UInt8 := UInt8.ofInt (setpoint.toInt.tdiv 100)

/-! ### The state to send -/

/-- The state that `send_ir_if_changed` builds. -/
def derive (store : AttributeStore) : AcState :=
  let onOff := store.getBool onOffAttr false
  let systemMode := store.getEnum8 systemModeAttr kCool
  let setpoint :=
    if systemMode = 3 then store.getInt16 occupiedCoolingSetpointAttr 2400
    else if systemMode = 4 then store.getInt16 occupiedHeatingSetpointAttr 2400
    else 2400
  let fanMode := store.getEnum8 fanModeAttr kAuto
  let state : AcState :=
    { power := onOff
      mode := systemModeToAcMode systemMode
      tempC := toTempC setpoint
      fan := fanModeToSpeed fanMode }
  let state := if state.tempC < 16 then { state with tempC := 16 } else state
  if 30 < state.tempC then { state with tempC := 30 } else state

/-! ### The snapshot at boot -/

/-- The statics of `zcl_callbacks.cpp`. -/
structure IrStatics where
  lastSent : AcState
  lastSentValid : Bool
  irReady : Bool

/-- What `zcl_callbacks_ready` reads into. -/
structure ReadyLocals where
  onOff : Bool
  systemMode : UInt8
  setpoint : Int16
  fanMode : UInt8

def ReadyLocals.initial : ReadyLocals := ⟨false, kCool, 2400, kAuto⟩

/-- The statements of `zcl_callbacks_ready`. -/
inductive ReadyStmt
  | getOnOff
  | getSystemMode
  | getSetpoint
  | getFanMode
  | setPower
  | setMode
  | setTempC
  | setFan
  | clampLow
  | clampHigh
  | setValid
  | setReady
deriving DecidableEq

/-- The locals and the statics as the function finds them at a statement. -/
structure ReadyFrame where
  locals : ReadyLocals
  statics : IrStatics

/-- An assignment to a field of `last_sent`. -/
def ReadyFrame.setLastSent (fr : ReadyFrame) (f : AcState → AcState) : ReadyFrame :=
  { fr with statics := { fr.statics with lastSent := f fr.statics.lastSent } }

def ReadyStmt.exec (store : AttributeStore) (fr : ReadyFrame) : ReadyStmt → ReadyFrame
  | .getOnOff =>
      { fr with locals := { fr.locals with onOff := store.getBool onOffAttr fr.locals.onOff } }
  | .getSystemMode => { fr with locals := { fr.locals with
      systemMode := store.getEnum8 systemModeAttr fr.locals.systemMode } }
  | .getSetpoint => { fr with locals := { fr.locals with
      setpoint :=
        if fr.locals.systemMode = 3 then
          store.getInt16 occupiedCoolingSetpointAttr fr.locals.setpoint
        else if fr.locals.systemMode = 4 then
          store.getInt16 occupiedHeatingSetpointAttr fr.locals.setpoint
        else fr.locals.setpoint } }
  | .getFanMode =>
      { fr with locals :=
          { fr.locals with fanMode := store.getEnum8 fanModeAttr fr.locals.fanMode } }
  | .setPower => fr.setLastSent fun last => { last with power := fr.locals.onOff }
  | .setMode => fr.setLastSent fun last =>
      { last with mode := systemModeToAcMode fr.locals.systemMode }
  | .setTempC => fr.setLastSent fun last => { last with tempC := toTempC fr.locals.setpoint }
  | .setFan => fr.setLastSent fun last => { last with fan := fanModeToSpeed fr.locals.fanMode }
  | .clampLow => fr.setLastSent fun last =>
      if last.tempC < 16 then { last with tempC := 16 } else last
  | .clampHigh => fr.setLastSent fun last =>
      if 30 < last.tempC then { last with tempC := 30 } else last
  | .setValid => { fr with statics := { fr.statics with lastSentValid := true } }
  | .setReady => { fr with statics := { fr.statics with irReady := true } }

/-- The statements from `todo` on, executed on one store. -/
def execAll (store : AttributeStore) (fr : ReadyFrame) (todo : List ReadyStmt) : ReadyFrame :=
  todo.foldl (ReadyStmt.exec store) fr

/-- The body of `zcl_callbacks_ready`. -/
def readyBody : List ReadyStmt :=
  [.getOnOff, .getSystemMode, .getSetpoint, .getFanMode, .setPower, .setMode, .setTempC, .setFan,
    .clampLow, .clampHigh, .setValid, .setReady]

/-- `zcl_callbacks_ready`, run to completion without interruption. -/
def zclCallbacksReady (store : AttributeStore) (statics : IrStatics) : IrStatics :=
  (execAll store ⟨.initial, statics⟩ readyBody).statics

/-- **The two derivations agree** on every store, whichever of its reads fail. -/
theorem zclCallbacksReady_eq (store : AttributeStore) (statics : IrStatics) :
    zclCallbacksReady store statics = ⟨derive store, true, true⟩ := rfl

/-! ### What a derived state looks like -/

theorem systemModeToAcMode_lt (systemMode : UInt8) : systemModeToAcMode systemMode < 16 := by
  unfold systemModeToAcMode
  repeat' split
  all_goals decide

theorem fanModeToSpeed_lt (fanMode : UInt8) : fanModeToSpeed fanMode < 16 := by
  unfold fanModeToSpeed
  repeat' split
  all_goals decide

/-- The two clamps bring every byte into 16 to 30 and leave the other fields alone. -/
theorem clamp_spec (state : AcState) :
    let low := if state.tempC < 16 then { state with tempC := 16 } else state
    let high := if 30 < low.tempC then { low with tempC := 30 } else low
    high.mode = state.mode ∧ high.fan = state.fan ∧ 16 ≤ high.tempC ∧ high.tempC ≤ 30 := by
  intro low high
  by_cases hlow : state.tempC < 16
  · have hlow' : low = { state with tempC := 16 } := if_pos hlow
    have hhigh : high = low := if_neg (by
      rw [hlow']
      show ¬ (30 : UInt8) < 16
      decide)
    rw [hhigh, hlow']
    exact ⟨rfl, rfl, (by decide : (16 : UInt8) ≤ 16), (by decide : (16 : UInt8) ≤ 30)⟩
  · have hlow' : low = state := if_neg hlow
    by_cases hover : 30 < state.tempC
    · have hhigh : high = { low with tempC := 30 } := if_pos (by rw [hlow']; exact hover)
      rw [hhigh, hlow']
      exact ⟨rfl, rfl, (by decide : (16 : UInt8) ≤ 30), (by decide : (30 : UInt8) ≤ 30)⟩
    · have hhigh : high = low := if_neg (by rw [hlow']; exact hover)
      rw [hhigh, hlow']
      exact ⟨rfl, rfl, UInt8.not_lt.mp hlow, UInt8.not_lt.mp hover⟩

/-- The temperature of a derived state is one the unit accepts. -/
theorem derive_tempC (store : AttributeStore) :
    16 ≤ (derive store).tempC ∧ (derive store).tempC ≤ 30 :=
  (clamp_spec _).2.2

/-- A derived state fits into a frame. -/
theorem derive_wire (store : AttributeStore) :
    ∃ s : WireState, s.toAcState = derive store := by
  have hmode : (derive store).mode < 16 := by
    rw [show (derive store).mode = systemModeToAcMode _ from (clamp_spec _).1]
    exact systemModeToAcMode_lt _
  have hfan : (derive store).fan < 16 := by
    rw [show (derive store).fan = fanModeToSpeed _ from (clamp_spec _).2.1]
    exact fanModeToSpeed_lt _
  have htemp : (derive store).tempC < 64 :=
    UInt8.lt_of_le_of_lt (derive_tempC store).2 (by decide)
  exact ⟨⟨derive store, hmode, htemp, hfan⟩, rfl⟩

end Shirokumakun
