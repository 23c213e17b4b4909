/-
The SCD40 sensor and what one poll of it does.

The I2C controller, the kernel's sleep and the attribute store of the Matter stack are not
part of the program; they are parameters here.  A bus is any state with a write, a read
and the passing of time on it, so every pattern of failures and every content of a
successful read is the behaviour of some bus.  The outcome of `i2c_read` is its code and
whatever is in the buffer afterwards, read or not.

`published` is not a variable of the program: it records the arguments with which
`update_matter_attributes` has been called, so that a call can be seen even when it writes
what was there before.
-/
import Mathlib.Logic.Function.Iterate
import Shirokumakun.Lib.Retry
import Shirokumakun.Lib.Transition

namespace Shirokumakun.Scd40

/-! ### What the driver calls -/

/-- An I2C controller with the kernel's sleep, on bus states `β`; zero is success. -/
structure I2cBus (β : Type*) where
  write : (addr : UInt8) → List UInt8 → β → Int × β
  read : (addr : UInt8) → (len : Nat) → β → Int × Vector UInt8 len × β
  sleepMsec : Nat → β → β

inductive AirQualityEnum
  | kUnknown
  | kGood
  | kFair
  | kModerate
  | kPoor
  | kVeryPoor
  | kExtremelyPoor
  deriving DecidableEq, Repr

/-- The attribute setters of the Matter stack, on attribute stores `γ`.  The CO2 value is
handed over as a float; every 16-bit value is one exactly, so it is kept as such. -/
structure MatterStack (γ : Type*) where
  setLocalTemperature : (endpoint : Nat) → Int16 → γ → γ
  setRelativeHumidity : (endpoint : Nat) → UInt16 → γ → γ
  updateAirQuality : (endpoint : Nat) → AirQualityEnum → γ → γ
  setCo2MeasuredValue : (endpoint : Nat) → UInt16 → γ → γ

/-! ### Data -/

/-- The three values `scd40_read_measurement` writes through its pointers. -/
structure Measurement where
  co2_ppm : UInt16
  temp_001c : Int16
  rh_001pct : UInt16
  deriving DecidableEq, Repr

structure Scd40Reading where
  co2_ppm : UInt16
  temp_001c : Int16
  rh_001pct : UInt16
  valid : Bool
  deriving DecidableEq, Repr

def Measurement.reading (m : Measurement) : Scd40Reading :=
  ⟨m.co2_ppm, m.temp_001c, m.rh_001pct, true⟩

/-- The driver's variable, the attributes it writes and the calls that wrote them. -/
structure Sensor (γ : Type*) where
  attributes : γ
  last_reading : Scd40Reading
  published : List Measurement

def scd40I2cAddr : UInt8 := 0x62
def scd40CmdDataReady : UInt16 := 0xE4B8
def scd40CmdReadMeasurement : UInt16 := 0xEC05
def eio : Int := 5

/-! ### Words and their checksum -/

/-- One bit of the CRC-8 with polynomial 0x31. -/
def crcBit (crc : UInt8) : UInt8 :=
  if crc &&& 0x80 ≠ 0 then (crc <<< 1) ^^^ 0x31 else crc <<< 1

def sensirionCrc (data : List UInt8) : UInt8 :=
  data.foldl (fun crc byte => crcBit^[8] (crc ^^^ byte)) 0xFF

example : sensirionCrc [0xBE, 0xEF] = 0x92 := by decide +kernel

/-- `((uint16_t)hi << 8) | lo`. -/
def be16 (hi lo : UInt8) : UInt16 := (hi.toUInt16 <<< 8) ||| lo.toUInt16

/-- The word at `buf[3 * w]`, `buf[3 * w + 1]` matches the checksum behind it. -/
def CrcMatches (buf : Vector UInt8 9) (w : Fin 3) : Prop :=
  sensirionCrc [buf[3 * w.val], buf[3 * w.val + 1]] = buf[3 * w.val + 2]

instance (buf : Vector UInt8 9) (w : Fin 3) : Decidable (CrcMatches buf w) :=
  inferInstanceAs (Decidable (_ = _))

def rawWord (buf : Vector UInt8 9) (w : Fin 3) : UInt16 :=
  be16 buf[3 * w.val] buf[3 * w.val + 1]

/-- A word with its checksum, as it is sent. -/
def wordBytes (buf : Vector UInt8 9) (w : Fin 3) : List UInt8 :=
  [buf[3 * w.val], buf[3 * w.val + 1], buf[3 * w.val + 2]]

/-- The one word of the response that says whether data is ready matches its checksum. -/
def ReadyMatches (ready_buf : Vector UInt8 3) : Prop :=
  sensirionCrc [ready_buf[0], ready_buf[1]] = ready_buf[2]

instance (ready_buf : Vector UInt8 3) : Decidable (ReadyMatches ready_buf) :=
  inferInstanceAs (Decidable (_ = _))

/-- `ready & 0x07FF`: zero says no. -/
def readyBits (ready_buf : Vector UInt8 3) : UInt16 :=
  be16 ready_buf[0] ready_buf[1] &&& 0x07FF

/-- `-4500 + (int32_t)(17500UL * raw_temp / 65535UL)`, with 32-bit `unsigned long`. -/
def tempX100 (raw_temp : UInt16) : Int32 :=
  -4500 + (17500 * raw_temp.toUInt32 / 65535 : UInt32).toInt32

/-- `(uint16_t)(10000UL * raw_rh / 65535UL)`. -/
def rhX100 (raw_rh : UInt16) : UInt16 :=
  (10000 * raw_rh.toUInt32 / 65535 : UInt32).toUInt16

/-- What the three words of a response stand for. -/
def decode (buf : Vector UInt8 9) : Measurement where
  co2_ppm := rawWord buf 0
  temp_001c := (tempX100 (rawWord buf 1)).toInt16
  rh_001pct := rhX100 (rawWord buf 2)

def co2ToAirQuality (co2_ppm : UInt16) : AirQualityEnum :=
  if co2_ppm < 400 then .kGood
  else if co2_ppm < 600 then .kFair
  else if co2_ppm < 1000 then .kModerate
  else if co2_ppm < 1500 then .kPoor
  else if co2_ppm < 2000 then .kVeryPoor
  else .kExtremelyPoor

/-! ### The driver -/

section

variable {β : Type*} (bus : I2cBus β)

/-- One turn of the loop in `scd40_write_cmd`: a write, and a sleep if it failed. -/
def writeAttempt (cmd : UInt16) (b : β) : Int × β :=
  let buf := [(cmd >>> 8).toUInt8, (cmd &&& 0xFF).toUInt8]
  let (ret, b') := bus.write scd40I2cAddr buf b
  if ret = 0 then (ret, b') else (ret, bus.sleepMsec 100 b')

/-- `ret` has no value before the loop; the loop runs at least once and sets it. -/
def scd40WriteCmd (cmd : UInt16) (b : β) : Int × β :=
  Retry.upTo (writeAttempt bus cmd) 60 0 b

/-- `out` is what the three output parameters point to: written only at the end. -/
def scd40ReadMeasurement (out : Measurement) (b : β) : Int × Measurement × β :=
  let (ret, b₁) := scd40WriteCmd bus scd40CmdReadMeasurement b
  if ret ≠ 0 then (ret, out, b₁)
  else
    let (ret, buf, b₂) := bus.read scd40I2cAddr 9 (bus.sleepMsec 1 b₁)
    if ret ≠ 0 then (ret, out, b₂)
    else if ∃ w, ¬ CrcMatches buf w then (-eio, out, b₂)
    else (0, decode buf, b₂)

variable {γ : Type*} (stack : MatterStack γ)

def updateMatterAttributes (m : Measurement) (s : Sensor γ) : Sensor γ :=
  let attributes := stack.setLocalTemperature 1 m.temp_001c s.attributes
  let attributes := stack.setRelativeHumidity 2 m.rh_001pct attributes
  let attributes := stack.updateAirQuality 3 (co2ToAirQuality m.co2_ppm) attributes
  let attributes := stack.setCo2MeasuredValue 3 m.co2_ppm attributes
  ⟨attributes, m.reading, s.published ++ [m]⟩

/-- `out` is what is on the stack where the handler keeps its three locals. -/
def pollWorkHandler (out : Measurement) (b : β) (s : Sensor γ) : β × Sensor γ :=
  let (ret, b₁) := scd40WriteCmd bus scd40CmdDataReady b
  if ret ≠ 0 then (b₁, s)
  else
    let (ret, ready_buf, b₂) := bus.read scd40I2cAddr 3 (bus.sleepMsec 1 b₁)
    if ret ≠ 0 then (b₂, s)
    else if be16 ready_buf[0] ready_buf[1] &&& 0x07FF = 0 then (b₂, s)
    else
      let (ret, m, b₃) := scd40ReadMeasurement bus out b₂
      if ret ≠ 0 then (b₃, s) else (b₃, updateMatterAttributes stack m s)

end

/-! ### Sequences of polls -/

/-- The bus and the driver. -/
structure System (β γ : Type*) where
  bus : β
  sensor : Sensor γ

/-- A poll, or anything at all happening on the bus between two polls. -/
inductive Act (β : Type*)
  | poll (out : Measurement)
  | elapse (b : β)

def sensorInit {γ : Type*} (attributes : γ) : Sensor γ :=
  ⟨attributes, ⟨0, 0, 0, false⟩, []⟩

def step {β γ : Type*} (bus : I2cBus β) (stack : MatterStack γ) (s : System β γ) :
    Act β → System β γ
  | .poll out =>
      let (b, sensor) := pollWorkHandler bus stack out s.bus s.sensor
      ⟨b, sensor⟩
  | .elapse b => { s with bus := b }

/-- The sensor from power-on, `b` and `attributes` being what start-up leaves. -/
def machine {β γ : Type*} (bus : I2cBus β) (stack : MatterStack γ) (b : β) (attributes : γ) :
    Transition.Machine (System β γ) (Act β) where
  init := ⟨b, sensorInit attributes⟩
  step s a := some (step bus stack s a)

end Shirokumakun.Scd40
