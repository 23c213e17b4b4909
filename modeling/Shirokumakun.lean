import Shirokumakun.Lib.Transition
import Shirokumakun.Lib.Coding
import Shirokumakun.Lib.Slot
import Shirokumakun.Lib.Dedup
import Shirokumakun.Lib.Retry
import Shirokumakun.Lib.Mixing
import Shirokumakun.Lib.Crc
import Shirokumakun.Lib.Cfar
import Shirokumakun.Lib.Rounding
import Shirokumakun.Lib.Binary
import Shirokumakun.Lib.Strtod
import Shirokumakun.Lib.Decimal
import Shirokumakun.Lib.Packed
import Shirokumakun.Lib.Radix
import Shirokumakun.Lib.BinaryField
import Shirokumakun.Lib.ReedSolomon
import Shirokumakun.Lib.Hamming
import Shirokumakun.Lib.Writes
import Shirokumakun.Lib.Bitmap
import Shirokumakun.Lib.Rects
import Shirokumakun.Lib.Least
import Shirokumakun.IrProtocol
import Shirokumakun.IrCodec
import Shirokumakun.IrBalance
import Shirokumakun.HwPairing
import Shirokumakun.Passcodes
import Shirokumakun.Seeds
import Shirokumakun.Provider
import Shirokumakun.Bridge.Derive
import Shirokumakun.Bridge.Callback
import Shirokumakun.Bridge.Setpoint
import Shirokumakun.Bridge.Frames
import Shirokumakun.Bridge.Machine
import Shirokumakun.Bridge.OffCommand
import Shirokumakun.Bridge.BootWindow
import Shirokumakun.Pdm.Model
import Shirokumakun.Pdm.Ownership
import Shirokumakun.Pdm.Attempts
import Shirokumakun.Pdm.Ack
import Shirokumakun.Pdm.Handover
import Shirokumakun.Mailbox.Model
import Shirokumakun.Mailbox.Runs
import Shirokumakun.Mailbox.Invariant
import Shirokumakun.Mailbox.Delivery
import Shirokumakun.Boot.Model
import Shirokumakun.Boot.FirstUse
import Shirokumakun.Boot.Wiring
import Shirokumakun.Boot.Progress
import Shirokumakun.Boot.EndToEnd
import Shirokumakun.Scd40.Model
import Shirokumakun.Scd40.Publication
import Shirokumakun.Scd40.Checksum
import Shirokumakun.Scd40.Corruption
import Shirokumakun.Scd40.OneFrame
import Shirokumakun.Scd40.Printing
import Shirokumakun.Threshold.Model
import Shirokumakun.Threshold.Decision
import Shirokumakun.Threshold.Usable
import Shirokumakun.Threshold.Persistence
import Shirokumakun.Identify.Model
import Shirokumakun.Identify.Dark
import Shirokumakun.Identify.Sessions
import Shirokumakun.Qr.Segments
import Shirokumakun.Qr.Payloads
import Shirokumakun.Qr.Capacity
import Shirokumakun.Qr.Codewords
import Shirokumakun.Qr.ErrorCorrection
import Shirokumakun.Qr.Interleave
import Shirokumakun.Qr.Modules
import Shirokumakun.Qr.Scan
import Shirokumakun.Qr.Patterns
import Shirokumakun.Qr.Format
import Shirokumakun.Qr.Penalty
import Shirokumakun.Qr.Masking
import Shirokumakun.Qr.Symbol
import Shirokumakun.Qr.Reading
import Shirokumakun.Qr.Landmarks
import Shirokumakun.Qr.Text
import Shirokumakun.Qr.Command
