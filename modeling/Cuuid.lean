import Cuuid.Lib.BigEndian
import Cuuid.Lib.BitField
import Cuuid.Lib.LengthFold
import Cuuid.Lib.Framing
import Cuuid.Lib.Transition
import Cuuid.Lib.MersenneTwister
import Cuuid.Common
import Cuuid.Expander
import Cuuid.Engine
import Cuuid.Uuid
import Cuuid.Window
import Cuuid.Layout
import Cuuid.Wire
import Cuuid.Condense
import Cuuid.Condenser
import Cuuid.V1
import Cuuid.V6
import Cuuid.Dispatch
import Cuuid.RoundTrip
import Cuuid.Compaction
import Cuuid.Order
import Cuuid.Packed
import Cuuid.Form
import Cuuid.Safety
import Cuuid.Canonical
import Cuuid.SharedWire
import Cuuid.Compacted
import Cuuid.Migration
import Cuuid.Rewriting
import Cuuid.FirstByte
import Cuuid.Generator
import Cuuid.Interleaving
import Cuuid.Process
import Cuuid.Log
import Cuuid.Lib.Registers
import Cuuid.Lib.Hex
import Cuuid.Setters
import Cuuid.Text
import Cuuid.Sorting
import Cuuid.Byteswap
import Cuuid.Lib.Unbounded
import Cuuid.Lib.Radix
import Cuuid.Lib.Mixing
import Cuuid.Lib.Bisect
import Cuuid.Lib.FrontCoding
import Cuuid.Prototype.Format
import Cuuid.Prototype.Framing
import Cuuid.Prototype.Cpp
import Cuuid.Prototype.Python
import Cuuid.Prototype.JavaScript
import Cuuid.Prototype.Arithmetic
import Cuuid.Prototype.Decoders
import Cuuid.Prototype.Encoders
import Cuuid.Prototype.RoundTrip
import Cuuid.Prototype.WireOrder
import Cuuid.Prototype.SizeSchedule
import Cuuid.Prototype.FrontCode
import Cuuid.Prototype.Mixing
import Cuuid.Prototype.V6Bytes
import Cuuid.Prototype.CanonicalText
import Cuuid.Prototype.Base59
