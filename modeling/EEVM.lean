import EEVM.Rlp.RoundTrip
import EEVM.Rlp.Termination
import EEVM.Processor
import EEVM.Simple
import EEVM.Limits
import EEVM.EndOfCode
import EEVM.Context
import EEVM.Opcode
import EEVM.Nested
import EEVM.Conservation
import EEVM.Exceptional
import EEVM.InstructionStream
import EEVM.Escape
import EEVM.Rlp.Bounds
import EEVM.Rlp.Variadic
import EEVM.Payment
import EEVM.Rlp.Reference
import EEVM.Rlp.Framing
import EEVM.Rlp.Exact
import EEVM.Rlp.Canonical
import EEVM.Rlp.Narrow
import EEVM.JumpComments
import EEVM.Listing
import EEVM.Confidential
import EEVM.Creation
import EEVM.Json
import EEVM.Arithmetic
import EEVM.StackEffect
import EEVM.Refused
import EEVM.WriteBack
import EEVM.InitCode
import EEVM.Jumps
import EEVM.Addresses
import EEVM.Storage
import EEVM.CallData
import EEVM.EmptyRanges
import EEVM.CodeSize
import EEVM.Halting
import EEVM.Persistence
import EEVM.CopyMem
import EEVM.Checksum
import EEVM.Tracing
import EEVM.Intx.Conversions
