import LifiAuth.Support.Bytes
import Mathlib.Logic.Function.Iterate

/-!
# CRC-16-CCITT

The frame checksum of `include/crc16.h`: polynomial `0x1021`, initial value
`0xFFFF`, most significant bit first, no reflection and no final xor.
-/

namespace LifiAuth

/-- One round of the inner loop of `crc16_ccitt`. -/
def crc16Bit (crc : UInt16) : UInt16 :=
  if crc &&& 0x8000 ≠ 0 then (crc <<< 1) ^^^ 0x1021 else crc <<< 1

/-- One round of the outer loop: absorb a byte and shift eight times. -/
def crc16Byte (crc : UInt16) (b : UInt8) : UInt16 :=
  crc16Bit^[8] (crc ^^^ (b.toUInt16 <<< 8))

def crc16Ccitt (data : List UInt8) : UInt16 :=
  data.foldl crc16Byte 0xFFFF

/-- `crc16_append`: the data followed by its checksum, high byte first. -/
def crc16Append (data : List UInt8) : List UInt8 :=
  data ++ (be16Bytes (crc16Ccitt data)).toList

/-- `crc16_validate` on the whole buffer. -/
def crc16Validate (buf : List UInt8) : Bool :=
  if buf.length < 2 then false
  else
    let dataLen := buf.length - 2
    crc16Ccitt (buf.take dataLen) ==
      be16 (buf.getD dataLen 0) (buf.getD (dataLen + 1) 0)

/-- The standard check value of this parameter set. -/
example : crc16Ccitt "123456789".toUTF8.toList = 0x29B1 := by decide +kernel

/-- A buffer with its checksum appended validates. -/
theorem crc16Validate_crc16Append (data : List UInt8) :
    crc16Validate (crc16Append data) = true := by
  simp [crc16Validate, crc16Append, be16Bytes, be16_be16Bytes]

end LifiAuth
