import LifiAuth.Support.Bytes
import LifiAuth.Support.Hunt

/-!
# Protocol constants

The framing constants, message types and sizes of `include/protocol.h` and
`include/sst_crypto_embedded.h`.
-/

namespace LifiAuth

/-! ## Framing -/

def preambleByte1 : UInt8 := 0xAB
def preambleByte2 : UInt8 := 0xCD
def preambleByte3 : UInt8 := 0xEF
def preambleByte4 : UInt8 := 0x12

/-- The four bytes that open every frame. -/
def preamble : List UInt8 :=
  [preambleByte1, preambleByte2, preambleByte3, preambleByte4]

/-- The preamble starts with a byte that does not occur again in it, so a partial
preamble in front of a real one never hides it. -/
theorem preamble_freshHead : Support.FreshHead preamble := by decide

/-! ## Message types -/

def msgTypeEncrypted : UInt8 := 0x02
def msgTypeFile : UInt8 := 0x06
def msgTypeKeyIdOnly : UInt8 := 0x07
def msgTypeSstHs1 : UInt8 := 0x08
def msgTypeSstHs2 : UInt8 := 0x09
def msgTypeSstHs3 : UInt8 := 0x0A
def msgTypeKey : UInt8 := 0x10

/-! ## Sizes -/

/-- Bytes of an AES-128 key as the Pico holds it (`SST_KEY_SIZE`). -/
def sstKeySize : ℕ := 16
/-- Bytes of the cipher key buffer of `session_key_t` (`SESSION_KEY_SIZE`). -/
def sessionKeySize : ℕ := 32
/-- `SST_KEY_ID_SIZE` and `SESSION_KEY_ID_SIZE`. -/
def sstKeyIdSize : ℕ := 8
/-- `SST_NONCE_SIZE` and `NONCE_SIZE`. -/
def sstNonceSize : ℕ := 12
/-- `SST_TAG_SIZE` and `TAG_SIZE`. -/
def sstTagSize : ℕ := 16
/-- `SST_MAC_KEY_SIZE`. -/
def sstMacKeySize : ℕ := 32
def maxMsgLen : ℕ := 8192
def keyUpdateCooldownS : ℕ := 15

def sstHs1PayloadSize : ℕ := 72
def sstHs2PayloadSize : ℕ := 80
def sstHs3PayloadSize : ℕ := 80

end LifiAuth
