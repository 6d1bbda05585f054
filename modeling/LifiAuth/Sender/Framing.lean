import LifiAuth.Protocol.Constants
import LifiAuth.Protocol.Crc16

/-!
# Frames the sender emits

The three places of `lifi_session_sender.c` that put a frame on the LiFi link:
the answer to `CMD: send_id`, the second handshake message and the encrypted
messages of the main loop.
-/

namespace LifiAuth

/-- The two message types that carry an encrypted payload. -/
inductive DataType where
  | encrypted
  | file
  deriving DecidableEq, Repr

def DataType.byte : DataType → UInt8
  | .encrypted => msgTypeEncrypted
  | .file => msgTypeFile

/-- The longest ciphertext that fits the receiver's length check. -/
def maxCtextLen : ℕ := maxMsgLen - sstNonceSize - sstTagSize

/-- A ciphertext short enough for one frame. -/
def Ctext := { l : List UInt8 // l.length ≤ maxCtextLen }
  deriving DecidableEq

/-- The frames sent over the LiFi link. -/
inductive LifiFrame where
  | keyIdOnly (payload : Bytes 8)
  | sstHs2 (hs2Blob : Bytes 80)
  | data (type : DataType) (nonce : Bytes 12) (ciphertext : Ctext)
      (tag : Bytes 16)
  deriving DecidableEq

namespace LifiFrame

def type : LifiFrame → UInt8
  | keyIdOnly _ => msgTypeKeyIdOnly
  | sstHs2 _ => msgTypeSstHs2
  | data t _ _ _ => t.byte

def payload : LifiFrame → List UInt8
  | keyIdOnly p => p.toList
  | sstHs2 p => p.toList
  | data _ nonce ctext tag => nonce.toList ++ ctext.1 ++ tag.toList

end LifiFrame

/-- `{(payload_len >> 8) & 0xFF, payload_len & 0xFF}`. -/
def lenBytes (n : ℕ) : Bytes 2 :=
  ⟨[UInt8.ofNat (n >>> 8), UInt8.ofNat n], rfl⟩

/-- `{(crc >> 8) & 0xFF, crc & 0xFF}`. -/
def crcBytes (crcBuf : List UInt8) : Bytes 2 :=
  be16Bytes (crc16Ccitt crcBuf)

/-- A frame whose payload is sent in one piece. -/
def sendShort (type : UInt8) (payload : List UInt8) : List UInt8 :=
  let len := (lenBytes payload.length).toList
  preamble ++ [type] ++ len ++ payload ++
    (crcBytes ([type] ++ len ++ payload)).toList

/-- The bytes of `CMD: send_id`. -/
def sendKeyIdOnly (payload : Bytes 8) : List UInt8 :=
  sendShort msgTypeKeyIdOnly payload.toList

/-- The bytes of step 10 of the HS1 handler. -/
def sendHs2 (hs2Blob : Bytes 80) : List UInt8 :=
  sendShort msgTypeSstHs2 hs2Blob.toList

/-- `CHUNK_SIZE` of the ciphertext loop. -/
def chunkSize : ℕ := 256

/-- The ciphertext loop: chunks of at most `chunkSize` bytes from `offset` on. -/
def sendChunks (ciphertext : List UInt8) (offset : ℕ) : List UInt8 :=
  if offset < ciphertext.length then
    let chunk :=
      if ciphertext.length - offset > chunkSize then chunkSize
      else ciphertext.length - offset
    (ciphertext.drop offset).take chunk ++
      sendChunks ciphertext (offset + chunkSize)
  else []
  termination_by ciphertext.length - offset
  decreasing_by
    have : 0 < chunkSize := by decide
    omega

/-- The bytes of an encrypted message, in the order of the source. -/
def sendData (type : DataType) (nonce : Bytes 12) (ciphertext : List UInt8)
    (tag : Bytes 16) : List UInt8 :=
  let len :=
    (lenBytes (sstNonceSize + ciphertext.length + sstTagSize)).toList
  let crcBuf :=
    [type.byte] ++ len ++ nonce.toList ++ ciphertext ++ tag.toList
  preamble ++ [type.byte] ++ len ++ nonce.toList ++ sendChunks ciphertext 0 ++
    tag.toList ++ (crcBytes crcBuf).toList

def LifiFrame.bytes : LifiFrame → List UInt8
  | keyIdOnly payload => sendKeyIdOnly payload
  | sstHs2 hs2Blob => sendHs2 hs2Blob
  | data type nonce ciphertext tag => sendData type nonce ciphertext.1 tag

/-! ## The common shape of a frame -/

/-- Chunking does not change the ciphertext. -/
theorem sendChunks_eq_drop (ciphertext : List UInt8) (offset : ℕ) :
    sendChunks ciphertext offset = ciphertext.drop offset := by
  fun_induction sendChunks ciphertext offset with
  | case1 offset h chunk ih =>
      rw [ih]
      by_cases hfull : ciphertext.length - offset > chunkSize
      · have hchunk : chunk = chunkSize := if_pos hfull
        rw [hchunk, ← List.drop_drop, List.take_append_drop]
      · have hchunk : chunk = ciphertext.length - offset := if_neg hfull
        have hrest : ciphertext.drop (offset + chunkSize) = [] :=
          List.drop_eq_nil_of_le (by omega)
        rw [hchunk, hrest, List.append_nil]
        exact List.take_of_length_le (by simp)
  | case2 offset h =>
      exact (List.drop_eq_nil_of_le (by omega)).symm

/-- Every frame is `preamble | type | length | payload | crc`. -/
theorem LifiFrame.bytes_eq_sendShort (f : LifiFrame) :
    f.bytes = sendShort f.type f.payload := by
  cases f with
  | keyIdOnly payload => rfl
  | sstHs2 hs2Blob => rfl
  | data type nonce ciphertext tag =>
      simp [bytes, sendData, sendShort, LifiFrame.type, LifiFrame.payload,
        sendChunks_eq_drop, sstNonceSize, sstTagSize, Nat.add_assoc]

end LifiAuth
