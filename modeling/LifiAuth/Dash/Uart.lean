import LifiAuth.Protocol.Constants
import LifiAuth.Protocol.Crc16
import LifiAuth.Protocol.Serial
import LifiAuth.Sender.Framing

/-!
# The byte parser of dash_receiver

One pass of the receiver's main loop polls one byte.  While `uart_state` is below
four it hunts for the preamble; in state four the byte is a message type and the
pass reads the rest of that frame with timed reads before it returns to hunting.
-/

namespace LifiAuth

/-- A frame that passed its length and CRC checks. -/
inductive Frame where
  | keyIdOnly (payload : List UInt8) (len_le : payload.length ≤ 64)
  | sstHs2 (hs2Payload : Bytes 80)
  | data (type : DataType) (nonce : Bytes 12) (ciphertext : Ctext)
      (tag : Bytes 16)
  deriving DecidableEq

namespace Frame

def type : Frame → UInt8
  | keyIdOnly _ _ => msgTypeKeyIdOnly
  | sstHs2 _ => msgTypeSstHs2
  | data t _ _ _ => t.byte

def payload : Frame → List UInt8
  | keyIdOnly p _ => p
  | sstHs2 p => p.toList
  | data _ nonce ctext tag => nonce.toList ++ ctext.1 ++ tag.toList

end Frame

/-- What one pass of the loop did with the serial line.  A report with a message
type ended that frame early. -/
inductive UartReport where
  | quiet
  | preambleBroke (pos : ℕ) (got : UInt8)
  | preambleOk
  | lengthReadFail (type : UInt8)
  | badLength (type : UInt8) (len : UInt16)
  | payloadReadFail (type : UInt8)
  | crcFail (type : UInt8)
  | unknownType (dbg : List UInt8)
  | frame (f : Frame)
  deriving DecidableEq

namespace UartReport

/-- The pass read nothing or one byte of the hunt. -/
def hunting : UartReport → Bool
  | quiet | preambleBroke _ _ | preambleOk => true
  | _ => false

/-- The type and payload handed to frame processing, if any. -/
def handed : UartReport → Option (UInt8 × List UInt8)
  | frame f => some (f.type, f.payload)
  | _ => none

end UartReport

/-- `uart_state` and what is still to come on the line. -/
structure Uart where
  uartState : ℕ
  line : List RxEvent
  deriving DecidableEq

/-! ## Reading one frame -/

/-- The frames whose payload is read in one piece: a length that `accepts`, the
payload and the CRC. -/
def readShort (type : UInt8) (accepts : ℕ → Bool)
    (mk : (payload : List UInt8) → accepts payload.length = true → Frame)
    (line : List RxEvent) : UartReport × List RxEvent :=
  match readExact 2 line with
  | (none, line) => (.lengthReadFail type, line)
  | (some len, line) =>
      let payloadLen := be16Of len
      if hlen : accepts payloadLen.toNat then
        match readExact payloadLen.toNat line with
        | (none, line) => (.payloadReadFail type, line)
        | (some payload, line) =>
            match readExact 2 line with
            | (none, line) => (.payloadReadFail type, line)
            | (some crc, line) =>
                let crcBuf := [type] ++ len.toList ++ payload.toList
                if crc16Ccitt crcBuf ≠ be16Of crc then
                  (.crcFail type, line)
                else
                  (.frame (mk payload.toList (by
                    rw [payload.toList_length]; exact hlen)), line)
      else (.badLength type payloadLen, line)

/-- The `MSG_TYPE_KEY_ID_ONLY` branch. -/
def readKeyIdOnly : List RxEvent → UartReport × List RxEvent :=
  readShort msgTypeKeyIdOnly (fun n => decide (n ≤ 64))
    (fun payload h => .keyIdOnly payload (of_decide_eq_true h))

/-- The `MSG_TYPE_SST_HS2` branch. -/
def readSstHs2 : List RxEvent → UartReport × List RxEvent :=
  readShort msgTypeSstHs2 (fun n => decide (n = sstHs2PayloadSize))
    (fun payload h => .sstHs2 ⟨payload, of_decide_eq_true h⟩)

/-- The `MSG_TYPE_ENCRYPTED` and `MSG_TYPE_FILE` branch.  All four reads are made
before their results are looked at. -/
def readData (t : DataType) (line : List RxEvent) :
    UartReport × List RxEvent :=
  match readExact 2 line with
  | (none, line) => (.lengthReadFail t.byte, line)
  | (some len, line) =>
      let payloadLen := be16Of len
      if hlen : payloadLen.toNat < sstNonceSize + sstTagSize ∨
          payloadLen.toNat > maxMsgLen then
        (.badLength t.byte payloadLen, line)
      else
        let ctextLen := payloadLen.toNat - sstNonceSize - sstTagSize
        let nonceRead := readExact 12 line
        let cipherRead := readExact ctextLen nonceRead.2
        let tagRead := readExact 16 cipherRead.2
        let crcRead := readExact 2 tagRead.2
        match nonceRead.1, cipherRead.1, tagRead.1, crcRead.1 with
        | some nonce, some ciphertext, some tag, some crc =>
            let crcBuf := [t.byte] ++ len.toList ++ nonce.toList ++
              ciphertext.toList ++ tag.toList
            if crc16Ccitt crcBuf ≠ be16Of crc then
              (.crcFail t.byte, crcRead.2)
            else
              (.frame (.data t nonce ⟨ciphertext.toList, by
                rw [ciphertext.toList_length]
                simp only [maxCtextLen]
                omega⟩ tag), crcRead.2)
        | _, _, _, _ => (.payloadReadFail t.byte, crcRead.2)

/-- The bytes the debug tap gets before a gap, at most `n`. -/
def tapRead : ℕ → List RxEvent → List UInt8 × List RxEvent
  | 0, line => ([], line)
  | n + 1, line =>
      match readExact 1 line with
      | (none, line) => ([], line)
      | (some b, line) => (b.head :: (tapRead n line).1, (tapRead n line).2)

/-- State four: `byte` is the message type. -/
def readFrame (byte : UInt8) (line : List RxEvent) :
    UartReport × List RxEvent :=
  if byte = msgTypeKeyIdOnly then readKeyIdOnly line
  else if byte = msgTypeSstHs2 then readSstHs2 line
  else if byte = msgTypeEncrypted then readData .encrypted line
  else if byte = msgTypeFile then readData .file line
  else (.unknownType (byte :: (tapRead 15 line).1), (tapRead 15 line).2)

/-! ## One pass of the loop -/

/-- The states of the hunt after a byte that does not continue the preamble. -/
def uartRestart (byte : UInt8) : ℕ :=
  if byte = preambleByte1 then 1 else 0

def uartByte (uartState : ℕ) (byte : UInt8) (line : List RxEvent) :
    UartReport × Uart :=
  match uartState with
  | 0 => (.quiet, ⟨if byte = preambleByte1 then 1 else 0, line⟩)
  | 1 =>
      if byte = preambleByte2 then (.quiet, ⟨2, line⟩)
      else (.preambleBroke 2 byte, ⟨uartRestart byte, line⟩)
  | 2 =>
      if byte = preambleByte3 then (.quiet, ⟨3, line⟩)
      else (.preambleBroke 3 byte, ⟨uartRestart byte, line⟩)
  | 3 =>
      if byte = preambleByte4 then (.preambleOk, ⟨4, line⟩)
      else (.preambleBroke 4 byte, ⟨uartRestart byte, line⟩)
  | 4 => ((readFrame byte line).1, ⟨0, (readFrame byte line).2⟩)
  | _ => (.quiet, ⟨0, line⟩)

/-- One pass: the poll takes a byte if one is waiting. -/
def uartIter (u : Uart) : UartReport × Uart :=
  match u.line with
  | [] => (.quiet, u)
  | .byte b :: line => uartByte u.uartState b line
  | .idle :: line => (.quiet, ⟨u.uartState, line⟩)
  | .timeout :: line => (.quiet, ⟨u.uartState, line⟩)

/-- The reports of `n` passes and the state after them. -/
def uartRun : ℕ → Uart → List UartReport × Uart
  | 0, u => ([], u)
  | n + 1, u =>
      let (r, u') := uartIter u
      (r :: (uartRun n u').1, (uartRun n u').2)

end LifiAuth
