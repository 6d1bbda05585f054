import LifiAuth.Dash.File
import LifiAuth.Protocol.HeatshrinkStream
import LifiAuth.Support.Access

/-!
# Array accesses of the frame handlers

What the handlers of the four frame types read and write, statement by statement: the
timed reads and the CRC check first, and then what is done with a frame.  Only the
length checks stand between a length field and the arrays, and the `KEY_ID_ONLY`
handler copies eight bytes of whatever it received.
-/

namespace LifiAuth

open Support Access

/-! ## The arrays -/

/-- The variables that hold a `session_key_t`: `s_key`, `*found_key` and
`key_list->s_key[0]`. -/
inductive KeyVar where
  | sKey
  | foundKey
  | listed

/-- The arrays of the handlers and of the functions they share. -/
inductive FrameArray where
  | lenBytes
  | crcBytes
  | payload (payloadLen : ℕ)
  | keyIdCrcBuf
  | hexStr (payloadLen : ℕ)
  | tmp
  | lastLifiId
  | debugKeyId
  | buf
  | hs2Payload
  | crcRx
  | crcCheck
  | nonce
  | ciphertext (ctextLen : ℕ)
  | tag
  | crcBuf
  | decrypted (ctextLen : ℕ)
  | decompressed
  | hdr
  | handshake (len : ℕ)
  | sstEntityNonce
  | pendingKey
  | listKeys (numKey : ℕ)
  | keyId (k : KeyVar)
  | cipherKey (k : KeyVar)
  | macKey (k : KeyVar)
  | rwinBuf
  | rwinRow
  | repMacKey
  | currentKeyIdHex
  | keyIdHex
  | eventKeyIdHex
  | payloadPreview
  | rawPreview

/-- As they are declared. -/
def FrameArray.size : FrameArray → ℕ
  | lenBytes | crcBytes | crcRx => 2
  | payload payloadLen => payloadLen
  | keyIdCrcBuf => 1 + 2 + 64
  | hexStr payloadLen => 3 * payloadLen + 1
  | tmp => 5
  | lastLifiId => sstKeyIdSize
  | debugKeyId => 3 * sstKeyIdSize + 1
  | buf => 4
  | hs2Payload => sstHs2PayloadSize
  | crcCheck => 1 + 2 + sstHs2PayloadSize
  | nonce => sstNonceSize
  | ciphertext ctextLen => ctextLen
  | tag => sstTagSize
  | crcBuf => 1 + 2 + sstNonceSize + maxMsgLen + sstTagSize
  | decrypted ctextLen => ctextLen + 1
  | decompressed => decompressedSize
  | hdr => 7
  | handshake len => len
  | sstEntityNonce => 8
  | pendingKey | cipherKey _ => sessionKeySize
  | listKeys numKey => numKey
  | keyId _ => sstKeyIdSize
  | macKey _ | repMacKey => sstMacKeySize
  | rwinBuf => 64
  | rwinRow => 12
  | currentKeyIdHex | keyIdHex | eventKeyIdHex => sstKeyIdSize * 2 + 1
  | payloadPreview | rawPreview => 65

abbrev Accesses := List (Access FrameArray)

/-! ## Reading a frame -/

/-- The CRC check of a `KEY_ID_ONLY` frame. -/
def keyIdCrc (payloadLen : ℕ) : Accesses :=
  List.flatten [
    [⟨.keyIdCrcBuf, 0, 1⟩, ⟨.lenBytes, 0, 1⟩, ⟨.keyIdCrcBuf, 1, 1⟩,
      ⟨.lenBytes, 1, 1⟩, ⟨.keyIdCrcBuf, 2, 1⟩],
    memcpy .keyIdCrcBuf 3 (.payload payloadLen) 0 payloadLen,
    [⟨.keyIdCrcBuf, 0, 3 + payloadLen⟩, ⟨.crcBytes, 0, 1⟩, ⟨.crcBytes, 1, 1⟩]]

/-- The `MSG_TYPE_KEY_ID_ONLY` branch up to its CRC check. -/
def keyIdReads (line : List RxEvent) : Accesses :=
  ⟨.lenBytes, 0, 2⟩ ::
  match readExact 2 line with
  | (none, _) => []
  | (some len, line) =>
      let payloadLen := (be16Of len).toNat
      ⟨.lenBytes, 0, 1⟩ :: ⟨.lenBytes, 1, 1⟩ ::
      if 64 < payloadLen then []
      else
        ⟨.payload payloadLen, 0, payloadLen⟩ ::
        match readExact payloadLen line with
        | (none, _) => []
        | (some _, line) =>
            ⟨.crcBytes, 0, 2⟩ ::
            match readExact 2 line with
            | (none, _) => []
            | (some _, _) => keyIdCrc payloadLen

/-- The CRC check of a `SST_HS2` frame. -/
def sstHs2Crc (hs2Len : ℕ) : Accesses :=
  List.flatten [
    [⟨.crcCheck, 0, 1⟩, ⟨.lenBytes, 0, 1⟩, ⟨.crcCheck, 1, 1⟩, ⟨.lenBytes, 1, 1⟩,
      ⟨.crcCheck, 2, 1⟩],
    memcpy .crcCheck 3 .hs2Payload 0 hs2Len,
    [⟨.crcCheck, 0, 1 + 2 + sstHs2PayloadSize⟩, ⟨.crcRx, 0, 1⟩, ⟨.crcRx, 1, 1⟩]]

/-- The `MSG_TYPE_SST_HS2` branch up to its CRC check. -/
def sstHs2Reads (line : List RxEvent) : Accesses :=
  ⟨.lenBytes, 0, 2⟩ ::
  match readExact 2 line with
  | (none, _) => []
  | (some len, line) =>
      let hs2Len := (be16Of len).toNat
      ⟨.lenBytes, 0, 1⟩ :: ⟨.lenBytes, 1, 1⟩ ::
      if hs2Len ≠ sstHs2PayloadSize then []
      else
        ⟨.hs2Payload, 0, hs2Len⟩ ::
        match readExact hs2Len line with
        | (none, _) => []
        | (some _, line) =>
            ⟨.crcRx, 0, 2⟩ ::
            match readExact 2 line with
            | (none, _) => []
            | (some _, _) => sstHs2Crc hs2Len

/-- The CRC check of a data frame; a frame that fails it is dumped. -/
def dataCrc (ctextLen : ℕ) (crcFail : Bool) : Accesses :=
  let crcIdx := 3 + sstNonceSize + ctextLen
  List.flatten [
    [⟨.crcBuf, 0, 1⟩, ⟨.lenBytes, 0, 1⟩, ⟨.crcBuf, 1, 1⟩, ⟨.lenBytes, 1, 1⟩,
      ⟨.crcBuf, 2, 1⟩],
    memcpy .crcBuf 3 .nonce 0 sstNonceSize,
    memcpy .crcBuf (3 + sstNonceSize) (.ciphertext ctextLen) 0 ctextLen,
    memcpy .crcBuf crcIdx .tag 0 sstTagSize,
    [⟨.crcBuf, 0, crcIdx + sstTagSize⟩, ⟨.crcBytes, 0, 1⟩, ⟨.crcBytes, 1, 1⟩],
    if crcFail then [⟨.crcBuf, 0, crcIdx + sstTagSize⟩] else []]

/-- The `MSG_TYPE_ENCRYPTED` and `MSG_TYPE_FILE` branch up to its CRC check. -/
def dataReads (t : DataType) (line : List RxEvent) : Accesses :=
  ⟨.lenBytes, 0, 2⟩ ::
  match readExact 2 line with
  | (none, _) => []
  | (some len, line) =>
      let payloadLen := (be16Of len).toNat
      ⟨.lenBytes, 0, 1⟩ :: ⟨.lenBytes, 1, 1⟩ ::
      if payloadLen < sstNonceSize + sstTagSize ∨ payloadLen > maxMsgLen then []
      else
        let ctextLen := payloadLen - sstNonceSize - sstTagSize
        let nonceRead := readExact 12 line
        let cipherRead := readExact ctextLen nonceRead.2
        let tagRead := readExact 16 cipherRead.2
        let crcRead := readExact 2 tagRead.2
        ⟨.nonce, 0, sstNonceSize⟩ :: ⟨.ciphertext ctextLen, 0, ctextLen⟩ ::
        ⟨.tag, 0, sstTagSize⟩ :: ⟨.crcBytes, 0, 2⟩ ::
        match nonceRead.1, cipherRead.1, tagRead.1, crcRead.1 with
        | some nonce, some ciphertext, some tag, some crc =>
            dataCrc ctextLen (crc16Ccitt ([t.byte] ++ len.toList ++ nonce.toList ++
              ciphertext.toList ++ tag.toList) ≠ be16Of crc)
        | _, _, _, _ => []

def frameReads (byte : UInt8) (line : List RxEvent) : Accesses :=
  if byte = msgTypeKeyIdOnly then keyIdReads line
  else if byte = msgTypeSstHs2 then sstHs2Reads line
  else if byte = msgTypeEncrypted then dataReads .encrypted line
  else if byte = msgTypeFile then dataReads .file line
  else []

/-! ## Handling a frame -/

variable (m : Mbedtls) (api : SstApi) (hsd : HeatshrinkDecoder)

/-- `mid_draw_keypanel`. -/
def keypanelAccesses : Accesses :=
  [⟨.keyId .sKey, 0, sstKeyIdSize⟩, ⟨.cipherKey .sKey, 0, 32⟩,
    ⟨.macKey .sKey, 0, 32⟩, ⟨.lastLifiId, 0, sstKeyIdSize⟩]

/-- The block of `startHandshake`. -/
def handshake1Accesses (env : DashEnv) (d : Dash) : Accesses :=
  ⟨.sstEntityNonce, 0, 8⟩ ::
  match (api.parseHandshake1 d.sKey env.hs).1 with
  | none => []
  | some hs1 =>
      if hs1.length ≠ sstHs1PayloadSize then []
      else
        [⟨.hdr, 0, 7⟩, ⟨.hdr, 0, 7⟩, ⟨.handshake hs1.length, 0, hs1.length⟩,
          ⟨.sstEntityNonce, 0, 8⟩]

/-- What follows the lookup of the peer id. -/
def foundKeyAccesses (env : DashEnv) (d : Dash) : Accesses :=
  List.flatten [
    [⟨.keyId .foundKey, 0, sstKeyIdSize⟩],
    memcpy .repMacKey 0 (.macKey .foundKey) 0 32,
    hexDump .currentKeyIdHex (.keyId .foundKey) sstKeyIdSize,
    hexDump .keyIdHex (.keyId .foundKey) sstKeyIdSize,
    keypanelAccesses,
    if d.fdOpen ∧ d.state = .idle then handshake1Accesses api env d else []]

/-- The `MSG_TYPE_KEY_ID_ONLY` branch after its CRC check. -/
def keyIdOnlyAccesses (env : DashEnv) (payload : List UInt8) (d : Dash) : Accesses :=
  let payloadLen := payload.length
  List.flatten [
    [⟨.hexStr payloadLen, 0, 1⟩],
    appendHex (.hexStr payloadLen) .tmp (.payload payloadLen) 0 0 payloadLen,
    [⟨.hexStr payloadLen, 0, 3 * payloadLen + 1⟩],
    memcpy .lastLifiId 0 (.payload payloadLen) 0 sstKeyIdSize,
    [⟨.lastLifiId, 0, sstKeyIdSize⟩, ⟨.debugKeyId, 0, 1⟩],
    appendHex .debugKeyId .buf .lastLifiId 0 0 sstKeyIdSize,
    [⟨.debugKeyId, 0, 3 * sstKeyIdSize + 1⟩, ⟨.lastLifiId, 0, sstKeyIdSize⟩],
    (env.keyById (env.peerId payload)).elim [] fun found =>
      foundKeyAccesses api env ((d.noteId env payload).adopt found),
    keypanelAccesses]

/-- The answer to a `SST_HS2` frame. -/
def handshake3Accesses : Option (List UInt8) → Accesses
  | none => []
  | some hs3 =>
      if hs3.length = sstHs3PayloadSize then
        [⟨.hdr, 0, 7⟩, ⟨.hdr, 0, 7⟩, ⟨.handshake hs3.length, 0, hs3.length⟩]
      else []

/-- The `MSG_TYPE_SST_HS2` branch after its CRC check. -/
def sstHs2Accesses (env : DashEnv) (hs2 : Bytes 80) (d : Dash) : Accesses :=
  if d.state ≠ .waitingForSstHs2 then []
  else
    List.flatten [
      [⟨.hs2Payload, 0, sstHs2PayloadSize⟩, ⟨.sstEntityNonce, 0, 8⟩],
      handshake3Accesses
        (api.checkHandshake2SendHandshake3 hs2 d.sstEntityNonce d.sKey env.hs),
      [⟨.sstEntityNonce, 0, 8⟩],
      keypanelAccesses]

/-- `replay_window_seen`. -/
def windowSeenAccesses (cap : ℕ) : Accesses :=
  (List.range cap).flatMap fun i =>
    [⟨.rwinBuf, i, 1⟩, ⟨.rwinRow, 0, sstNonceSize⟩, ⟨.nonce, 0, sstNonceSize⟩]

/-- `replay_window_add`. -/
def windowAddAccesses (idx : ℕ) : Accesses :=
  ⟨.rwinBuf, idx, 1⟩ :: memcpy .rwinRow 0 .nonce 0 sstNonceSize

/-- `new key -f`. -/
def newKeyForcedAccesses (env : DashEnv) : Accesses :=
  match env.sessionKeys with
  | none | some [] => []
  | some (_ :: keys) =>
      List.flatten [
        [⟨.listKeys (keys.length + 1), 0, 1⟩],
        memcpy .pendingKey 0 (.cipherKey .listed) 0 sessionKeySize,
        [⟨.pendingKey, 0, sessionKeySize⟩, ⟨.hdr, 0, 7⟩, ⟨.hdr, 0, 7⟩,
          ⟨.keyId .listed, 0, sstKeyIdSize⟩, ⟨.pendingKey, 0, sstKeySize⟩,
          ⟨.macKey .listed, 0, 32⟩, ⟨.pendingKey, 0, 1⟩, ⟨.pendingKey, 1, 1⟩,
          ⟨.macKey .listed, 0, 1⟩, ⟨.macKey .listed, 1, 1⟩]]

/-- The id of the first listed key goes to `s_key`. -/
def listedIdAccesses : KeyList → Accesses
  | some (_ :: keys) =>
      ⟨.listKeys (keys.length + 1), 0, 1⟩ ::
        memcpy (.keyId .sKey) 0 (.keyId .listed) 0 sstKeyIdSize
  | _ => []

/-- `ACK` in `STATE_WAITING_FOR_ACK`. -/
def ackAccesses (d : Dash) : Accesses :=
  List.flatten [
    memcpy (.cipherKey .sKey) 0 .pendingKey 0 sessionKeySize,
    listedIdAccesses d.keyList,
    [⟨.pendingKey, 0, sessionKeySize⟩, ⟨.cipherKey .sKey, 0, sessionKeySize⟩],
    keypanelAccesses]

/-- The chat branch: the text is printed and compared, with its terminator. -/
def messageAccesses (env : DashEnv) (decrypted : List UInt8) (d : Dash) : Accesses :=
  let text := cstr decrypted
  let compared : Access FrameArray :=
    ⟨.decrypted decrypted.length, 0, text.length + 1⟩
  compared :: compared ::
  if text = ascii "I have the key" then []
  else
    compared ::
    if text = ascii "new key -f" then newKeyForcedAccesses env
    else
      compared ::
      if text = ascii "new key" then []
      else
        List.flatten [
          if d.state = .waitingForAck then [compared] else [],
          if d.state = .waitingForAck ∧ text = ascii "ACK" then ackAccesses d
          else
            compared ::
            if text = ascii "verify key" ∧ d.fdOpen ∧ d.keyValid ∧
                d.state = .idle then
              handshake1Accesses api env d
            else []]

/-- `do { poll } while (more && size < cap)` from `totalDecomp` on, and where it ends
within `rounds` rounds. -/
def pollLoopAccesses : ℕ → hsd.State → ℕ → Accesses × Option (hsd.State × ℕ)
  | 0, _, _ => ([], none)
  | rounds + 1, s, totalDecomp =>
      let (more, values, s) := hsd.poll s (decompressedSize - totalDecomp)
      let written : Access FrameArray := ⟨.decompressed, totalDecomp, values.length⟩
      let totalDecomp := totalDecomp + values.length
      if more ∧ totalDecomp < decompressedSize then
        (written :: (pollLoopAccesses rounds s totalDecomp).1,
          (pollLoopAccesses rounds s totalDecomp).2)
      else ([written], some (s, totalDecomp))

/-- `while (total_sunk < ctext_len)`, as far as `rounds` rounds of each loop go. -/
def sinkLoopAccesses (decrypted : List UInt8) :
    ℕ → hsd.State → ℕ → ℕ → Accesses × Option (hsd.State × ℕ)
  | 0, _, _, _ => ([], none)
  | rounds + 1, s, totalSunk, totalDecomp =>
      if totalSunk < decrypted.length then
        let (taken, s) := hsd.sink s (decrypted.drop totalSunk)
        let sunk := taken.getD 0
        let polled := pollLoopAccesses hsd (rounds + 1) s totalDecomp
        let accesses := ⟨.decrypted decrypted.length, totalSunk, sunk⟩ :: polled.1
        match polled.2 with
        | none => (accesses, none)
        | some (s, totalDecomp) =>
            if taken.isNone then (accesses, some (s, totalDecomp))
            else
              (accesses ++
                (sinkLoopAccesses decrypted rounds s (totalSunk + sunk) totalDecomp).1,
                (sinkLoopAccesses decrypted rounds s (totalSunk + sunk) totalDecomp).2)
      else ([], some (s, totalDecomp))

/-- The terminator, `fwrite` and the head of the file for the log. -/
def fileWriteAccesses (fileOpen : Bool) (totalDecomp : ℕ) : Accesses :=
  List.flatten [
    [⟨.decompressed,
      if totalDecomp < decompressedSize then totalDecomp else decompressedSize - 1, 1⟩],
    if fileOpen ∧ 0 < totalDecomp then [⟨.decompressed, 0, totalDecomp⟩] else [],
    if 0 < totalDecomp ∧ totalDecomp < 500 then
      [⟨.decompressed, 0, totalDecomp + 1⟩]
    else if 500 ≤ totalDecomp then [⟨.decompressed, 0, 100⟩]
    else []]

/-- The file branch after `heatshrink_decoder_alloc`. -/
def fileAccesses (rounds : ℕ) (fileOpen : Bool) (decrypted : List UInt8) : Accesses :=
  let fed := sinkLoopAccesses hsd decrypted rounds hsd.alloc 0 0
  fed.1 ++
  match fed.2 with
  | none => []
  | some (s, totalDecomp) =>
      let drained := pollLoopAccesses hsd rounds (hsd.finish s).2 totalDecomp
      drained.1 ++
      match drained.2 with
      | none => []
      | some (_, totalDecomp) => fileWriteAccesses fileOpen totalDecomp

/-- `reporter_signal`. -/
def signalAccesses (ctextLen : ℕ) : Accesses :=
  let prev := min ctextLen 64
  List.flatten [
    hexDump .eventKeyIdHex (.keyId .sKey) sstKeyIdSize,
    memcpy .payloadPreview 0 (.decrypted ctextLen) 0 prev,
    (List.range prev).map fun i => ⟨.payloadPreview, i, 1⟩,
    [⟨.payloadPreview, prev, 1⟩],
    hexDump .rawPreview (.ciphertext ctextLen) (min ctextLen 32)]

/-- What one pass gets from outside: `rounds` bounds how far the loops of a file are
followed. -/
structure PassEnv where
  env : DashEnv
  decoderAlloc : Bool
  fileOpen : Bool
  rounds : ℕ

/-- What a decrypted payload is used for. -/
def payloadAccesses (p : PassEnv) (t : DataType) (decrypted : List UInt8) (d : Dash) :
    Accesses :=
  match t with
  | .file =>
      if p.decoderAlloc then fileAccesses hsd p.rounds p.fileOpen decrypted else []
  | .encrypted => messageAccesses api p.env decrypted d

/-- `sst_decrypt_gcm`, and what follows if it succeeds. -/
def decryptAccesses (p : PassEnv) (t : DataType) (nonce : Bytes 12)
    (ciphertext : Ctext) (tag : Bytes 16) (d : Dash) : Accesses :=
  let ctextLen := ciphertext.1.length
  ⟨.cipherKey .sKey, 0, sstKeySize⟩ :: ⟨.nonce, 0, sstNonceSize⟩ ::
  ⟨.ciphertext ctextLen, 0, ctextLen⟩ :: ⟨.tag, 0, sstTagSize⟩ ::
  ⟨.decrypted ctextLen, 0, ctextLen⟩ ::
  match m.sstDecryptGcm d.sKey.aesKey nonce (Bytes.ofList ciphertext.1) tag with
  | none => []
  | some decrypted =>
      List.flatten [
        [⟨.decrypted ctextLen, ctextLen, 1⟩],
        payloadAccesses api hsd p t decrypted.toList d,
        signalAccesses ctextLen]

/-- The `MSG_TYPE_ENCRYPTED` and `MSG_TYPE_FILE` branch after its CRC check. -/
def dataAccesses (p : PassEnv) (t : DataType) (nonce : Bytes 12) (ciphertext : Ctext)
    (tag : Bytes 16) (d : Dash) : Accesses :=
  List.flatten [
    windowSeenAccesses 64,
    if d.rwin.seen nonce then []
    else
      List.flatten [
        windowAddAccesses d.rwin.idx,
        if d.keyValid then
          decryptAccesses m api hsd p t nonce ciphertext tag (d.record nonce)
        else []]]

def frameAccesses (p : PassEnv) : Frame → Dash → Accesses
  | .keyIdOnly payload _ => keyIdOnlyAccesses api p.env payload
  | .sstHs2 hs2 => sstHs2Accesses api p.env hs2
  | .data t nonce ciphertext tag => dataAccesses m api hsd p t nonce ciphertext tag

/-! ## The loop -/

/-- One pass over the serial line: the type byte starts a handler. -/
def passAccesses (p : PassEnv) (u : Uart) (d : Dash) : Accesses :=
  match u.uartState, u.line with
  | 4, .byte b :: line =>
      frameReads b line ++
      match (readFrame b line).1 with
      | .frame f => frameAccesses m api hsd p f d.counted
      | _ => []
  | _, _ => []

inductive LoopEvent where
  | pass
  | key (key : KeyPress)
  | timeout

/-- The main loop, which emits its accesses. -/
def frameLoop : Machine (Uart × Dash) (PassEnv × LoopEvent) (Access FrameArray) where
  step s e :=
    match e.2 with
    | .pass =>
        (((uartIter s.1).2, (handleReport m api e.1.env (uartIter s.1).1 s.2).1),
          passAccesses m api hsd e.1 s.1 s.2)
    | .key key => ((s.1, (handleKey api e.1.env key s.2).1), [])
    | .timeout => ((s.1, handleTimeout s.2), [])

end LifiAuth
