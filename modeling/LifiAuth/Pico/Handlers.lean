import LifiAuth.Pico.Commands
import LifiAuth.Pico.Uart
import LifiAuth.Protocol.Handshake
import LifiAuth.Sender.Compress
import LifiAuth.Support.Machine

/-!
# Event handlers of the sender firmware

What the main loop does with a parsed handshake or KEY frame, with a line from the
USB host, and when it starts.
-/

namespace LifiAuth

open Support

variable (m : Mbedtls) (hse : HeatshrinkEncoder)

/-! ## The first handshake message -/

/-- `decrypted[15]`. -/
def hs1Pad (decrypted : Bytes 16) : UInt8 :=
  decrypted.get 15

/-- Steps 1 to 4: the entity nonce of an acceptable `SST_HS1`. -/
def openHs1 (hs1 : Bytes 72) (p : Pico) : Option (Bytes 8) :=
  if hs1KeyId hs1 ≠ p.sessionKeyId then none
  else if m.sstHmacSha256Ex p.sessionMacKey (hs1Body hs1).toList ≠
      some (hs1Mac hs1) then none
  else
    match m.sstAes128CbcDecrypt p.sessionKey (hs1Iv hs1) (hs1Ctext hs1) with
    | none => none
    | some decrypted =>
        let pad := hs1Pad decrypted
        if pad < 1 ∨ pad > 16 then none else some (hs1EntityNonce decrypted)

/-- Steps 6 to 9: the `SST_HS2` blob `iv | ctext | mac`. -/
def buildHs2 (random : Hs2Random) (entityNonce : Bytes 8) (p : Pico) :
    Option (Bytes 80) :=
  match m.sstAes128CbcEncryptPkcs7 p.sessionKey random.iv
      (hsPlain 2 random.picoNonce entityNonce) with
  | none => none
  | some ctext =>
      match m.sstHmacSha256Ex p.sessionMacKey
          (random.iv.append ctext).toList with
      | none => none
      | some mac => some (hsBlob random.iv ctext mac)

/-- The `MSG_TYPE_SST_HS1` branch after its reads. -/
def handleHs1 (env : PicoEnv) (hs1 : Bytes 72) (p : Pico) :
    Pico × List PicoOut :=
  match openHs1 m hs1 p with
  | none => (p, [])
  | some entityNonce =>
      match buildHs2 m env.hs2 entityNonce p with
      | none => (p, [])
      | some hs2Blob =>
          ({ p with savedPicoNonce := env.hs2.picoNonce },
            [.hs2Sent p.sessionMacKey entityNonce env.hs2.picoNonce hs2Blob])

/-- A first message that does not open is passed over, any other is answered. -/
theorem handleHs1_cases (env : PicoEnv) (hs1 : Bytes 72) (p : Pico) :
    handleHs1 m env hs1 p = (p, []) ∨
      ∃ entityNonce hs2Blob, openHs1 m hs1 p = some entityNonce ∧
        buildHs2 m env.hs2 entityNonce p = some hs2Blob ∧
        handleHs1 m env hs1 p = ({ p with savedPicoNonce := env.hs2.picoNonce },
          [.hs2Sent p.sessionMacKey entityNonce env.hs2.picoNonce hs2Blob]) := by
  simp only [handleHs1]
  cases hopen : openHs1 m hs1 p with
  | none => exact Or.inl rfl
  | some entityNonce =>
      cases hbuilt : buildHs2 m env.hs2 entityNonce p with
      | none => exact Or.inl (by simp only [hbuilt])
      | some hs2Blob =>
          exact Or.inr ⟨entityNonce, hs2Blob, rfl, hbuilt, by simp only [hbuilt]⟩

/-! ## The third handshake message -/

/-- Steps 1 and 2: the plaintext of an `SST_HS3` whose tag verifies. -/
def openHs3 (hs3 : Bytes 80) (p : Pico) : Option (Bytes 32) :=
  if m.sstHmacSha256Ex p.sessionMacKey (blobBody hs3).toList ≠
      some (blobMac hs3) then none
  else m.sstAes128CbcDecrypt p.sessionKey (blobIv hs3) (blobCtext hs3)

/-- `plain3[31]`. -/
def hs3Pad (plain : Bytes 32) : UInt8 :=
  plain.get 31

/-- Steps 3 and 4: padding, indicator and the echoed nonce. -/
def hs3Ok (plain : Bytes 32) (savedPicoNonce : Bytes 8) : Bool :=
  let pad := hs3Pad plain
  decide (1 ≤ pad) && decide (pad ≤ 16) && plainIndicator plain == 3 &&
    plainSecond plain == savedPicoNonce

/-- The `MSG_TYPE_SST_HS3` branch after its reads; every way out of it forgets the
saved nonce. -/
def handleHs3 (hs3 : Bytes 80) (p : Pico) : Pico × List PicoOut :=
  let forgotten := { p with savedPicoNonce := Bytes.zero 8 }
  match openHs3 m hs3 p with
  | none => (forgotten, [])
  | some plain =>
      if hs3Ok plain p.savedPicoNonce then
        ({ forgotten with led25 := true },
          [.mutualAuthOk p.savedPicoNonce hs3])
      else (forgotten, [])

/-- A third message costs the saved nonce; one with that nonce in it is accepted. -/
theorem handleHs3_cases (hs3 : Bytes 80) (p : Pico) :
    handleHs3 m hs3 p = ({ p with savedPicoNonce := Bytes.zero 8 }, []) ∨
      ∃ plain, openHs3 m hs3 p = some plain ∧ hs3Ok plain p.savedPicoNonce = true ∧
        handleHs3 m hs3 p = ({ p with savedPicoNonce := Bytes.zero 8, led25 := true },
          [.mutualAuthOk p.savedPicoNonce hs3]) := by
  simp only [handleHs3]
  cases openHs3 m hs3 p with
  | none => exact Or.inl rfl
  | some plain =>
      simp only
      split
      · next hok => exact Or.inr ⟨plain, rfl, hok, rfl⟩
      · exact Or.inl rfl

/-! ## KEY frames -/

/-- The `MSG_TYPE_KEY` branch after its reads. -/
def handleKeyFrame (env : PicoEnv) (newId : Bytes 8) (newKey : Bytes 16)
    (newMacKey : Bytes 32) (p : Pico) : Pico × List PicoOut :=
  let p := (installKey m newId newKey p).2
  let (p, out) := picoNonceOnKeyChange env
    { p with sessionKeyId := newId, sessionMacKey := newMacKey }
  (p, .keyReceived newId newKey newMacKey :: out)

/-- One report of the byte parser. -/
def handlePicoReport (env : PicoEnv) (r : PicoReport) (p : Pico) :
    Pico × List PicoOut :=
  match r with
  | .hs1 payload => handleHs1 m env payload p
  | .hs3 payload => handleHs3 m payload p
  | .key newId newKey newMacKey => handleKeyFrame m env newId newKey newMacKey p
  | .quiet | .lengthTimeout _ | .badLength _ _ | .payloadTimeout _
  | .unknownType _ => (p, [])

/-! ## Lines from the USB host -/

/-- The id and key of the current slot, where it is valid. -/
def Pico.reload (p : Pico) : Pico :=
  match picoReadKeyPairFromSlot m p.flash p.currentSlot with
  | some (id, key) => { p with sessionKeyId := id, sessionKey := key }
  | none => p

/-- A command, followed by what the main loop does if the key changed. -/
def handleCommandLine (env : PicoEnv) (cmd : List UInt8) (p : Pico) :
    Pico × List PicoOut :=
  if ascii "send_id" <+: cmd.dropWhile (· == 32) then
    (p, [.keyIdSent p.sessionKeyId])
  else
    let (keyChanged, p) := handleCommands m env cmd p
    if keyChanged then
      let (p, out) := picoNonceOnKeyChange env p
      (p.reload m, out)
    else (p, [])

/-- Encryption and transmission of a payload that fits the buffers. -/
def encryptAndSend (t : DataType) (payload : List UInt8) (p : Pico) :
    Pico × List PicoOut :=
  let (nonce, p) := picoNonceGenerate p
  match m.sstEncryptGcm p.sessionKey nonce (Bytes.ofList payload) with
  | none => (p, [.gcmCall p.sessionKey nonce])
  | some (ciphertext, tag) =>
      (p, [.gcmCall p.sessionKey nonce,
        .dataSent p.sessionKey t nonce payload ciphertext.toList tag])

/-- A message line: compression, the two checks, encryption. -/
def handleMessageLine (env : PicoEnv) (msg : List UInt8) (p : Pico) :
    Pico × List PicoOut :=
  let (t, payload) := autoCompress hse env.encoderAlloc msg
  if payload.length > msgBufSize then (p, [])
  else if isKeyZeroed p.sessionKey then (p, [])
  else encryptAndSend m t payload p

theorem encryptAndSend_fst (t : DataType) (payload : List UInt8) (p : Pico) :
    (encryptAndSend m t payload p).1 = (picoNonceGenerate p).2 := by
  simp only [encryptAndSend]
  split
  · rfl
  · rfl

/-- Encryption fails, or its result is transmitted. -/
theorem encryptAndSend_cases (t : DataType) (payload : List UInt8) (p : Pico) :
    (m.sstEncryptGcm p.sessionKey (picoNonceGenerate p).1 (Bytes.ofList payload) = none ∧
      (encryptAndSend m t payload p).2 =
        [.gcmCall p.sessionKey (picoNonceGenerate p).1]) ∨
      ∃ ciphertext tag,
        m.sstEncryptGcm p.sessionKey (picoNonceGenerate p).1 (Bytes.ofList payload) =
          some (ciphertext, tag) ∧
        (encryptAndSend m t payload p).2 =
          [.gcmCall p.sessionKey (picoNonceGenerate p).1,
            .dataSent p.sessionKey t (picoNonceGenerate p).1 payload
              ciphertext.toList tag] := by
  have hkey : (picoNonceGenerate p).2.sessionKey = p.sessionKey := rfl
  simp only [encryptAndSend, hkey]
  split
  · next hnone => exact Or.inl ⟨hnone, rfl⟩
  · next ciphertext tag hsome => exact Or.inr ⟨ciphertext, tag, hsome, rfl⟩

/-- A message line is dropped or encrypted. -/
theorem handleMessageLine_cases (env : PicoEnv) (msg : List UInt8) (p : Pico) :
    handleMessageLine m hse env msg p = (p, []) ∨
      ∃ t payload,
        handleMessageLine m hse env msg p = encryptAndSend m t payload p := by
  simp only [handleMessageLine]
  split
  · exact Or.inl rfl
  · split
    · exact Or.inl rfl
    · exact Or.inr ⟨_, _, rfl⟩

/-- What the input loop hands over. -/
def handleLine (env : PicoEnv) (line : List UInt8) (p : Pico) :
    Pico × List PicoOut :=
  if ascii "CMD:" <+: line then handleCommandLine m env (line.drop 4) p
  else handleMessageLine m hse env line p

/-! ## Starting -/

/-- `main` up to its loop, on the flash as it is. -/
def picoBoot (env : PicoEnv) (flash : Flash) : Pico × List PicoOut :=
  let fresh : Pico :=
    { sessionKey := Bytes.zero 16
      sessionMacKey := Bytes.zero 32
      sessionKeyId := Bytes.zero 8
      savedPicoNonce := Bytes.zero 8
      currentSlot := .A
      keyram := ⟨Bytes.zero 8, Bytes.zero 16, false⟩
      flash := flash
      bootSalt := Bytes.zero 8
      msgCounter := 0
      led25 := false
      rebootPending := false }
  let (p, out) := picoNonceInit env fresh
  match loadSessionKey m p.flash with
  | some (id, key) => ({ p with sessionKeyId := id, sessionKey := key }, out)
  | none => (p, out)

/-! ## What is emitted without a message line -/

section Outputs

variable {m} {Q : PicoOut → Prop} {env : PicoEnv}

theorem forall_mem_picoNonceInit (hsalt : ∀ salt, Q (.saltDrawn salt)) (p : Pico) :
    ∀ o ∈ (picoNonceInit env p).2, Q o := by
  rw [picoNonceInit]
  split
  · exact List.forall_mem_singleton.mpr (hsalt _)
  · exact List.forall_mem_nil _

theorem forall_mem_handleCommandLine (hsalt : ∀ salt, Q (.saltDrawn salt))
    (hid : ∀ keyId, Q (.keyIdSent keyId)) (cmd : List UInt8) (p : Pico) :
    ∀ o ∈ (handleCommandLine m env cmd p).2, Q o := by
  simp only [handleCommandLine]
  split
  · exact List.forall_mem_singleton.mpr (hid _)
  · split
    · exact forall_mem_picoNonceInit hsalt _
    · exact List.forall_mem_nil _

theorem forall_mem_picoBoot (hsalt : ∀ salt, Q (.saltDrawn salt)) (flash : Flash) :
    ∀ o ∈ (picoBoot m env flash).2, Q o := by
  simp only [picoBoot]
  split
  · exact forall_mem_picoNonceInit hsalt _
  · exact forall_mem_picoNonceInit hsalt _

theorem forall_mem_handlePicoReport (hsalt : ∀ salt, Q (.saltDrawn salt))
    (hsent : ∀ macKey e np hs2, Q (.hs2Sent macKey e np hs2))
    (hauth : ∀ np hs3, Q (.mutualAuthOk np hs3))
    (hkey : ∀ keyId key macKey, Q (.keyReceived keyId key macKey)) (r : PicoReport)
    (p : Pico) : ∀ o ∈ (handlePicoReport m env r p).2, Q o := by
  cases r with
  | hs1 payload =>
      rw [handlePicoReport]
      rcases handleHs1_cases m env payload p with hdrop | ⟨_, _, -, -, hanswer⟩
      · rw [hdrop]
        exact List.forall_mem_nil _
      · rw [hanswer]
        exact List.forall_mem_singleton.mpr (hsent _ _ _ _)
  | hs3 payload =>
      rw [handlePicoReport]
      rcases handleHs3_cases m payload p with hforgot | ⟨_, -, -, haccept⟩
      · rw [hforgot]
        exact List.forall_mem_nil _
      · rw [haccept]
        exact List.forall_mem_singleton.mpr (hauth _ _)
  | key newId newKey newMacKey =>
      exact List.forall_mem_cons.mpr ⟨hkey _ _ _, forall_mem_picoNonceInit hsalt _⟩
  | _ => exact List.forall_mem_nil _

end Outputs

/-! ## Steps and runs -/

/-- The events of the firmware. -/
inductive PicoEvent where
  | uart (r : PicoReport)
  | line (text : List UInt8)
  | boot

def picoStep (p : Pico) (env : PicoEnv) : PicoEvent → Pico × List PicoOut
  | .uart r => handlePicoReport m env r p
  | .line text => handleLine m hse env text p
  | .boot => picoBoot m env p.flash

/-- The sender as a machine; each event comes with its surroundings. -/
def lifiSender : Machine Pico (PicoEnv × PicoEvent) PicoOut where
  step p e := picoStep m hse p e.1 e.2

end LifiAuth
