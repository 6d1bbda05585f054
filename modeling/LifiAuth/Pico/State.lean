import LifiAuth.Pico.Flash
import LifiAuth.Protocol.Serial
import LifiAuth.Sender.Framing
import LifiAuth.Support.Text

/-!
# State of the sender firmware

The variables of `main` in `lifi_session_sender.c`, the statics of
`pico_handler.c`, and the nonce generator of AES-GCM.
-/

namespace LifiAuth

/-- The key copy of `keyram_*`. -/
structure KeyRam where
  keyId : Bytes 8
  key : Bytes 16
  valid : Bool
  deriving DecidableEq

namespace KeyRam

def setWithId (_ : KeyRam) (id : Bytes 8) (k : Bytes 16) : KeyRam :=
  ⟨id, k, true⟩

/-- `keyram_clear` leaves the id. -/
def clear (r : KeyRam) : KeyRam :=
  { r with key := Bytes.zero 16, valid := false }

end KeyRam

/-- What a power cycle loses, and the flash.  `rebootPending` is set once
`pico_reboot` has been called. -/
structure Pico where
  sessionKey : Bytes 16
  sessionMacKey : Bytes 32
  sessionKeyId : Bytes 8
  savedPicoNonce : Bytes 8
  currentSlot : Slot
  keyram : KeyRam
  flash : Flash
  bootSalt : Bytes 8
  msgCounter : UInt32
  led25 : Bool
  rebootPending : Bool

/-- Randomness drawn for one `SST_HS2`. -/
structure Hs2Random where
  picoNonce : Bytes 8
  iv : Bytes 16

/-- What one event gets from outside. -/
structure PicoEnv where
  /-- The bytes `get_random_bytes` returns, unless it fails. -/
  salt : Option (Bytes 8)
  hs2 : Hs2Random
  /-- What arrives on uart1 while a command waits for a key. -/
  wait : List RxEvent
  /-- Whether `heatshrink_encoder_alloc` succeeds. -/
  encoderAlloc : Bool

/-- What an event does besides changing the state. -/
inductive PicoOut where
  /-- `pico_nonce_init` drew this salt. -/
  | saltDrawn (salt : Bytes 8)
  /-- A call of `sst_encrypt_gcm`. -/
  | gcmCall (key : Bytes 16) (nonce : Bytes 12)
  /-- An encrypted message was transmitted. -/
  | dataSent (key : Bytes 16) (type : DataType) (nonce : Bytes 12)
      (plaintext ciphertext : List UInt8) (tag : Bytes 16)
  /-- `SST_HS2` was transmitted, in answer to `entityNonce`. -/
  | hs2Sent (macKey : Bytes 32) (entityNonce picoNonce : Bytes 8)
      (hs2Blob : Bytes 80)
  /-- `MUTUAL AUTH OK`. -/
  | mutualAuthOk (picoNonce : Bytes 8) (hs3 : Bytes 80)
  /-- `[Received New Session Key via LiFi]`. -/
  | keyReceived (keyId : Bytes 8) (key : Bytes 16) (macKey : Bytes 32)
  /-- The answer to `send_id` was transmitted. -/
  | keyIdSent (keyId : Bytes 8)
  deriving DecidableEq

/-- The bytes an output puts on the LiFi link. -/
def PicoOut.lifiBytes : PicoOut → List UInt8
  | dataSent _ type nonce _ ciphertext tag => sendData type nonce ciphertext tag
  | hs2Sent _ _ _ hs2Blob => sendHs2 hs2Blob
  | keyIdSent keyId => sendKeyIdOnly keyId
  | saltDrawn _ | gcmCall _ _ | mutualAuthOk _ _ | keyReceived _ _ _ => []

/-- `is_key_zeroed`. -/
def isKeyZeroed (key : Bytes 16) : Bool :=
  key.toList.all (· == 0)

theorem isKeyZeroed_iff (key : Bytes 16) :
    isKeyZeroed key = true ↔ key = Bytes.zero 16 := by
  simp only [isKeyZeroed, List.all_eq_true, beq_iff_eq]
  constructor
  · intro h
    apply Bytes.ext_toList
    rw [List.eq_replicate_of_mem h, key.toList_length]
    rfl
  · rintro rfl b hb
    exact List.eq_of_mem_replicate hb

/-! ## The nonce generator -/

/-- `store_be32`. -/
def storeBe32 (v : UInt32) : Bytes 4 :=
  ⟨[(v >>> 24).toUInt8, (v >>> 16).toUInt8, (v >>> 8).toUInt8, v.toUInt8], rfl⟩

/-- `salt || counter`. -/
def gcmNonce (salt : Bytes 8) (ctr : UInt32) : Bytes 12 :=
  salt.append (storeBe32 ctr)

/-- `pico_nonce_init`: a new salt, or a reboot if there is no randomness. -/
def picoNonceInit (env : PicoEnv) (p : Pico) : Pico × List PicoOut :=
  match env.salt with
  | some salt => ({ p with bootSalt := salt, msgCounter := 0 }, [.saltDrawn salt])
  | none => ({ p with msgCounter := 0, rebootPending := true }, [])

/-- `pico_nonce_on_key_change`. -/
def picoNonceOnKeyChange (env : PicoEnv) (p : Pico) : Pico × List PicoOut :=
  picoNonceInit env p

/-- `pico_nonce_generate`: the nonce for this message; the counter wrapping to
zero calls for a reboot, after this message. -/
def picoNonceGenerate (p : Pico) : Bytes 12 × Pico :=
  (gcmNonce p.bootSalt p.msgCounter,
    { p with
      msgCounter := p.msgCounter + 1
      rebootPending := p.rebootPending || p.msgCounter + 1 == 0 })

theorem storeBe32_injective : Function.Injective storeBe32 := by
  intro v w h
  have hbytes : [(v >>> 24).toUInt8, (v >>> 16).toUInt8, (v >>> 8).toUInt8,
      v.toUInt8] = [(w >>> 24).toUInt8, (w >>> 16).toUInt8, (w >>> 8).toUInt8,
      w.toUInt8] := congrArg List.Vector.toList h
  simp only [List.cons.injEq, ← UInt8.toNat_inj, UInt32.toNat_toUInt8,
    UInt32.toNat_shiftRight, Nat.shiftRight_eq_div_pow] at hbytes
  have hv := v.toNat_lt
  have hw := w.toNat_lt
  apply UInt32.toNat_inj.mp
  simp at hbytes
  omega

/-- The encoding of nonces is injective. -/
theorem gcmNonce_inj {salt salt' : Bytes 8} {ctr ctr' : UInt32}
    (h : gcmNonce salt ctr = gcmNonce salt' ctr') :
    salt = salt' ∧ ctr = ctr' := by
  have hlist := congrArg List.Vector.toList h
  simp only [gcmNonce, Bytes.toList_append] at hlist
  have hlen : salt.toList.length = salt'.toList.length := by
    rw [salt.toList_length, salt'.toList_length]
  obtain ⟨hsalt, hctr⟩ := List.append_inj hlist hlen
  exact ⟨Bytes.ext_toList hsalt, storeBe32_injective (Bytes.ext_toList hctr)⟩

end LifiAuth
