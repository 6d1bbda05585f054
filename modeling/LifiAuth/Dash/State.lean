import LifiAuth.Dash.ReplayWindow
import LifiAuth.Dash.Uart
import LifiAuth.Protocol.Crypto
import LifiAuth.Support.Text
import Mathlib.Algebra.Order.Ring.Int

/-!
# State of dash_receiver

The variables of `main`, the reporter's globals and what the surroundings supply
to one event: the answers of Auth, fresh randomness, the time and the fate of each
write to the serial port.
-/

namespace LifiAuth

/-- `session_key_t`. -/
structure SessionKey where
  keyId : Bytes 8
  cipherKey : Bytes 32
  macKey : Bytes 32
  deriving DecidableEq

/-- The AES-128 key, the first `SST_KEY_SIZE` bytes of the buffer. -/
def aesKeyOf (cipherKey : Bytes 32) : Bytes 16 :=
  cipherKey.slice 0 16 (by decide)

def SessionKey.aesKey (k : SessionKey) : Bytes 16 :=
  aesKeyOf k.cipherKey

def SessionKey.zero : SessionKey :=
  ⟨Bytes.zero 8, Bytes.zero 32, Bytes.zero 32⟩

/-- `receiver_state_t`. -/
inductive ReceiverState where
  | idle
  | waitingForYes
  | waitingForAck
  | waitingForSstHs2
  deriving DecidableEq, Repr

/-- The counters of `SessionStats` that the program changes. -/
structure SessionStats where
  totalPkts : ℕ
  decryptSuccess : ℕ
  decryptFail : ℕ
  replayBlocked : ℕ
  timeouts : ℕ
  keysConsumed : ℕ
  deriving DecidableEq

def SessionStats.zero : SessionStats := ⟨0, 0, 0, 0, 0, 0⟩

structure ReporterEvent where
  keyIdHex : List UInt8
  payloadPreview : List UInt8
  rawPreview : List UInt8
  total : ℕ
  ok : ℕ
  fail : ℕ
  deriving DecidableEq

/-- The globals behind `g_rep_mutex`. -/
structure Reporter where
  event : ReporterEvent
  pending : Bool
  macKey : Bytes 32
  keyValid : Bool
  currentKeyIdHex : List UInt8
  deriving DecidableEq

def Reporter.initial : Reporter where
  event := ⟨[], [], [], 0, 0, 0⟩
  pending := false
  macKey := Bytes.zero 32
  keyValid := false
  currentKeyIdHex := []

/-- `key_list`: the pointer and the list it points to. -/
abbrev KeyList := Option (List SessionKey)

/-- The variables of `main` that outlive one pass of its loop. -/
structure Dash where
  fdOpen : Bool
  sKey : SessionKey
  keyValid : Bool
  keyList : KeyList
  currentKeyIdx : ℕ
  pendingKey : Bytes 32
  state : ReceiverState
  sstEntityNonce : Bytes 8
  rwin : ReplayWindow 12 64
  lastKeyReqTime : ℤ
  lastLifiId : Bytes 8
  lifiIdSeen : Bool
  rep : Reporter
  stats : SessionStats

/-! ## The surroundings -/

/-- Randomness drawn by one call of the handshake functions. -/
structure HsEntropy where
  nonce : Bytes 8
  iv : Bytes 16

/-- The handshake functions of the sst-c-api submodule.  `parseHandshake1` also
returns what it leaves in its nonce argument. -/
structure SstApi where
  parseHandshake1 : SessionKey → HsEntropy → Option (List UInt8) × Bytes 8
  checkHandshake2SendHandshake3 : Bytes 80 → Bytes 8 → SessionKey →
    HsEntropy → Option (List UInt8)

/-- What one event gets from outside. -/
structure DashEnv where
  /-- `time(NULL)`. -/
  now : ℤ
  /-- The answer of `get_session_key`. -/
  sessionKeys : KeyList
  /-- The answers of `get_session_key_by_ID`, and `key_list` after the call. -/
  keyById : Bytes 8 → Option SessionKey
  keyListAfterById : KeyList
  hs : HsEntropy
  /-- The fate of each call of `write_all`: how many bytes went out if it
  failed. -/
  writes : ℕ → Option ℕ
  /-- The memory behind a key id payload that is shorter than a key id. -/
  stack : Bytes 8
  /-- Whether `init_serial_baud` succeeds. -/
  reopens : Bool

/-- Surroundings that offer nothing and let every write succeed. -/
def DashEnv.bare : DashEnv where
  now := 0
  sessionKeys := none
  keyById := fun _ => none
  keyListAfterById := none
  hs := ⟨Bytes.zero 8, Bytes.zero 16⟩
  writes := fun _ => none
  stack := Bytes.zero 8
  reopens := true

/-- Handshake functions that always fail. -/
def SstApi.failing : SstApi where
  parseHandshake1 _ _ := (none, Bytes.zero 8)
  checkHandshake2SendHandshake3 _ _ _ _ := none

/-- What an event does besides changing the state. -/
inductive DashOut where
  /-- Bytes written to the Pico. -/
  | tx (bytes : List UInt8)
  /-- `parse_handshake_1` produced a message. -/
  | hs1Made (key : SessionKey) (entityNonce : Bytes 8) (hs1 : List UInt8)
  /-- `SST HS2 VERIFIED`, and the answer that was computed. -/
  | hs2Verified (key : SessionKey) (entityNonce : Bytes 8) (hs2 : Bytes 80)
      (hs3 : List UInt8)
  /-- A KEY frame for the fetched `key` was written while `active` was in use. -/
  | keyIssued (active key : SessionKey)
  /-- The key for a `new key -f` request could not be fetched. -/
  | fetchFailed
  /-- `ACK received.  Finalizing key update.` -/
  | ackReceived
  /-- A frame decrypted under `key`; the plaintext goes to the chat or to the
  file branch. -/
  | accepted (key : Bytes 16) (type : DataType) (nonce : Bytes 12)
      (ciphertext : Ctext) (tag : Bytes 16) (decrypted : List UInt8)
  deriving DecidableEq

/-- The frames accepted in a trace. -/
def acceptedFrames (t : List DashOut) : List Frame :=
  t.filterMap fun
    | .accepted _ type nonce ciphertext tag _ =>
        some (.data type nonce ciphertext tag)
    | _ => none

/-! ## Writing to the serial port -/

/-- `write_all` as far as its caller can tell. -/
def writeAll (fate : Option ℕ) (bytes : List UInt8) : List UInt8 × Bool :=
  match fate with
  | none => (bytes, true)
  | some sent => (bytes.take sent, false)

/-- Writes joined by `||`: the first failure stops them. -/
def writeChain (writes : ℕ → Option ℕ) (i : ℕ) :
    List (List UInt8) → List UInt8 × Bool
  | [] => ([], true)
  | part :: parts =>
      let (out, ok) := writeAll (writes i) part
      if ok then
        (out ++ (writeChain writes (i + 1) parts).1,
          (writeChain writes (i + 1) parts).2)
      else (out, false)

/-- Writes whose results are ignored. -/
def writeEach (writes : ℕ → Option ℕ) (i : ℕ) : List (List UInt8) → List UInt8
  | [] => []
  | part :: parts =>
      (writeAll (writes i) part).1 ++ writeEach writes (i + 1) parts

/-- Where every write succeeds, all parts are put out. -/
theorem writeChain_of_writes {writes : ℕ → Option ℕ} (hwrites : ∀ i, writes i = none)
    (i : ℕ) (parts : List (List UInt8)) :
    writeChain writes i parts = (parts.flatten, true) := by
  induction parts generalizing i with
  | nil => rfl
  | cons part parts ih =>
      simp only [writeChain, writeAll, hwrites i, if_true, ih, List.flatten_cons]

theorem writeEach_of_writes {writes : ℕ → Option ℕ} (hwrites : ∀ i, writes i = none)
    (i : ℕ) (parts : List (List UInt8)) : writeEach writes i parts = parts.flatten := by
  induction parts generalizing i with
  | nil => rfl
  | cons part parts ih =>
      simp only [writeEach, writeAll, hwrites i, ih, List.flatten_cons]

/-- The seven header bytes of a frame to the Pico. -/
def txHeader (type : UInt8) (len : ℕ) : List UInt8 :=
  preamble ++ [type] ++ (lenBytes len).toList

/-- `SESSION_KEY_ID_SIZE + SST_KEY_SIZE + 32`. -/
def keyFrameLen : ℕ := sstKeyIdSize + sstKeySize + sstMacKeySize

/-- The parts of a KEY frame as they are written. -/
def keyFrameParts (keyId : Bytes 8) (aesKey : Bytes 16) (macKey : Bytes 32) :
    List (List UInt8) :=
  [txHeader msgTypeKey keyFrameLen, keyId.toList, aesKey.toList, macKey.toList]

/-- A complete KEY frame. -/
def keyFrame (keyId : Bytes 8) (aesKey : Bytes 16) (macKey : Bytes 32) :
    List UInt8 :=
  (keyFrameParts keyId aesKey macKey).flatten

/-! ## Startup -/

/-- The state when the main loop starts, from the first answer of
`get_session_key`. -/
def Dash.start (fdOpen : Bool) (sessionKeys : KeyList)
    (memory : List.Vector (Bytes 12) 64) : Dash where
  fdOpen := fdOpen
  sKey := (sessionKeys.bind List.head?).getD SessionKey.zero
  keyValid := (sessionKeys.bind List.head?).isSome
  keyList := some (sessionKeys.getD [])
  currentKeyIdx := 0
  pendingKey := Bytes.zero 32
  state := .idle
  sstEntityNonce := Bytes.zero 8
  rwin := ReplayWindow.init memory (by decide) (by decide) (by decide)
  lastKeyReqTime := 0
  lastLifiId := Bytes.zero 8
  lifiIdSeen := false
  rep :=
    match sessionKeys.bind List.head? with
    | none => Reporter.initial
    | some k => { Reporter.initial with
        macKey := k.macKey
        keyValid := true
        currentKeyIdHex := hexString k.keyId.toList }
  stats := SessionStats.zero

end LifiAuth
