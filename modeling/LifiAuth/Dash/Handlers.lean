import LifiAuth.Dash.State
import LifiAuth.Support.Machine

/-!
# Event handlers of dash_receiver

What the main loop does with a frame that passed its checks, with a key press, and
when the deadline of a waiting state has passed.
-/

namespace LifiAuth

open Support

variable (m : Mbedtls) (api : SstApi)

/-! ## Starting a handshake and adopting a key -/

/-- The block shared by key `2`, the key id branch and `verify key`. -/
def startHandshake (env : DashEnv) (d : Dash) : Dash × List DashOut :=
  let call := api.parseHandshake1 d.sKey env.hs
  let d := { d with sstEntityNonce := call.2 }
  match call.1 with
  | none => (d, [])
  | some hs1 =>
      let made := DashOut.hs1Made d.sKey d.sstEntityNonce hs1
      if hs1.length ≠ sstHs1PayloadSize then (d, [made])
      else
        let (sent, ok) :=
          writeChain env.writes 0 [txHeader msgTypeSstHs1 hs1.length, hs1]
        if ok then
          ({ d with state := .waitingForSstHs2 }, [made, .tx sent])
        else
          ({ d with sstEntityNonce := Bytes.zero 8 }, [made, .tx sent])

/-- It leaves all but the nonce and the state. -/
theorem startHandshake_eq (env : DashEnv) (d : Dash) :
    ∃ nonce state, (startHandshake api env d).1 =
      { d with sstEntityNonce := nonce, state := state } := by
  simp only [startHandshake]
  split
  · exact ⟨_, _, rfl⟩
  · split
    · exact ⟨_, _, rfl⟩
    · split
      · exact ⟨_, _, rfl⟩
      · exact ⟨_, _, rfl⟩

/-- The critical section that follows every adoption of a key. -/
def Reporter.setKey (r : Reporter) (k : SessionKey) : Reporter :=
  { r with
    macKey := k.macKey
    keyValid := true
    currentKeyIdHex := hexString k.keyId.toList }

def Dash.adopt (d : Dash) (k : SessionKey) : Dash :=
  { d with sKey := k, keyValid := true, rep := d.rep.setKey k }

def SessionStats.keyConsumed (s : SessionStats) : SessionStats :=
  { s with keysConsumed := s.keysConsumed + 1 }

/-- Writing the active key to the Pico, as keys `1` and `f` do. -/
def sendActiveKey (env : DashEnv) (d : Dash) : List DashOut :=
  if d.fdOpen then
    [.tx (writeChain env.writes 0
      (keyFrameParts d.sKey.keyId d.sKey.aesKey d.sKey.macKey)).1]
  else []

/-! ## Frames -/

/-- The peer id is stored; a payload shorter than an id is copied with the memory
behind it. -/
def DashEnv.peerId (env : DashEnv) (payload : List UInt8) : Bytes 8 :=
  ⟨(payload ++ env.stack.toList).take 8, by
    have := env.stack.toList_length
    simp⟩

theorem DashEnv.peerId_toList (env : DashEnv) (id : Bytes 8) : env.peerId id.toList = id :=
  Bytes.ext_toList (List.take_left' id.toList_length)

def Dash.noteId (env : DashEnv) (payload : List UInt8) (d : Dash) : Dash :=
  { d with
    lastLifiId := env.peerId payload
    lifiIdSeen := true
    keyList := env.keyListAfterById }

/-- The automatic handshake with the key just adopted. -/
def autoConnect (env : DashEnv) (d : Dash) : Dash × List DashOut :=
  if d.fdOpen ∧ d.state = .idle then startHandshake api env d else (d, [])

/-- The `MSG_TYPE_KEY_ID_ONLY` branch after its CRC check. -/
def handleKeyIdOnly (env : DashEnv) (payload : List UInt8) (d : Dash) :
    Dash × List DashOut :=
  match env.keyById (env.peerId payload) with
  | none => (d.noteId env payload, [])
  | some found => autoConnect api env ((d.noteId env payload).adopt found)

/-- The `MSG_TYPE_SST_HS2` branch after its CRC check. -/
def handleSstHs2 (env : DashEnv) (hs2 : Bytes 80) (d : Dash) :
    Dash × List DashOut :=
  if d.state ≠ .waitingForSstHs2 then (d, [])
  else
    let out :=
      match api.checkHandshake2SendHandshake3 hs2 d.sstEntityNonce d.sKey
          env.hs with
      | none => []
      | some hs3 =>
          let verified := DashOut.hs2Verified d.sKey d.sstEntityNonce hs2 hs3
          if hs3.length = sstHs3PayloadSize then
            [verified, .tx (writeEach env.writes 0
              [txHeader msgTypeSstHs3 hs3.length, hs3])]
          else [verified]
    ({ d with sstEntityNonce := Bytes.zero 8, state := .idle }, out)

/-- The fetched key waits for its acknowledgement. -/
def Dash.awaitAck (k : SessionKey) (d : Dash) : Dash :=
  { d with
    pendingKey := k.cipherKey
    stats := d.stats.keyConsumed
    keyValid := true
    state := .waitingForAck }

/-- `new key -f`: the old list is freed before the new one is fetched. -/
def handleNewKeyForced (env : DashEnv) (d : Dash) : Dash × List DashOut :=
  match env.sessionKeys with
  | none => ({ d with keyList := none }, [.fetchFailed])
  | some [] => ({ d with keyList := some [] }, [.fetchFailed])
  | some (k :: keys) =>
      (({ d with keyList := some (k :: keys) } : Dash).awaitAck k,
        [.keyIssued d.sKey k, .tx (writeEach env.writes 0
          (keyFrameParts k.keyId (aesKeyOf k.cipherKey) k.macKey))])

/-- `new key`: rate limited. -/
def handleNewKey (env : DashEnv) (d : Dash) : Dash :=
  if env.now - d.lastKeyReqTime < keyUpdateCooldownS then d
  else { d with lastKeyReqTime := env.now, state := .waitingForYes }

/-- The key that an `ACK` activates: the pending cipher key and, if there is a
list, the id of its first key. -/
def Dash.ackedKey (d : Dash) : SessionKey :=
  match d.keyList with
  | some (k :: _) =>
      { d.sKey with cipherKey := d.pendingKey, keyId := k.keyId }
  | _ => { d.sKey with cipherKey := d.pendingKey }

/-- `ACK` in `STATE_WAITING_FOR_ACK`. -/
def handleAck (d : Dash) : Dash :=
  { d with sKey := d.ackedKey, pendingKey := Bytes.zero 32, state := .idle }

/-- `verify key`. -/
def handleVerifyKey (env : DashEnv) (d : Dash) : Dash × List DashOut :=
  if d.fdOpen ∧ d.keyValid ∧ d.state = .idle then startHandshake api env d
  else (d, [])

/-- The `strcmp` chain of the chat branch. -/
def handleMessage (env : DashEnv) (decrypted : List UInt8) (d : Dash) :
    Dash × List DashOut :=
  let text := cstr decrypted
  if text = ascii "I have the key" then (d, [])
  else if text = ascii "new key -f" then handleNewKeyForced env d
  else if text = ascii "new key" then (handleNewKey env d, [])
  else if d.state = .waitingForAck ∧ text = ascii "ACK" then
    (handleAck d, [.ackReceived])
  else if text = ascii "verify key" then handleVerifyKey api env d
  else (d, [])

/-- The five ways through the chain. -/
theorem handleMessage_cases (env : DashEnv) (decrypted : List UInt8) (d : Dash) :
    handleMessage api env decrypted d = (d, []) ∨
      handleMessage api env decrypted d = handleNewKeyForced env d ∨
      handleMessage api env decrypted d = (handleNewKey env d, []) ∨
      (d.state = .waitingForAck ∧
        handleMessage api env decrypted d = (handleAck d, [.ackReceived])) ∨
      handleMessage api env decrypted d = handleVerifyKey api env d := by
  simp only [handleMessage]
  split
  · exact Or.inl rfl
  · split
    · exact Or.inr (Or.inl rfl)
    · split
      · exact Or.inr (Or.inr (Or.inl rfl))
      · split
        · next hack => exact Or.inr (Or.inr (Or.inr (Or.inl ⟨hack.1, rfl⟩)))
        · split
          · exact Or.inr (Or.inr (Or.inr (Or.inr rfl)))
          · exact Or.inl rfl

/-- A byte as the previews show it. -/
def printableChar (b : UInt8) : UInt8 :=
  if b < 0x20 ∨ b > 0x7e then 46 else b

/-- `reporter_signal`. -/
def Reporter.signal (r : Reporter) (keyId : Bytes 8) (payload raw : List UInt8)
    (st : SessionStats) : Reporter :=
  { r with
    event :=
      { keyIdHex := hexString keyId.toList
        payloadPreview := (payload.take 64).map printableChar
        rawPreview := hexString (raw.take 32)
        total := st.totalPkts
        ok := st.decryptSuccess
        fail := st.decryptFail }
    pending := true }

def Dash.replayBlocked (d : Dash) : Dash :=
  { d with
    stats := { d.stats with replayBlocked := d.stats.replayBlocked + 1 } }

/-- `replay_window_add`. -/
def Dash.record (nonce : Bytes 12) (d : Dash) : Dash :=
  { d with rwin := d.rwin.add nonce }

/-- The end of the data branch: the reporter is told of every decrypted frame. -/
def finishData (ciphertext decrypted : List UInt8) (d : Dash) : Dash :=
  let stats := { d.stats with decryptSuccess := d.stats.decryptSuccess + 1 }
  { d with
    stats := stats
    rep := d.rep.signal d.sKey.keyId decrypted ciphertext stats }

/-- What a decrypted payload is used for; a file only leaves the program. -/
def handleDecrypted (env : DashEnv) (t : DataType) (decrypted : List UInt8)
    (d : Dash) : Dash × List DashOut :=
  match t with
  | .file => (d, [])
  | .encrypted => handleMessage api env decrypted d

/-- `stats.decrypt_fail++`. -/
def Dash.decryptFailed (d : Dash) : Dash :=
  { d with stats := { d.stats with decryptFail := d.stats.decryptFail + 1 } }

/-- The data branch once the nonce is recorded. -/
def decryptData (env : DashEnv) (t : DataType) (nonce : Bytes 12)
    (ciphertext : Ctext) (tag : Bytes 16) (d : Dash) : Dash × List DashOut :=
  if d.keyValid then
    match m.sstDecryptGcm d.sKey.aesKey nonce (Bytes.ofList ciphertext.1) tag with
    | none => (d.decryptFailed, [])
    | some decrypted =>
        (finishData ciphertext.1 decrypted.toList
            (handleDecrypted api env t decrypted.toList d).1,
          .accepted d.sKey.aesKey t nonce ciphertext tag decrypted.toList ::
            (handleDecrypted api env t decrypted.toList d).2)
  else (d, [])

/-- The `MSG_TYPE_ENCRYPTED` and `MSG_TYPE_FILE` branch after its CRC check. -/
def handleData (env : DashEnv) (t : DataType) (nonce : Bytes 12)
    (ciphertext : Ctext) (tag : Bytes 16) (d : Dash) : Dash × List DashOut :=
  if d.rwin.seen nonce then (d.replayBlocked, [])
  else decryptData m api env t nonce ciphertext tag (d.record nonce)

def handleFrame (env : DashEnv) : Frame → Dash → Dash × List DashOut
  | .keyIdOnly payload _ => handleKeyIdOnly api env payload
  | .sstHs2 hs2 => handleSstHs2 api env hs2
  | .data t nonce ciphertext tag => handleData m api env t nonce ciphertext tag

/-- `stats.total_pkts++`, when the type byte is one of the four. -/
def Dash.counted (d : Dash) : Dash :=
  { d with stats := { d.stats with totalPkts := d.stats.totalPkts + 1 } }

/-- One report of the byte parser. -/
def handleReport (env : DashEnv) (r : UartReport) (d : Dash) :
    Dash × List DashOut :=
  match r with
  | .quiet | .preambleBroke _ _ | .preambleOk | .unknownType _ => (d, [])
  | .lengthReadFail _ | .badLength _ _ | .payloadReadFail _ => (d.counted, [])
  | .crcFail type =>
      if type = msgTypeEncrypted ∨ type = msgTypeFile then
        (d.counted.decryptFailed, [])
      else (d.counted, [])
  | .frame f => handleFrame m api env f d.counted

/-! ## Key presses -/

/-- What a queued `/force_key` request left in the local variables of the loop; a
local key press leaves both flags false. -/
structure RemoteForce where
  hasTarget : Bool
  targetId : Bytes 8
  hasMaterial : Bool
  cipherKey : Bytes 16
  macKey : Bytes 32

/-- The keys that change the state. -/
inductive KeyPress where
  | n
  | one
  | f (remote : RemoteForce)
  | two
  | c
  | r

/-- Key `n`: rotate to the next key of the local list. -/
def handleRotate (d : Dash) : Dash :=
  match d.keyList with
  | some keys =>
      if keys.length > 1 then
        let idx := (d.currentKeyIdx + 1) % keys.length
        { d with
          currentKeyIdx := idx
          sKey := keys.getD idx SessionKey.zero }
      else d
  | none => d

/-- A key adopted by key `f` is counted and written to the Pico. -/
def forceAdopt (env : DashEnv) (k : SessionKey) (d : Dash) :
    Dash × List DashOut :=
  let d := { d.adopt k with stats := d.stats.keyConsumed }
  (d, sendActiveKey env d)

/-- The key pushed by the dashboard. -/
def RemoteForce.pushed (remote : RemoteForce) : SessionKey where
  keyId := remote.targetId
  cipherKey := remote.cipherKey.append (Bytes.zero 16)
  macKey := remote.macKey

/-- Key `f` with pushed material, with a target id, or blind. -/
def handleForce (env : DashEnv) (remote : RemoteForce) (d : Dash) :
    Dash × List DashOut :=
  if remote.hasMaterial then forceAdopt env remote.pushed d
  else if remote.hasTarget then
    let d := { d with keyList := env.keyListAfterById }
    match env.keyById remote.targetId with
    | none => (d, [])
    | some found => forceAdopt env found d
  else
    match env.sessionKeys with
    | none | some [] => (d, [])
    | some (k :: keys) =>
        forceAdopt env k { d with keyList := some (k :: keys) }

/-- At most the key list changes, or a key is adopted. -/
theorem handleForce_cases (env : DashEnv) (remote : RemoteForce) (d : Dash) :
    (∃ keys, handleForce env remote d = ({ d with keyList := keys }, [])) ∨
      ∃ k keys, handleForce env remote d =
        forceAdopt env k { d with keyList := keys } := by
  rw [handleForce]
  split
  · exact Or.inr ⟨_, d.keyList, rfl⟩
  · split
    · simp only
      split
      · exact Or.inl ⟨_, rfl⟩
      · exact Or.inr ⟨_, _, rfl⟩
    · split
      · exact Or.inl ⟨d.keyList, rfl⟩
      · exact Or.inl ⟨d.keyList, rfl⟩
      · exact Or.inr ⟨_, _, rfl⟩

def handleKey (env : DashEnv) (key : KeyPress) (d : Dash) :
    Dash × List DashOut :=
  match key with
  | .n => (handleRotate d, [])
  | .one => if d.keyValid then (d, sendActiveKey env d) else (d, [])
  | .f remote => handleForce env remote d
  | .two =>
      if d.fdOpen ∧ d.keyValid then startHandshake api env d else (d, [])
  | .c =>
      ({ d with stats := { SessionStats.zero with
          keysConsumed := d.stats.keysConsumed } }, [])
  | .r => ({ d with fdOpen := env.reopens }, [])

/-! ## Timeouts -/

/-- The deadline of the current state has passed. -/
def handleTimeout (d : Dash) : Dash :=
  match d.state with
  | .idle => d
  | .waitingForYes => { d with state := .idle }
  | .waitingForAck => { d with pendingKey := Bytes.zero 32, state := .idle }
  | .waitingForSstHs2 =>
      { d with
        stats := { d.stats with timeouts := d.stats.timeouts + 1 }
        sstEntityNonce := Bytes.zero 8
        state := .idle }

/-! ## Steps and runs -/

/-- The events of the main loop, in the order in which one pass looks for them. -/
inductive DashEvent where
  | key (key : KeyPress)
  | timeout
  | uart (r : UartReport)

def dashStep (d : Dash) (env : DashEnv) : DashEvent → Dash × List DashOut
  | .key key => handleKey api env key d
  | .timeout => (handleTimeout d, [])
  | .uart r => handleReport m api env r d

/-- The receiver as a machine; each event comes with its surroundings. -/
def dashReceiver : Machine Dash (DashEnv × DashEvent) DashOut where
  step d e := dashStep m api d e.1 e.2

end LifiAuth
