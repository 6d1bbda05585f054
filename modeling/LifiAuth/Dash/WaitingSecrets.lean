import LifiAuth.Dash.ActiveKey
import LifiAuth.Dash.SstApi

/-!
# The secrets of the waiting states

One state variable serves three waits.  Two of them keep a secret while they last:
the wait for an `ACK` the pending key, the wait for SST_HS2 the nonce of the
handshake.  An event begins a wait, ends the current one or leaves it; the secrets
stay with their waits exactly if no event begins a wait over the secret of another
one and no failed start of a handshake leaves a nonce.
-/

namespace LifiAuth

open Support

variable (m : Mbedtls) (api : SstApi)

/-- `state` and the two secrets. -/
structure Waiting where
  state : ReceiverState
  pendingKey : Bytes 32
  sstEntityNonce : Bytes 8

def Dash.waiting (d : Dash) : Waiting :=
  ⟨d.state, d.pendingKey, d.sstEntityNonce⟩

/-- A secret other than zero belongs to the wait under way. -/
structure Waiting.SecretsKept (w : Waiting) : Prop where
  pendingKey : w.pendingKey ≠ Bytes.zero 32 → w.state = .waitingForAck
  sstEntityNonce : w.sstEntityNonce ≠ Bytes.zero 8 → w.state = .waitingForSstHs2

instance (w : Waiting) : Decidable w.SecretsKept :=
  decidable_of_iff
    ((w.pendingKey ≠ Bytes.zero 32 → w.state = .waitingForAck) ∧
      (w.sstEntityNonce ≠ Bytes.zero 8 → w.state = .waitingForSstHs2))
    ⟨fun h => ⟨h.1, h.2⟩, fun h => ⟨h.pendingKey, h.sstEntityNonce⟩⟩

/-! ## What an event does to the wait -/

inductive WaitOp where
  | stay
  /-- `parse_handshake_1` failed or gave a wrong length after it wrote the nonce. -/
  | hs1Failed (entityNonce : Bytes 8)
  | hs1Unsent
  | hs1Sent (entityNonce : Bytes 8)
  | hs2Came
  | keySent (pendingKey : Bytes 32)
  | ackCame
  | newKeyAsked
  | timedOut

/-- The wait for an `ACK` ends, if it is under way. -/
def Waiting.endAck (w : Waiting) : Waiting :=
  if w.state = .waitingForAck then
    { w with state := .idle, pendingKey := Bytes.zero 32 }
  else w

/-- The wait for SST_HS2 ends, if it is under way. -/
def Waiting.endSstHs2 (w : Waiting) : Waiting :=
  if w.state = .waitingForSstHs2 then
    { w with state := .idle, sstEntityNonce := Bytes.zero 8 }
  else w

/-- The wait for a `yes` ends, if it is under way. -/
def Waiting.endYes (w : Waiting) : Waiting :=
  if w.state = .waitingForYes then { w with state := .idle } else w

def Waiting.apply (w : Waiting) : WaitOp → Waiting
  | .stay => w
  | .hs1Failed entityNonce => { w with sstEntityNonce := entityNonce }
  | .hs1Unsent => { w with sstEntityNonce := Bytes.zero 8 }
  | .hs1Sent entityNonce =>
      { w with state := .waitingForSstHs2, sstEntityNonce := entityNonce }
  | .hs2Came => w.endSstHs2
  | .keySent pendingKey =>
      { w with state := .waitingForAck, pendingKey := pendingKey }
  | .ackCame => w.endAck
  | .newKeyAsked => { w with state := .waitingForYes }
  | .timedOut => w.endYes.endAck.endSstHs2

/-- The start of a handshake with `key`. -/
def handshakeOp (env : DashEnv) (key : SessionKey) : WaitOp :=
  match (api.parseHandshake1 key env.hs).1 with
  | none => .hs1Failed (api.parseHandshake1 key env.hs).2
  | some hs1 =>
      if hs1.length ≠ sstHs1PayloadSize then
        .hs1Failed (api.parseHandshake1 key env.hs).2
      else if env.writes 0 = none ∧ env.writes 1 = none then
        .hs1Sent (api.parseHandshake1 key env.hs).2
      else .hs1Unsent

/-- `new key -f`. -/
def newKeyForcedOp (env : DashEnv) : WaitOp :=
  match env.sessionKeys with
  | none | some [] => .stay
  | some (k :: _) => .keySent k.cipherKey

/-- A decrypted chat message. -/
def messageOp (env : DashEnv) (d : Dash) (text : List UInt8) : WaitOp :=
  if text = ascii "I have the key" then .stay
  else if text = ascii "new key -f" then newKeyForcedOp env
  else if text = ascii "new key" then
    if env.now - d.lastKeyReqTime < keyUpdateCooldownS then .stay else .newKeyAsked
  else if text = ascii "ACK" then .ackCame
  else if text = ascii "verify key" then
    if d.fdOpen ∧ d.keyValid ∧ d.state = .idle then handshakeOp api env d.sKey
    else .stay
  else .stay

/-- A key id whose key was found, or not. -/
def keyIdOp (env : DashEnv) (payload : List UInt8) (d : Dash) : WaitOp :=
  match env.keyById (env.peerId payload) with
  | none => .stay
  | some found =>
      if d.fdOpen ∧ d.state = .idle then handshakeOp api env found else .stay

/-- What the event is to the wait. -/
def waitOp (env : DashEnv) (d : Dash) : DashEvent → WaitOp
  | .key .two =>
      if d.fdOpen ∧ d.keyValid then handshakeOp api env d.sKey else .stay
  | .key _ => .stay
  | .timeout => .timedOut
  | .uart (.frame (.keyIdOnly payload _)) => keyIdOp api env payload d
  | .uart (.frame (.sstHs2 _)) => .hs2Came
  | .uart (.frame (.data .encrypted nonce ciphertext tag)) =>
      match d.decrypts m nonce ciphertext tag with
      | none => .stay
      | some decrypted => messageOp api env d (cstr decrypted)
  | .uart _ => .stay

/-! ## The handlers -/

section

variable {m api} {env : DashEnv}

theorem writeChain_pair_iff (writes : ℕ → Option ℕ) (first second : List UInt8) :
    (writeChain writes 0 [first, second]).2 = true ↔
      writes 0 = none ∧ writes 1 = none := by
  cases h₀ : writes 0 with
  | some sent => simp [writeChain, writeAll, h₀]
  | none =>
      cases h₁ : writes 1 with
      | some sent => simp [writeChain, writeAll, h₀, h₁]
      | none => simp [writeChain, writeAll, h₀, h₁]

theorem waiting_startHandshake (d : Dash) :
    (startHandshake api env d).1.waiting =
      d.waiting.apply (handshakeOp api env d.sKey) := by
  rw [startHandshake, handshakeOp]
  cases (api.parseHandshake1 d.sKey env.hs).1 with
  | none => rfl
  | some hs1 =>
      simp only
      by_cases hlen : hs1.length ≠ sstHs1PayloadSize
      · rw [if_pos hlen, if_pos hlen]
        rfl
      · rw [if_neg hlen, if_neg hlen]
        simp only [writeChain_pair_iff]
        split
        · rfl
        · rfl

theorem waiting_autoConnect (d : Dash) :
    (autoConnect api env d).1.waiting =
      d.waiting.apply
        (if d.fdOpen ∧ d.state = .idle then handshakeOp api env d.sKey
          else .stay) := by
  rw [autoConnect]
  split
  · exact waiting_startHandshake d
  · rfl

theorem waiting_handleKeyIdOnly (payload : List UInt8) (d : Dash) :
    (handleKeyIdOnly api env payload d).1.waiting =
      d.waiting.apply (keyIdOp api env payload d) := by
  rw [handleKeyIdOnly, keyIdOp]
  cases env.keyById (env.peerId payload) with
  | none => rfl
  | some found => exact waiting_autoConnect _

theorem waiting_handleSstHs2 (hs2 : Bytes 80) (d : Dash) :
    (handleSstHs2 api env hs2 d).1.waiting = d.waiting.endSstHs2 := by
  rw [handleSstHs2, Waiting.endSstHs2]
  by_cases hwaiting : d.state = .waitingForSstHs2
  · rw [if_neg (not_not_intro hwaiting),
      if_pos (show d.waiting.state = .waitingForSstHs2 from hwaiting)]
    rfl
  · rw [if_pos hwaiting,
      if_neg (show ¬ d.waiting.state = .waitingForSstHs2 from hwaiting)]

theorem waiting_handleNewKeyForced (d : Dash) :
    (handleNewKeyForced env d).1.waiting = d.waiting.apply (newKeyForcedOp env) := by
  rw [handleNewKeyForced, newKeyForcedOp]
  cases env.sessionKeys with
  | none => rfl
  | some keys =>
      cases keys with
      | nil => rfl
      | cons k keys => rfl

theorem waiting_handleForce (remote : RemoteForce) (d : Dash) :
    (handleForce env remote d).1.waiting = d.waiting := by
  rcases handleForce_cases env remote d with ⟨keys, hforce⟩ | ⟨k, keys, hforce⟩
  · rw [hforce]
    rfl
  · rw [hforce]
    rfl

variable (api env) in
theorem waiting_handleMessage (decrypted : List UInt8) (d : Dash) :
    (handleMessage api env decrypted d).1.waiting =
      d.waiting.apply (messageOp api env d (cstr decrypted)) := by
  simp only [handleMessage, messageOp]
  split
  · rfl
  · split
    · exact waiting_handleNewKeyForced d
    · split
      · rw [handleNewKey]
        split
        · rfl
        · rfl
      · by_cases hack : cstr decrypted = ascii "ACK"
        · have hverify : ascii "ACK" ≠ ascii "verify key" := by decide
          simp only [hack, and_true, if_true, hverify, if_false]
          rw [Waiting.apply, Waiting.endAck]
          split
          · next hstate => rw [if_pos (show d.waiting.state = _ from hstate)]; rfl
          · next hstate => rw [if_neg (show ¬ d.waiting.state = _ from hstate)]
        · simp only [hack, and_false, if_false]
          split
          · rw [handleVerifyKey]
            split
            · exact waiting_startHandshake d
            · rfl
          · rfl

theorem waiting_handleTimeout (d : Dash) :
    (handleTimeout d).waiting = d.waiting.apply .timedOut := by
  simp only [Waiting.apply, Waiting.endYes, Waiting.endAck, Waiting.endSstHs2]
  rw [handleTimeout]
  split
  · next hstate => simp [Dash.waiting, hstate]
  · next hstate => simp [Dash.waiting, hstate]
  · next hstate => simp [Dash.waiting, hstate]
  · next hstate => simp [Dash.waiting, hstate]

variable (api env) in
theorem waiting_handleData (d : Dash) (t : DataType) (nonce : Bytes 12)
    (ciphertext : Ctext) (tag : Bytes 16) :
    (handleData m api env t nonce ciphertext tag d).1.waiting =
      d.waiting.apply
        (waitOp m api env d (.uart (.frame (.data t nonce ciphertext tag)))) := by
  cases hdecrypts : d.decrypts m nonce ciphertext tag with
  | none =>
      obtain ⟨rwin, stats, hdata⟩ := handleData_of_not_decrypts api env t hdecrypts
      have hop : waitOp m api env d
          (.uart (.frame (.data t nonce ciphertext tag))) = .stay := by
        cases t with
        | file => rfl
        | encrypted => simp only [waitOp, hdecrypts]
      rw [hdata, hop]
      rfl
  | some text =>
      obtain ⟨-, hdata⟩ := handleData_of_decrypts api env t hdecrypts
      have hfinish (d' : Dash) :
          (finishData ciphertext.1 text d').waiting = d'.waiting := rfl
      rw [hdata, hfinish]
      cases t with
      | file => rfl
      | encrypted =>
          simp only [waitOp, hdecrypts]
          exact waiting_handleMessage api env text (d.record nonce)

end

/-! ## Steps -/

theorem waiting_dashStep (d : Dash) (env : DashEnv) (ev : DashEvent) :
    (dashStep m api d env ev).1.waiting = d.waiting.apply (waitOp m api env d ev) := by
  cases ev with
  | key key =>
      cases key with
      | n =>
          simp only [dashStep, handleKey, handleRotate]
          split
          · split
            · rfl
            · rfl
          · rfl
      | f remote => exact waiting_handleForce remote d
      | one =>
          simp only [dashStep, handleKey]
          split
          · rfl
          · rfl
      | two =>
          simp only [dashStep, handleKey, waitOp]
          split
          · exact waiting_startHandshake d
          · rfl
      | c => rfl
      | r => rfl
  | timeout => exact waiting_handleTimeout d
  | uart r =>
      cases r with
      | frame f =>
          cases f with
          | keyIdOnly payload len => exact waiting_handleKeyIdOnly payload d.counted
          | sstHs2 hs2 => exact waiting_handleSstHs2 hs2 d.counted
          | data t nonce ciphertext tag =>
              exact waiting_handleData api env d.counted t nonce ciphertext tag
      | crcFail type =>
          simp only [dashStep, handleReport]
          split
          · rfl
          · rfl
      | _ => rfl

/-! ## Keeping the secrets -/

/-- The event begins no wait over the secret of another one and leaves no nonce
without a wait. -/
def WaitOp.Clears (w : Waiting) : WaitOp → Prop
  | .hs1Failed entityNonce =>
      entityNonce = Bytes.zero 8 ∨ w.state = .waitingForSstHs2
  | .hs1Sent _ => w.pendingKey = Bytes.zero 32
  | .keySent _ => w.sstEntityNonce = Bytes.zero 8
  | .newKeyAsked =>
      w.pendingKey = Bytes.zero 32 ∧ w.sstEntityNonce = Bytes.zero 8
  | .stay | .hs1Unsent | .hs2Came | .ackCame | .timedOut => True

instance (w : Waiting) (op : WaitOp) : Decidable (op.Clears w) := by
  cases op with
  | hs1Failed entityNonce => exact inferInstanceAs (Decidable (_ ∨ _))
  | hs1Sent entityNonce => exact inferInstanceAs (Decidable (_ = _))
  | keySent pendingKey => exact inferInstanceAs (Decidable (_ = _))
  | newKeyAsked => exact inferInstanceAs (Decidable (_ ∧ _))
  | _ => exact inferInstanceAs (Decidable True)

section

variable {w : Waiting} (hw : w.SecretsKept)

include hw

theorem Waiting.SecretsKept.endAck : w.endAck.SecretsKept := by
  rw [Waiting.endAck]
  split
  · next hstate =>
      refine ⟨?_, ?_⟩
      · intro hne
        exact absurd rfl hne
      · intro hne
        have hwaiting := hw.sstEntityNonce hne
        rw [hstate] at hwaiting
        cases hwaiting
  · exact hw

theorem Waiting.SecretsKept.endSstHs2 : w.endSstHs2.SecretsKept := by
  rw [Waiting.endSstHs2]
  split
  · next hstate =>
      refine ⟨?_, ?_⟩
      · intro hne
        have hwaiting := hw.pendingKey hne
        rw [hstate] at hwaiting
        cases hwaiting
      · intro hne
        exact absurd rfl hne
  · exact hw

/-- In any other state both secrets are zero. -/
theorem Waiting.SecretsKept.wiped (hack : w.state ≠ .waitingForAck)
    (hhs2 : w.state ≠ .waitingForSstHs2) :
    w.pendingKey = Bytes.zero 32 ∧ w.sstEntityNonce = Bytes.zero 8 := by
  constructor
  · by_contra hne
    exact hack (hw.pendingKey hne)
  · by_contra hne
    exact hhs2 (hw.sstEntityNonce hne)

theorem Waiting.SecretsKept.endYes : w.endYes.SecretsKept := by
  rw [Waiting.endYes]
  split
  · next hstate =>
      obtain ⟨hkey, hnonce⟩ := hw.wiped (by rw [hstate]; decide) (by rw [hstate]; decide)
      exact ⟨fun hne => absurd hkey hne, fun hne => absurd hnonce hne⟩
  · exact hw

/-- From kept secrets, exactly the events that clear what they displace keep them. -/
theorem secretsKept_apply_iff (op : WaitOp) :
    (w.apply op).SecretsKept ↔ op.Clears w := by
  cases op with
  | stay => exact ⟨fun _ => trivial, fun _ => hw⟩
  | hs1Failed entityNonce =>
      constructor
      · intro h
        by_cases hzero : entityNonce = Bytes.zero 8
        · exact Or.inl hzero
        · exact Or.inr (h.sstEntityNonce hzero)
      · rintro hclears
        refine ⟨hw.pendingKey, ?_⟩
        intro hne
        exact hclears.resolve_left hne
  | hs1Unsent =>
      refine ⟨fun _ => trivial, fun _ => ⟨hw.pendingKey, ?_⟩⟩
      intro hne
      exact absurd rfl hne
  | hs1Sent entityNonce =>
      constructor
      · intro h
        by_contra hne
        cases h.pendingKey hne
      · intro hkey
        exact ⟨fun hne => absurd hkey hne, fun _ => rfl⟩
  | hs2Came => exact ⟨fun _ => trivial, fun _ => hw.endSstHs2⟩
  | keySent pendingKey =>
      constructor
      · intro h
        by_contra hne
        cases h.sstEntityNonce hne
      · intro hnonce
        exact ⟨fun _ => rfl, fun hne => absurd hnonce hne⟩
  | ackCame => exact ⟨fun _ => trivial, fun _ => hw.endAck⟩
  | newKeyAsked =>
      constructor
      · intro h
        exact h.wiped nofun nofun
      · rintro ⟨hkey, hnonce⟩
        exact ⟨fun hne => absurd hkey hne, fun hne => absurd hnonce hne⟩
  | timedOut => exact ⟨fun _ => trivial, fun _ => hw.endYes.endAck.endSstHs2⟩

end

/-! ## Runs -/

/-- The event clears what it displaces. -/
def ClearsSecrets (_ : List DashOut) (d : Dash) (e : DashEnv × DashEvent) : Prop :=
  (waitOp m api e.1 d e.2).Clears d.waiting

theorem secretsKept_start (fdOpen : Bool) (sessionKeys : KeyList)
    (memory : List.Vector (Bytes 12) 64) :
    (Dash.start fdOpen sessionKeys memory).waiting.SecretsKept :=
  ⟨fun hne => absurd rfl hne, fun hne => absurd rfl hne⟩

/-- The pending key and the nonce of the handshake are zero outside their waits, in
all states of a run, exactly if every event clears what it displaces. -/
theorem secretsKept_iff (fdOpen : Bool) (sessionKeys : KeyList)
    (memory : List.Vector (Bytes 12) 64) (es : List (DashEnv × DashEvent)) :
    (∀ n, ((dashReceiver m api).run (Dash.start fdOpen sessionKeys memory)
        (es.take n)).waiting.SecretsKept) ↔
      (dashReceiver m api).Admissible (ClearsSecrets m api) []
        (Dash.start fdOpen sessionKeys memory) es := by
  apply Machine.forall_run_take_iff (P := fun d : Dash => d.waiting.SecretsKept) _ []
    (secretsKept_start fdOpen sessionKeys memory)
  intro t d e _ hd
  rw [show (dashReceiver m api).step d e = dashStep m api d e.1 e.2 from rfl,
    waiting_dashStep]
  exact secretsKept_apply_iff hd _

/-- A message `new key` under the all-zero key. -/
def newKeyMessage : Frame :=
  .data .encrypted (List.Vector.replicate 12 1) ⟨ascii "new key", by decide⟩
    (Bytes.zero 16)

/-- The receiver with the all-zero key. -/
def zeroKeyed : Dash :=
  Dash.start true (some [SessionKey.zero]) (List.Vector.replicate 64 (Bytes.zero 12))

/-- Key `2` starts a handshake, and the peer asks for a new key meanwhile. -/
def newKeyDuringHandshake : List (DashEnv × DashEvent) :=
  [({ DashEnv.bare with hs := ⟨List.Vector.replicate 8 7, Bytes.zero 16⟩ }, .key .two),
    ({ DashEnv.bare with now := keyUpdateCooldownS },
      .uart (.frame newKeyMessage))]

/-- The wait for SST_HS2 is gone, its nonce stays. -/
theorem newKey_leaves_entityNonce :
    let d := (dashReceiver .transparent (.reference .transparent)).run zeroKeyed
      newKeyDuringHandshake
    d.state = .waitingForYes ∧ d.sstEntityNonce ≠ Bytes.zero 8 ∧
      ¬ d.waiting.SecretsKept := by
  decide +kernel

end LifiAuth
