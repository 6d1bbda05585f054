import LifiAuth.Dash.Handlers

/-!
# The active key of dash_receiver

`s_key` and the two globals that mirror it for the other threads.  A step adopts a
key, which sets all of them, or moves `s_key` alone, or leaves them.
-/

namespace LifiAuth

open Support

variable (m : Mbedtls) (api : SstApi)

/-- `s_key` with `key_valid`, and the mirrors that the other threads read. -/
structure ActiveKey where
  sKey : SessionKey
  keyValid : Bool
  macKey : Bytes 32
  repKeyValid : Bool
  keyIdHex : List UInt8

/-- A key is taken over with its mirrors. -/
def ActiveKey.adopt (k : SessionKey) : ActiveKey where
  sKey := k
  keyValid := true
  macKey := k.macKey
  repKeyValid := true
  keyIdHex := hexString k.keyId.toList

/-- The mirrors stay behind. -/
def ActiveKey.move (a : ActiveKey) (k : SessionKey) : ActiveKey :=
  { a with sKey := k }

def Dash.active (d : Dash) : ActiveKey where
  sKey := d.sKey
  keyValid := d.keyValid
  macKey := d.rep.macKey
  repKeyValid := d.rep.keyValid
  keyIdHex := d.rep.currentKeyIdHex

/-! ## Which key a step puts in use -/

/-- The key that an event takes over: what key `f` pushes or fetches, and what
`get_session_key_by_ID` finds for a peer's id. -/
def adoptedKey (env : DashEnv) : DashEvent → Option SessionKey
  | .key (.f remote) =>
      if remote.hasMaterial then some remote.pushed
      else if remote.hasTarget then env.keyById remote.targetId
      else env.sessionKeys.bind List.head?
  | .uart (.frame (.keyIdOnly payload _)) => env.keyById (env.peerId payload)
  | _ => none

/-- The key after the active one in the local list. -/
def Dash.rotatedKey (d : Dash) : Option SessionKey :=
  d.keyList.bind fun keys =>
    if keys.length > 1 then
      some (keys.getD ((d.currentKeyIdx + 1) % keys.length) SessionKey.zero)
    else none

/-- What a data frame decrypts to, if it is new and there is a key. -/
def Dash.decrypts (d : Dash) (nonce : Bytes 12) (ciphertext : Ctext)
    (tag : Bytes 16) : Option (List UInt8) :=
  if d.rwin.seen nonce = false ∧ d.keyValid = true then
    (m.sstDecryptGcm d.sKey.aesKey nonce (Bytes.ofList ciphertext.1) tag).map
      List.Vector.toList
  else none

/-- The key that an event puts into `s_key` only: key `n`, and an `ACK` that is
waited for. -/
def movedKey (d : Dash) : DashEvent → Option SessionKey
  | .key .n => d.rotatedKey
  | .uart (.frame (.data .encrypted nonce ciphertext tag)) =>
      if d.state = .waitingForAck ∧
          (d.decrypts m nonce ciphertext tag).map cstr = some (ascii "ACK") then
        some d.ackedKey
      else none
  | _ => none

/-- The event is a frame that decrypts, which the reporter is told of. -/
def reportsFrame (d : Dash) : DashEvent → Bool
  | .uart (.frame (.data _ nonce ciphertext tag)) =>
      (d.decrypts m nonce ciphertext tag).isSome
  | _ => false

/-! ## What a step publishes -/

/-- What the reporter has still to post. -/
def Dash.queued (d : Dash) : Bool × ReporterEvent :=
  (d.rep.pending, d.rep.event)

/-- The active key, and what the reporter has still to post. -/
def Dash.published (d : Dash) : ActiveKey × Bool × ReporterEvent :=
  (d.active, d.queued)

section

variable {m api} {env : DashEnv}

theorem published_startHandshake (d : Dash) :
    (startHandshake api env d).1.published = d.published := by
  obtain ⟨nonce, state, h⟩ := startHandshake_eq api env d
  rw [h]
  rfl

theorem published_autoConnect (d : Dash) :
    (autoConnect api env d).1.published = d.published := by
  rw [autoConnect]
  split
  · exact published_startHandshake d
  · rfl

theorem published_handleForce (remote : RemoteForce) (d : Dash) :
    (handleForce env remote d).1.published =
      ((adoptedKey env (.key (.f remote))).elim d.active .adopt, d.queued) := by
  rw [handleForce, adoptedKey]
  split
  · rfl
  · split
    · simp only
      split
      · next hfound => rw [hfound]; rfl
      · next found hfound => rw [hfound]; rfl
    · split
      · next hkeys => rw [hkeys]; rfl
      · next hkeys => rw [hkeys]; rfl
      · next k keys hkeys => rw [hkeys]; rfl

theorem published_handleKeyIdOnly (payload : List UInt8) (d : Dash) :
    (handleKeyIdOnly api env payload d).1.published =
      ((env.keyById (env.peerId payload)).elim d.active .adopt, d.queued) := by
  rw [handleKeyIdOnly]
  split
  · next hfound => rw [hfound]; rfl
  · next found hfound =>
      rw [hfound, published_autoConnect]
      rfl

theorem published_handleRotate (d : Dash) :
    (handleRotate d).published =
      (d.rotatedKey.elim d.active d.active.move, d.queued) := by
  rw [handleRotate, Dash.rotatedKey]
  split
  · next keys hkeys =>
      rw [hkeys, Option.bind_some]
      split
      · rfl
      · rfl
  · next hkeys => rw [hkeys]; rfl

/-- `new key -f` leaves the key in use, since there is one. -/
theorem published_handleNewKeyForced {d : Dash} (hvalid : d.keyValid = true) :
    (handleNewKeyForced env d).1.published = d.published := by
  rw [handleNewKeyForced]
  split
  · rfl
  · rfl
  · simp only [Dash.published, Dash.active, Dash.awaitAck, hvalid]
    rfl

variable (api env) in
theorem published_handleMessage (decrypted : List UInt8) {d : Dash}
    (hvalid : d.keyValid = true) :
    (handleMessage api env decrypted d).1.published =
      if d.state = .waitingForAck ∧ cstr decrypted = ascii "ACK" then
        (d.active.move d.ackedKey, d.queued)
      else d.published := by
  by_cases hack : cstr decrypted = ascii "ACK"
  · have hhave : ascii "ACK" ≠ ascii "I have the key" := by decide
    have hforced : ascii "ACK" ≠ ascii "new key -f" := by decide
    have hnew : ascii "ACK" ≠ ascii "new key" := by decide
    have hverify : ascii "ACK" ≠ ascii "verify key" := by decide
    simp only [handleMessage, hack, hhave, hforced, hnew, hverify, if_false,
      and_true]
    split
    · rfl
    · rfl
  · simp only [handleMessage, hack, and_false, if_false]
    split
    · rfl
    · split
      · exact published_handleNewKeyForced hvalid
      · split
        · rw [handleNewKey]
          split
          · rfl
          · rfl
        · split
          · rw [handleVerifyKey]
            split
            · exact published_startHandshake d
            · rfl
          · rfl

theorem published_handleSstHs2 (hs2 : Bytes 80) (d : Dash) :
    (handleSstHs2 api env hs2 d).1.published = d.published := by
  rw [handleSstHs2]
  split
  · rfl
  · rfl

theorem published_handleTimeout (d : Dash) :
    (handleTimeout d).published = d.published := by
  rw [handleTimeout]
  split
  · rfl
  · rfl
  · rfl
  · rfl

/-! ## Data frames -/

variable (api env) in
/-- A frame that decrypts goes through the message handler. -/
theorem handleData_of_decrypts {d : Dash} (t : DataType) {nonce : Bytes 12}
    {ciphertext : Ctext} {tag : Bytes 16} {text : List UInt8}
    (h : d.decrypts m nonce ciphertext tag = some text) :
    d.keyValid = true ∧ (handleData m api env t nonce ciphertext tag d).1 =
      finishData ciphertext.1 text
        (handleDecrypted api env t text (d.record nonce)).1 := by
  rw [Dash.decrypts] at h
  split at h
  · next hnew =>
      obtain ⟨hseen, hvalid⟩ := hnew
      obtain ⟨decrypted, hdecrypted, rfl⟩ := Option.map_eq_some_iff.mp h
      refine ⟨hvalid, ?_⟩
      rw [handleData, if_neg (Bool.eq_false_iff.mp hseen), decryptData,
        if_pos (show (d.record nonce).keyValid = true from hvalid)]
      simp only [Dash.record, hdecrypted]
  · cases h

variable (api env) in
/-- One that does not is only recorded and counted. -/
theorem handleData_of_not_decrypts {d : Dash} (t : DataType) {nonce : Bytes 12}
    {ciphertext : Ctext} {tag : Bytes 16}
    (h : d.decrypts m nonce ciphertext tag = none) :
    ∃ rwin stats, (handleData m api env t nonce ciphertext tag d).1 =
      { d with rwin := rwin, stats := stats } := by
  rw [handleData]
  by_cases hseen : d.rwin.seen nonce = true
  · rw [if_pos hseen]
    exact ⟨_, _, rfl⟩
  · rw [if_neg hseen, decryptData]
    by_cases hvalid : d.keyValid = true
    · rw [Dash.decrypts, if_pos ⟨Bool.eq_false_iff.mpr hseen, hvalid⟩,
        Option.map_eq_none_iff] at h
      rw [if_pos (show (d.record nonce).keyValid = true from hvalid)]
      simp only [Dash.record, h]
      exact ⟨_, _, rfl⟩
    · rw [if_neg (show ¬ (d.record nonce).keyValid = true from hvalid)]
      exact ⟨_, _, rfl⟩

variable (api env) in
theorem published_of_not_decrypts {d : Dash} (t : DataType) {nonce : Bytes 12}
    {ciphertext : Ctext} {tag : Bytes 16}
    (h : d.decrypts m nonce ciphertext tag = none) :
    (handleData m api env t nonce ciphertext tag d).1.published = d.published := by
  obtain ⟨rwin, stats, hdata⟩ := handleData_of_not_decrypts api env t h
  rw [hdata]
  rfl

variable (api env) in
/-- A frame that decrypts moves the key exactly if it is the `ACK` that is waited
for. -/
theorem active_of_decrypts {d : Dash} (t : DataType) {nonce : Bytes 12}
    {ciphertext : Ctext} {tag : Bytes 16} {text : List UInt8}
    (h : d.decrypts m nonce ciphertext tag = some text) :
    (handleData m api env t nonce ciphertext tag d).1.active =
      (movedKey m d (.uart (.frame (.data t nonce ciphertext tag)))).elim
        d.active d.active.move := by
  obtain ⟨hvalid, hdata⟩ := handleData_of_decrypts api env t h
  have hactive (d' : Dash) : (finishData ciphertext.1 text d').active = d'.active :=
    rfl
  rw [hdata, hactive]
  cases t with
  | file => rfl
  | encrypted =>
      have hmessage := congrArg Prod.fst (published_handleMessage api env text
        (show (d.record nonce).keyValid = true from hvalid))
      have hstate : (d.record nonce).state = d.state := rfl
      simp only [movedKey, h, Option.map_some, Option.some_inj]
      rw [handleDecrypted]
      refine hmessage.trans ?_
      rw [hstate]
      by_cases hack : d.state = .waitingForAck ∧ cstr text = ascii "ACK"
      · rw [if_pos hack, if_pos hack]
        rfl
      · rw [if_neg hack, if_neg hack]
        rfl

end

/-! ## Steps -/

/-- What an event does to the active key. -/
def ActiveKey.next (a : ActiveKey) (adopted moved : Option SessionKey) : ActiveKey :=
  adopted.elim (moved.elim a a.move) .adopt

/-- Without a key to take over, `s_key` moves or stays. -/
theorem ActiveKey.next_none (a : ActiveKey) (moved : Option SessionKey) :
    a.next none moved = a.move (moved.getD a.sKey) := by
  cases moved with
  | none => rfl
  | some k => rfl

/-- A step takes a key over, moves to one, or leaves the active key; and unless it
reports a frame, it queues nothing. -/
theorem published_dashStep (d : Dash) (env : DashEnv) {ev : DashEvent}
    (h : reportsFrame m d ev = false) :
    (dashStep m api d env ev).1.published =
      (d.active.next (adoptedKey env ev) (movedKey m d ev), d.queued) := by
  cases ev with
  | key key =>
      cases key with
      | n => exact published_handleRotate d
      | f remote => exact published_handleForce remote d
      | one =>
          simp only [dashStep, handleKey]
          split
          · rfl
          · rfl
      | two =>
          simp only [dashStep, handleKey]
          split
          · exact published_startHandshake d
          · rfl
      | c => rfl
      | r => rfl
  | timeout => exact published_handleTimeout d
  | uart r =>
      cases r with
      | frame f =>
          cases f with
          | keyIdOnly payload len => exact published_handleKeyIdOnly payload d.counted
          | sstHs2 hs2 => exact published_handleSstHs2 hs2 d.counted
          | data t nonce ciphertext tag =>
              have hnone : d.decrypts m nonce ciphertext tag = none :=
                Option.isNone_iff_eq_none.mp (by simpa [reportsFrame] using h)
              have hmoved : movedKey m d
                  (.uart (.frame (.data t nonce ciphertext tag))) = none := by
                cases t with
                | file => rfl
                | encrypted => simp [movedKey, hnone]
              rw [hmoved]
              exact published_of_not_decrypts (d := d.counted) api env t hnone
      | crcFail type =>
          simp only [dashStep, handleReport]
          split
          · rfl
          · rfl
      | _ => rfl

/-- A step that reports a frame queues it under the id of the key then in use. -/
theorem active_of_reportsFrame (d : Dash) (env : DashEnv) {ev : DashEvent}
    (h : reportsFrame m d ev = true) :
    let d' := (dashStep m api d env ev).1
    d'.active = d.active.next none (movedKey m d ev) ∧ adoptedKey env ev = none ∧
      d.keyValid = true ∧ d'.rep.event.keyIdHex = hexString d'.sKey.keyId.toList := by
  cases ev with
  | key key => cases h
  | timeout => cases h
  | uart r =>
      cases r with
      | frame f =>
          cases f with
          | keyIdOnly payload len => cases h
          | sstHs2 hs2 => cases h
          | data t nonce ciphertext tag =>
              obtain ⟨text, htext⟩ := Option.isSome_iff_exists.mp h
              have hcounted : d.counted.decrypts m nonce ciphertext tag = some text :=
                htext
              obtain ⟨hvalid, hdata⟩ := handleData_of_decrypts api env t hcounted
              refine ⟨?_, rfl, hvalid, ?_⟩
              · have hactive := active_of_decrypts api env t hcounted
                cases t with
                | file => exact hactive
                | encrypted => exact hactive
              · simp only [dashStep, handleReport, handleFrame, hdata]
                rfl
      | _ => cases h

/-- The active key after any step. -/
theorem active_dashStep (d : Dash) (env : DashEnv) (ev : DashEvent) :
    (dashStep m api d env ev).1.active =
      d.active.next (adoptedKey env ev) (movedKey m d ev) := by
  cases h : reportsFrame m d ev with
  | false => exact congrArg Prod.fst (published_dashStep m api d env h)
  | true =>
      obtain ⟨hactive, hadopted, -⟩ := active_of_reportsFrame m api d env h
      rw [hadopted]
      exact hactive

end LifiAuth
