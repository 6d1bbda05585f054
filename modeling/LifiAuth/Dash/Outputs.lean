import LifiAuth.Dash.Handlers

/-!
# Where the outputs of dash_receiver come from

Every handshake message, verification and accepted frame in a trace comes from one
event, and the keys and nonces in it are those of the state at that event.
-/

namespace LifiAuth

variable (m : Mbedtls) (api : SstApi)

/-- What an output says about the event that made it and the states around it. -/
def DashOut.Explained (d : Dash) (env : DashEnv) (ev : DashEvent) (d' : Dash) :
    DashOut → Prop
  | tx _ | keyIssued _ _ | fetchFailed | ackReceived => True
  | hs1Made key entityNonce hs1 =>
      key = d'.sKey ∧ api.parseHandshake1 key env.hs = (some hs1, entityNonce)
  | hs2Verified key entityNonce hs2 hs3 =>
      ev = .uart (.frame (.sstHs2 hs2)) ∧ key = d.sKey ∧
        entityNonce = d.sstEntityNonce ∧
        api.checkHandshake2SendHandshake3 hs2 entityNonce key env.hs = some hs3
  | accepted key type nonce ciphertext tag decrypted =>
      ev = .uart (.frame (.data type nonce ciphertext tag)) ∧
        key = d.sKey.aesKey ∧
        ∃ output, m.sstDecryptGcm key nonce (Bytes.ofList ciphertext.1) tag =
          some output ∧ output.toList = decrypted

section

variable {d : Dash} {env : DashEnv} {ev : DashEvent}

/-- All outputs of a result are explained. -/
def ExplainedAll (d : Dash) (env : DashEnv) (ev : DashEvent)
    (r : Dash × List DashOut) : Prop :=
  ∀ o ∈ r.2, o.Explained m api d env ev r.1

theorem explainedAll_nil (d' : Dash) : ExplainedAll m api d env ev (d', []) := by
  intro o ho
  exact absurd ho List.not_mem_nil

theorem explainedAll_tx (d' : Dash) (bytes : List UInt8) :
    ExplainedAll m api d env ev (d', [.tx bytes]) := by
  intro o ho
  rw [List.mem_singleton.mp ho]
  trivial

theorem explainedAll_cons {d' : Dash} {o : DashOut} {out : List DashOut}
    (ho : o.Explained m api d env ev d')
    (hout : ExplainedAll m api d env ev (d', out)) :
    ExplainedAll m api d env ev (d', o :: out) :=
  List.forall_mem_cons.mpr ⟨ho, hout⟩

theorem explainedAll_handleNewKeyForced (d' : Dash) :
    ExplainedAll m api d env ev (handleNewKeyForced env d') := by
  rw [handleNewKeyForced]
  split
  · exact explainedAll_cons m api trivial (explainedAll_nil m api _)
  · exact explainedAll_cons m api trivial (explainedAll_nil m api _)
  · exact explainedAll_cons m api trivial (explainedAll_tx m api _ _)

theorem explainedAll_startHandshake (d' : Dash) :
    ExplainedAll m api d env ev (startHandshake api env d') := by
  simp only [startHandshake]
  split
  · exact explainedAll_nil m api _
  · next hs1 hcall =>
      have hmade : api.parseHandshake1 d'.sKey env.hs =
          (some hs1, (api.parseHandshake1 d'.sKey env.hs).2) := by
        rw [← hcall]
      split
      · exact explainedAll_cons m api ⟨rfl, hmade⟩ (explainedAll_nil m api _)
      · split
        · exact explainedAll_cons m api ⟨rfl, hmade⟩ (explainedAll_tx m api _ _)
        · exact explainedAll_cons m api ⟨rfl, hmade⟩ (explainedAll_tx m api _ _)

theorem explainedAll_sendActiveKey (d' d'' : Dash) :
    ExplainedAll m api d env ev (d'', sendActiveKey env d') := by
  rw [sendActiveKey]
  split
  · exact explainedAll_tx m api _ _
  · exact explainedAll_nil m api _

theorem explainedAll_handleKeyIdOnly (payload : List UInt8) (d' : Dash) :
    ExplainedAll m api d env ev (handleKeyIdOnly api env payload d') := by
  rw [handleKeyIdOnly]
  split
  · exact explainedAll_nil m api _
  · rw [autoConnect]
    split
    · exact explainedAll_startHandshake m api _
    · exact explainedAll_nil m api _

theorem explainedAll_handleSstHs2 (hs2 : Bytes 80) :
    ExplainedAll m api d env (.uart (.frame (.sstHs2 hs2)))
      (handleSstHs2 api env hs2 d.counted) := by
  rw [handleSstHs2]
  split
  · exact explainedAll_nil m api _
  · have hkey : d.counted.sKey = d.sKey := rfl
    have hnonce : d.counted.sstEntityNonce = d.sstEntityNonce := rfl
    rw [hkey, hnonce]
    split
    · exact explainedAll_nil m api _
    · next hs3 hcheck =>
        split
        · exact explainedAll_cons m api ⟨rfl, rfl, rfl, hcheck⟩
            (explainedAll_tx m api _ _)
        · exact explainedAll_cons m api ⟨rfl, rfl, rfl, hcheck⟩
            (explainedAll_nil m api _)

theorem explainedAll_handleMessage (decrypted : List UInt8) (d' : Dash) :
    ExplainedAll m api d env ev (handleMessage api env decrypted d') := by
  rcases handleMessage_cases api env decrypted d' with
    hquiet | hforced | hnew | ⟨-, hack⟩ | hverify
  · rw [hquiet]
    exact explainedAll_nil m api _
  · rw [hforced]
    exact explainedAll_handleNewKeyForced m api _
  · rw [hnew]
    exact explainedAll_nil m api _
  · rw [hack]
    exact explainedAll_cons m api trivial (explainedAll_nil m api _)
  · rw [hverify, handleVerifyKey]
    split
    · exact explainedAll_startHandshake m api _
    · exact explainedAll_nil m api _

theorem explainedAll_handleDecrypted (t : DataType) (decrypted : List UInt8)
    (d' : Dash) :
    ExplainedAll m api d env ev (handleDecrypted api env t decrypted d') := by
  cases t with
  | file => exact explainedAll_nil m api _
  | encrypted => exact explainedAll_handleMessage m api _ _

theorem explainedAll_handleKey (key : KeyPress) (d' : Dash) :
    ExplainedAll m api d env ev (handleKey api env key d') := by
  cases key with
  | n => exact explainedAll_nil m api _
  | one =>
      rw [handleKey]
      split
      · exact explainedAll_sendActiveKey m api d' d'
      · exact explainedAll_nil m api _
  | f remote =>
      rw [handleKey]
      rcases handleForce_cases env remote d' with ⟨keys, hforce⟩ | ⟨k, keys, hforce⟩
      · rw [hforce]
        exact explainedAll_nil m api _
      · rw [hforce]
        exact explainedAll_sendActiveKey m api _ _
  | two =>
      rw [handleKey]
      split
      · exact explainedAll_startHandshake m api _
      · exact explainedAll_nil m api _
  | c => exact explainedAll_nil m api _
  | r => exact explainedAll_nil m api _

/-- The end of the data branch leaves the key alone, so what was explained before
it still is. -/
theorem explainedAll_finishData {r : Dash × List DashOut}
    (h : ExplainedAll m api d env ev r) (ciphertext decrypted : List UInt8) :
    ExplainedAll m api d env ev (finishData ciphertext decrypted r.1, r.2) := by
  intro o ho
  have hexpl := h o ho
  cases o with
  | hs1Made key entityNonce hs1 => exact hexpl
  | _ => exact hexpl

theorem explainedAll_handleData (t : DataType) (nonce : Bytes 12)
    (ciphertext : Ctext) (tag : Bytes 16) :
    ExplainedAll m api d env (.uart (.frame (.data t nonce ciphertext tag)))
      (handleData m api env t nonce ciphertext tag d.counted) := by
  rw [handleData]
  split
  · exact explainedAll_nil m api _
  · rw [decryptData]
    have hkey : (d.counted.record nonce).sKey = d.sKey := rfl
    rw [hkey]
    split
    · split
      · exact explainedAll_nil m api _
      · next decrypted hdec =>
          have hrest : ExplainedAll m api d env
              (.uart (.frame (.data t nonce ciphertext tag)))
              (handleDecrypted api env t decrypted.toList
                (d.counted.record nonce)) :=
            explainedAll_handleDecrypted m api t _ _
          exact explainedAll_cons m api ⟨rfl, rfl, decrypted, hdec, rfl⟩
            (explainedAll_finishData m api hrest ciphertext.1 decrypted.toList)
    · exact explainedAll_nil m api _

end

/-- Every output of a step is explained by that step. -/
theorem explained_dashStep (d : Dash) (env : DashEnv) (ev : DashEvent) :
    ExplainedAll m api d env ev (dashStep m api d env ev) := by
  cases ev with
  | key key => exact explainedAll_handleKey m api key d
  | timeout => exact explainedAll_nil m api _
  | uart r =>
      cases r with
      | frame f =>
          cases f with
          | keyIdOnly payload hlen =>
              exact explainedAll_handleKeyIdOnly m api payload _
          | sstHs2 hs2 => exact explainedAll_handleSstHs2 m api hs2
          | data t nonce ciphertext tag =>
              exact explainedAll_handleData m api t nonce ciphertext tag
      | crcFail type =>
          simp only [dashStep, handleReport]
          split
          · exact explainedAll_nil m api _
          · exact explainedAll_nil m api _
      | _ => exact explainedAll_nil m api _

end LifiAuth
