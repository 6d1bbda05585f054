import LifiAuth.Dash.Handlers

/-!
# Replays and rejected frames

The replay window takes the nonce of every data frame that passes the CRC and is
not in the window yet, before anything else is known about the frame.  Two results
follow from the account of ring buffers: how long an accepted frame stays out, and
when a rejected frame leaves a trace in what is accepted later.
-/

namespace LifiAuth

open Support

variable (m : Mbedtls) (api : SstApi)

/-! ## The window over a run -/

@[simp] theorem startHandshake_rwin (env : DashEnv) (d : Dash) :
    (startHandshake api env d).1.rwin = d.rwin := by
  obtain ⟨nonce, state, h⟩ := startHandshake_eq api env d
  rw [h]

theorem handleNewKeyForced_rwin (env : DashEnv) (d : Dash) :
    (handleNewKeyForced env d).1.rwin = d.rwin := by
  simp only [handleNewKeyForced]
  split <;> rfl

theorem handleNewKey_rwin (env : DashEnv) (d : Dash) :
    (handleNewKey env d).rwin = d.rwin := by
  simp only [handleNewKey]
  split <;> rfl

theorem handleVerifyKey_rwin (env : DashEnv) (d : Dash) :
    (handleVerifyKey api env d).1.rwin = d.rwin := by
  simp only [handleVerifyKey]
  split
  · exact startHandshake_rwin api env d
  · rfl

@[simp] theorem handleMessage_rwin (env : DashEnv) (decrypted : List UInt8)
    (d : Dash) : (handleMessage api env decrypted d).1.rwin = d.rwin := by
  rcases handleMessage_cases api env decrypted d with
    hquiet | hforced | hnew | ⟨-, hack⟩ | hverify
  · rw [hquiet]
  · rw [hforced]
    exact handleNewKeyForced_rwin env d
  · rw [hnew]
    exact handleNewKey_rwin env d
  · rw [hack]
    rfl
  · rw [hverify]
    exact handleVerifyKey_rwin api env d

@[simp] theorem handleDecrypted_rwin (env : DashEnv) (t : DataType)
    (decrypted : List UInt8) (d : Dash) :
    (handleDecrypted api env t decrypted d).1.rwin = d.rwin := by
  cases t with
  | file => rfl
  | encrypted => exact handleMessage_rwin api env decrypted d

@[simp] theorem handleKeyIdOnly_rwin (env : DashEnv) (payload : List UInt8)
    (d : Dash) : (handleKeyIdOnly api env payload d).1.rwin = d.rwin := by
  simp only [handleKeyIdOnly, autoConnect]
  split
  · rfl
  · split
    · exact startHandshake_rwin api env _
    · rfl

@[simp] theorem handleSstHs2_rwin (env : DashEnv) (hs2 : Bytes 80) (d : Dash) :
    (handleSstHs2 api env hs2 d).1.rwin = d.rwin := by
  simp only [handleSstHs2]
  split <;> rfl

theorem handleForce_rwin (env : DashEnv) (remote : RemoteForce) (d : Dash) :
    (handleForce env remote d).1.rwin = d.rwin := by
  rcases handleForce_cases env remote d with ⟨keys, hforce⟩ | ⟨k, keys, hforce⟩
  · rw [hforce]
  · rw [hforce]
    rfl

@[simp] theorem handleKey_rwin (env : DashEnv) (key : KeyPress) (d : Dash) :
    (handleKey api env key d).1.rwin = d.rwin := by
  cases key with
  | n =>
      simp only [handleKey, handleRotate]
      split
      · split
        · rfl
        · rfl
      · rfl
  | one =>
      simp only [handleKey]
      split <;> rfl
  | f remote => exact handleForce_rwin env remote d
  | two =>
      simp only [handleKey]
      split
      · exact startHandshake_rwin api env d
      · rfl
  | c => rfl
  | r => rfl

@[simp] theorem handleTimeout_rwin (d : Dash) :
    (handleTimeout d).rwin = d.rwin := by
  simp only [handleTimeout]
  split <;> rfl

theorem decryptData_rwin (env : DashEnv) (t : DataType) (nonce : Bytes 12)
    (ciphertext : Ctext) (tag : Bytes 16) (d : Dash) :
    (decryptData m api env t nonce ciphertext tag d).1.rwin = d.rwin := by
  simp only [decryptData]
  split
  · split
    · rfl
    · exact handleDecrypted_rwin api env t _ d
  · rfl

theorem handleData_rwin (env : DashEnv) (t : DataType) (nonce : Bytes 12)
    (ciphertext : Ctext) (tag : Bytes 16) (d : Dash) :
    (handleData m api env t nonce ciphertext tag d).1.rwin =
      if d.rwin.seen nonce then d.rwin else d.rwin.add nonce := by
  by_cases hseen : d.rwin.seen nonce = true
  · rw [handleData, if_pos hseen, if_pos hseen]
    rfl
  · rw [handleData, if_neg hseen, if_neg hseen, decryptData_rwin]
    rfl

/-- The nonce an event puts into the replay window. -/
def recordedNonces (d : Dash) : DashEvent → List (Bytes 12)
  | .uart (.frame (.data _ nonce _ _)) =>
      if d.rwin.seen nonce then [] else [nonce]
  | _ => []

theorem dashStep_rwin (d : Dash) (env : DashEnv) (e : DashEvent) :
    (dashStep m api d env e).1.rwin = d.rwin.adds (recordedNonces d e) := by
  cases e with
  | key key => exact handleKey_rwin api env key d
  | timeout => exact handleTimeout_rwin d
  | uart r =>
      cases r with
      | frame f =>
          cases f with
          | keyIdOnly payload hlen => exact handleKeyIdOnly_rwin api env payload _
          | sstHs2 hs2 => exact handleSstHs2_rwin api env hs2 _
          | data t nonce ciphertext tag =>
              have hrwin :=
                handleData_rwin m api env t nonce ciphertext tag d.counted
              by_cases hseen : d.rwin.seen nonce = true
              · rw [recordedNonces, if_pos hseen]
                exact hrwin.trans (if_pos hseen)
              · rw [recordedNonces, if_neg hseen]
                exact hrwin.trans (if_neg hseen)
      | crcFail type =>
          simp only [dashStep, handleReport]
          split <;> rfl
      | _ => rfl

/-- The nonces recorded over a run. -/
def recordedRun (d : Dash) : List (DashEnv × DashEvent) → List (Bytes 12)
  | [] => []
  | e :: es => recordedNonces d e.2 ++ recordedRun (dashStep m api d e.1 e.2).1 es

theorem run_rwin (d : Dash) (es : List (DashEnv × DashEvent)) :
    ((dashReceiver m api).run d es).rwin =
      d.rwin.adds (recordedRun m api d es) := by
  induction es generalizing d with
  | nil => rfl
  | cons e es ih =>
      have hstep := dashStep_rwin m api d e.1 e.2
      rw [Machine.run_cons, ih]
      simp only [dashReceiver, hstep, recordedRun, ReplayWindow.adds,
        List.foldl_append]

/-! ## Accepted frames -/

/-- The frames an event makes the receiver accept. -/
def acceptedNow (d : Dash) (env : DashEnv) (e : DashEvent) : List Frame :=
  acceptedFrames (dashStep m api d env e).2

theorem acceptedFrames_startHandshake (env : DashEnv) (d : Dash) :
    acceptedFrames (startHandshake api env d).2 = [] := by
  simp only [startHandshake]
  repeat' split
  all_goals rfl

theorem acceptedFrames_handleMessage (env : DashEnv) (decrypted : List UInt8)
    (d : Dash) : acceptedFrames (handleMessage api env decrypted d).2 = [] := by
  rcases handleMessage_cases api env decrypted d with
    hquiet | hforced | hnew | ⟨-, hack⟩ | hverify
  · rw [hquiet]
    rfl
  · rw [hforced, handleNewKeyForced]
    split
    · rfl
    · rfl
    · rfl
  · rw [hnew]
    rfl
  · rw [hack]
    rfl
  · rw [hverify, handleVerifyKey]
    split
    · exact acceptedFrames_startHandshake api env d
    · rfl

theorem acceptedFrames_handleDecrypted (env : DashEnv) (t : DataType)
    (decrypted : List UInt8) (d : Dash) :
    acceptedFrames (handleDecrypted api env t decrypted d).2 = [] := by
  cases t with
  | file => rfl
  | encrypted => exact acceptedFrames_handleMessage api env decrypted d

/-- Exactly when a data frame is accepted. -/
theorem acceptedNow_data (d : Dash) (env : DashEnv) (t : DataType)
    (nonce : Bytes 12) (ciphertext : Ctext) (tag : Bytes 16) :
    acceptedNow m api d env (.uart (.frame (.data t nonce ciphertext tag))) =
      if d.rwin.seen nonce = false ∧ d.keyValid = true ∧
          (m.sstDecryptGcm d.sKey.aesKey nonce (Bytes.ofList ciphertext.1) tag).isSome
      then [.data t nonce ciphertext tag] else [] := by
  have hstep : acceptedNow m api d env
      (.uart (.frame (.data t nonce ciphertext tag))) =
        acceptedFrames
          (handleData m api env t nonce ciphertext tag d.counted).2 := rfl
  have hcounted : d.counted.rwin.seen nonce = d.rwin.seen nonce := rfl
  rw [hstep, handleData, hcounted]
  by_cases hseen : d.rwin.seen nonce = true
  · rw [if_pos hseen, if_neg (by simp [hseen])]
    rfl
  · rw [if_neg hseen]
    have hvalid : (d.counted.record nonce).keyValid = d.keyValid := rfl
    have hkey : (d.counted.record nonce).sKey = d.sKey := rfl
    simp only [decryptData, hvalid, hkey]
    by_cases hkv : d.keyValid = true
    · cases hdec : m.sstDecryptGcm d.sKey.aesKey nonce (Bytes.ofList ciphertext.1)
        tag with
      | none => simp [hkv, acceptedFrames]
      | some decrypted =>
          have hrest := acceptedFrames_handleDecrypted api env t
            decrypted.toList (d.counted.record nonce)
          simp only [acceptedFrames] at hrest
          simp [hkv, hseen, acceptedFrames, hrest]
    · simp [hkv, acceptedFrames]

theorem acceptedNow_keyIdOnly (d : Dash) (env : DashEnv)
    (payload : List UInt8) (hlen : payload.length ≤ 64) :
    acceptedNow m api d env (.uart (.frame (.keyIdOnly payload hlen))) = [] := by
  have hout : acceptedFrames (handleKeyIdOnly api env payload d.counted).2 =
      [] := by
    simp only [handleKeyIdOnly, autoConnect]
    split
    · rfl
    · split
      · exact acceptedFrames_startHandshake api env _
      · rfl
  exact hout

theorem acceptedNow_sstHs2 (d : Dash) (env : DashEnv) (hs2 : Bytes 80) :
    acceptedNow m api d env (.uart (.frame (.sstHs2 hs2))) = [] := by
  have hout : acceptedFrames (handleSstHs2 api env hs2 d.counted).2 = [] := by
    simp only [handleSstHs2]
    split
    · rfl
    · split
      · rfl
      · split
        · rfl
        · rfl
  exact hout

/-! ## How long an accepted frame stays out -/

/-- A frame that was accepted is not accepted again as long as fewer than 64
nonces have been recorded since. -/
theorem accepted_frame_not_accepted_again (d : Dash) (env : DashEnv) (f : Frame)
    (hacc : f ∈ acceptedNow m api d env (.uart (.frame f)))
    (es : List (DashEnv × DashEvent))
    (hrec : (recordedRun m api
      (dashStep m api d env (.uart (.frame f))).1 es).length < 64)
    (env' : DashEnv) :
    f ∉ acceptedNow m api ((dashReceiver m api).run
      (dashStep m api d env (.uart (.frame f))).1 es) env'
      (.uart (.frame f)) := by
  cases f with
  | keyIdOnly payload hlen => simp [acceptedNow_keyIdOnly] at hacc
  | sstHs2 hs2 => simp [acceptedNow_sstHs2] at hacc
  | data t nonce ciphertext tag =>
      rw [acceptedNow_data] at hacc
      have hfresh : d.rwin.seen nonce = false := by
        by_contra hseen
        simp [hseen] at hacc
      have hstep : (dashStep m api d env
          (.uart (.frame (.data t nonce ciphertext tag)))).1.rwin =
            d.rwin.add nonce := by
        rw [dashStep_rwin]
        simp [recordedNonces, hfresh, ReplayWindow.adds]
      have hseen := d.rwin.seen_adds_of_recent nonce _ hrec
      rw [← hstep, ← run_rwin] at hseen
      rw [acceptedNow_data]
      simp [hseen]

/-- A nonce that is `n` in its last two bytes. -/
def numberedNonce (n : ℕ) : Bytes 12 :=
  ⟨List.replicate 10 0 ++ (be16Bytes n.toUInt16).toList, rfl⟩

/-- An empty message under the all-zero key and the `n`-th nonce. -/
def numberedFrame (n : ℕ) : Frame :=
  .data .encrypted (numberedNonce n) ⟨[], by decide⟩ (Bytes.zero 16)

/-- The receiver with the all-zero key, once it has taken the first of these frames. -/
def afterFirstFrame : Dash :=
  (dashStep Mbedtls.transparent SstApi.failing
    (Dash.start true (some [SessionKey.zero]) (List.Vector.replicate 64 (Bytes.zero 12)))
    DashEnv.bare (.uart (.frame (numberedFrame 1)))).1

/-- The `n` frames after the first one. -/
def laterFrames (n : ℕ) : List (DashEnv × DashEvent) :=
  (List.range n).map fun k => (DashEnv.bare, .uart (.frame (numberedFrame (k + 2))))

/-- With 63 other messages in between it is still known. -/
theorem accepted_frame_not_accepted_again_sixtyThree :
    numberedFrame 1 ∉ acceptedNow Mbedtls.transparent SstApi.failing
      ((dashReceiver Mbedtls.transparent SstApi.failing).run afterFirstFrame
        (laterFrames 63)) DashEnv.bare (.uart (.frame (numberedFrame 1))) :=
  accepted_frame_not_accepted_again Mbedtls.transparent SstApi.failing _ DashEnv.bare
    (numberedFrame 1) (by decide +kernel) (laterFrames 63) (by decide +kernel) DashEnv.bare

/-- After 64 further messages the first one is accepted a second time. -/
theorem accepted_again_after_64_messages :
    let d := Dash.start true (some [SessionKey.zero])
      (List.Vector.replicate 64 (Bytes.zero 12))
    let step (d : Dash) (f : Frame) := dashStep Mbedtls.transparent
      SstApi.failing d DashEnv.bare (.uart (.frame f))
    let later := (List.range 64).map fun n =>
      (DashEnv.bare, DashEvent.uart (.frame (numberedFrame (n + 2))))
    numberedFrame 1 ∈ acceptedFrames (step d (numberedFrame 1)).2 ∧
      numberedFrame 1 ∈ acceptedFrames (step
        ((dashReceiver Mbedtls.transparent SstApi.failing).run
          (step d (numberedFrame 1)).1 later) (numberedFrame 1)).2 := by
  decide +kernel

/-! ## What a rejected frame changes -/

/-- The same state with other counters and another report. -/
def Dash.withLog (d : Dash) (s : SessionStats) (r : Reporter) : Dash :=
  { d with stats := s, rep := r }

/-- The counters and the reporter have no influence on what a handler does with
the rest of the state, nor on what it emits. -/
def LogBlind (h : Dash → Dash × List DashOut) : Prop :=
  ∀ d s r, ∃ s' r', h (d.withLog s r) = ((h d).1.withLog s' r', (h d).2)

theorem startHandshake_withLog (env : DashEnv) (d : Dash) (s : SessionStats)
    (r : Reporter) : startHandshake api env (d.withLog s r) =
      ((startHandshake api env d).1.withLog s r,
        (startHandshake api env d).2) := by
  simp only [startHandshake, Dash.withLog]
  repeat' split
  all_goals rfl

theorem logBlind_handleKeyIdOnly (env : DashEnv) (payload : List UInt8) :
    LogBlind (handleKeyIdOnly api env payload) := by
  intro d s r
  simp only [handleKeyIdOnly]
  split
  · exact ⟨s, r, rfl⟩
  · next found _ =>
      refine ⟨s, r.setKey found, ?_⟩
      have hadopt : ((d.withLog s r).noteId env payload).adopt found =
          ((d.noteId env payload).adopt found).withLog s (r.setKey found) := rfl
      rw [hadopt]
      simp only [autoConnect]
      split
      · rw [if_pos (by assumption), startHandshake_withLog]
      · rw [if_neg (by assumption)]

theorem logBlind_handleSstHs2 (env : DashEnv) (hs2 : Bytes 80) :
    LogBlind (handleSstHs2 api env hs2) := by
  intro d s r
  refine ⟨s, r, ?_⟩
  by_cases hstate : d.state = .waitingForSstHs2
  · simp only [handleSstHs2, Dash.withLog, hstate]
    rfl
  · simp only [handleSstHs2, Dash.withLog, ne_eq, hstate, not_false_eq_true,
      if_true]

theorem logBlind_handleNewKeyForced (env : DashEnv) :
    LogBlind (handleNewKeyForced env) := by
  intro d s r
  simp only [handleNewKeyForced]
  split
  · exact ⟨s, r, rfl⟩
  · exact ⟨s, r, rfl⟩
  · exact ⟨s.keyConsumed, r, rfl⟩

theorem logBlind_handleVerifyKey (env : DashEnv) :
    LogBlind (handleVerifyKey api env) := by
  intro d s r
  refine ⟨s, r, ?_⟩
  simp only [handleVerifyKey]
  split
  · rw [if_pos (by assumption), startHandshake_withLog]
  · rw [if_neg (by assumption)]

theorem logBlind_handleMessage (env : DashEnv) (decrypted : List UInt8) :
    LogBlind (handleMessage api env decrypted) := by
  intro d s r
  have hstate : (d.withLog s r).state = d.state := rfl
  simp only [handleMessage, hstate]
  split
  · exact ⟨s, r, rfl⟩
  · split
    · exact logBlind_handleNewKeyForced env d s r
    · split
      · have htime : (d.withLog s r).lastKeyReqTime = d.lastKeyReqTime := rfl
        refine ⟨s, r, ?_⟩
        simp only [handleNewKey, htime]
        split <;> rfl
      · split
        · exact ⟨s, r, rfl⟩
        · split
          · exact logBlind_handleVerifyKey api env d s r
          · exact ⟨s, r, rfl⟩

theorem logBlind_handleDecrypted (env : DashEnv) (t : DataType)
    (decrypted : List UInt8) :
    LogBlind (handleDecrypted api env t decrypted) := by
  cases t with
  | file => exact fun _ s r => ⟨s, r, rfl⟩
  | encrypted => exact logBlind_handleMessage api env decrypted

theorem logBlind_handleData (env : DashEnv) (t : DataType) (nonce : Bytes 12)
    (ciphertext : Ctext) (tag : Bytes 16) :
    LogBlind (handleData m api env t nonce ciphertext tag) := by
  intro d s r
  have hrwin : (d.withLog s r).rwin = d.rwin := rfl
  simp only [handleData, hrwin]
  split
  · exact ⟨_, r, rfl⟩
  · have hrecord : (d.withLog s r).record nonce =
        (d.record nonce).withLog s r := rfl
    rw [hrecord]
    have hvalid : ((d.record nonce).withLog s r).keyValid =
        (d.record nonce).keyValid := rfl
    have hkey : ((d.record nonce).withLog s r).sKey =
        (d.record nonce).sKey := rfl
    simp only [decryptData, hvalid, hkey]
    split
    · split
      · exact ⟨_, r, rfl⟩
      · next decrypted _ =>
          obtain ⟨s', r', hrest⟩ := logBlind_handleDecrypted api env t
            decrypted.toList (d.record nonce) s r
          rw [hrest]
          exact ⟨_, _, rfl⟩
    · exact ⟨s, r, rfl⟩

theorem logBlind_handleFrame (env : DashEnv) (f : Frame) :
    LogBlind (handleFrame m api env f) := by
  cases f with
  | keyIdOnly payload hlen => exact logBlind_handleKeyIdOnly api env payload
  | sstHs2 hs2 => exact logBlind_handleSstHs2 api env hs2
  | data t nonce ciphertext tag =>
      exact logBlind_handleData m api env t nonce ciphertext tag

theorem logBlind_handleForce (env : DashEnv) (remote : RemoteForce) :
    LogBlind (handleForce env remote) := by
  intro d s r
  simp only [handleForce]
  split
  · exact ⟨_, _, rfl⟩
  · split
    · split
      · exact ⟨s, r, rfl⟩
      · exact ⟨_, _, rfl⟩
    · split
      · exact ⟨s, r, rfl⟩
      · exact ⟨s, r, rfl⟩
      · exact ⟨_, _, rfl⟩

theorem logBlind_handleKey (env : DashEnv) (key : KeyPress) :
    LogBlind (handleKey api env key) := by
  intro d s r
  cases key with
  | n =>
      refine ⟨s, r, ?_⟩
      simp only [handleKey, handleRotate, Dash.withLog]
      split
      · split <;> rfl
      · rfl
  | one =>
      have hvalid : (d.withLog s r).keyValid = d.keyValid := rfl
      refine ⟨s, r, ?_⟩
      simp only [handleKey, hvalid]
      split <;> rfl
  | f remote => exact logBlind_handleForce env remote d s r
  | two =>
      refine ⟨s, r, ?_⟩
      simp only [handleKey]
      split
      · rw [if_pos (by assumption), startHandshake_withLog]
      · rw [if_neg (by assumption)]
  | c => exact ⟨_, r, rfl⟩
  | r => exact ⟨s, r, rfl⟩

theorem logBlind_dashStep (env : DashEnv) (e : DashEvent) :
    LogBlind (fun d => dashStep m api d env e) := by
  intro d s r
  cases e with
  | key key => exact logBlind_handleKey api env key d s r
  | timeout =>
      simp only [dashStep, handleTimeout, Dash.withLog]
      split
      · exact ⟨s, r, rfl⟩
      · exact ⟨s, r, rfl⟩
      · exact ⟨s, r, rfl⟩
      · exact ⟨_, r, rfl⟩
  | uart report =>
      cases report with
      | frame f => exact logBlind_handleFrame m api env f d.counted _ r
      | crcFail type =>
          simp only [dashStep, handleReport]
          split
          · exact ⟨_, r, rfl⟩
          · exact ⟨_, r, rfl⟩
      | _ => exact ⟨_, r, rfl⟩

/-- States that differ only in counters and reports emit the same from then
on. -/
theorem trace_withLog (d : Dash) (s : SessionStats) (r : Reporter)
    (es : List (DashEnv × DashEvent)) :
    (dashReceiver m api).trace (d.withLog s r) es =
      (dashReceiver m api).trace d es := by
  symm
  apply Machine.trace_eq_of_lockstep
    (R := fun d₁ d₂ => ∃ s r, d₂ = d₁.withLog s r)
  · rintro d₁ d₂ e ⟨s, r, rfl⟩
    obtain ⟨s', r', hstep⟩ := logBlind_dashStep m api e.1 e.2 d₁ s r
    simp only [dashReceiver, hstep, true_and]
    exact ⟨s', r', rfl⟩
  · exact ⟨s, r, rfl⟩

/-- The frames of `fs` that are accepted, in order. -/
def acceptedRun (d : Dash) (fs : List (DashEnv × Frame)) : List Frame :=
  acceptedFrames ((dashReceiver m api).trace d
    (fs.map fun e => (e.1, .uart (.frame e.2))))

theorem acceptedRun_nil (d : Dash) : acceptedRun m api d [] = [] := rfl

theorem acceptedRun_cons (d : Dash) (e : DashEnv × Frame)
    (fs : List (DashEnv × Frame)) :
    acceptedRun m api d (e :: fs) =
      acceptedNow m api d e.1 (.uart (.frame e.2)) ++
        acceptedRun m api (dashStep m api d e.1 (.uart (.frame e.2))).1 fs := by
  simp [acceptedRun, acceptedNow, acceptedFrames, dashReceiver]

/-- A data frame that fails the authentication, or comes while no key is valid. -/
def RejectedData (d : Dash) (nonce : Bytes 12) (ciphertext : Ctext)
    (tag : Bytes 16) : Prop :=
  d.keyValid = false ∨
    m.sstDecryptGcm d.sKey.aesKey nonce (Bytes.ofList ciphertext.1) tag = none

/-- A rejected frame whose nonce was in the window only counts. -/
theorem dashStep_data_of_seen (d : Dash) (env : DashEnv) (t : DataType)
    (nonce : Bytes 12) (ciphertext : Ctext) (tag : Bytes 16)
    (hseen : d.rwin.seen nonce = true) :
    ∃ s, (dashStep m api d env
      (.uart (.frame (.data t nonce ciphertext tag)))).1 = d.withLog s d.rep := by
  have hcounted : d.counted.rwin.seen nonce = true := hseen
  refine ⟨d.counted.replayBlocked.stats, ?_⟩
  simp only [dashStep, handleReport, handleFrame, handleData]
  rw [if_pos hcounted]
  rfl

/-- After a key id frame the receiver holds the key it was answered with. -/
theorem dashStep_keyIdOnly (d : Dash) (env : DashEnv) (k : SessionKey)
    (payload : List UInt8) (hlen : payload.length ≤ 64)
    (hkey : env.keyById (env.peerId payload) = some k) :
    let d' := (dashStep m api d env
      (.uart (.frame (.keyIdOnly payload hlen)))).1
    d'.sKey = k ∧ d'.keyValid = true ∧ d'.rwin = d.rwin := by
  have hrwin := handleKeyIdOnly_rwin api env payload d.counted
  simp only [dashStep, handleReport, handleFrame]
  refine ⟨?_, ?_, hrwin⟩
  all_goals
    simp only [handleKeyIdOnly, hkey, autoConnect]
    split
    · obtain ⟨nonce, state, hstart⟩ := startHandshake_eq api env
        ((d.counted.noteId env payload).adopt k)
      rw [hstart]
      rfl
    · rfl

/-- A rejected frame leaves what is accepted later as it would have been exactly
when its nonce was in the replay window already. -/
theorem rejected_frame_leaves_no_trace_iff (hm : m.Lawful) (ht : m.Total)
    (d : Dash) (env : DashEnv) (t : DataType) (nonce : Bytes 12)
    (ciphertext : Ctext) (tag : Bytes 16)
    (_hrej : RejectedData m d nonce ciphertext tag) :
    (∀ fs, acceptedRun m api (dashStep m api d env
        (.uart (.frame (.data t nonce ciphertext tag)))).1 fs =
      acceptedRun m api d fs) ↔
      d.rwin.seen nonce = true := by
  constructor
  · intro hsame
    by_contra hseen
    -- a key is adopted, then an authentic frame under it comes with that nonce
    let k := SessionKey.zero
    let env' : DashEnv := { DashEnv.bare with keyById := fun _ => some k }
    obtain ⟨⟨output, g⟩, hcrypt⟩ := Option.isSome_iff_exists.mp
      (ht.gcm_encrypt k.aesKey nonce (Bytes.zero 0))
    obtain ⟨decrypted, hdec, -⟩ := hm.gcm_decrypt_toList hcrypt
    let f : Frame := .data .encrypted nonce ⟨output.toList, by simp⟩ g
    have hlater (d' : Dash) : acceptedRun m api d'
        [(env', .keyIdOnly [] (by decide)), (DashEnv.bare, f)] =
          if d'.rwin.seen nonce = false then [f] else [] := by
      obtain ⟨hk, hvalid, hrwin⟩ :=
        dashStep_keyIdOnly m api d' env' k [] (by decide) rfl
      rw [acceptedRun_cons, acceptedNow_keyIdOnly, List.nil_append,
        acceptedRun_cons, acceptedRun_nil, List.append_nil]
      refine (acceptedNow_data m api _ DashEnv.bare .encrypted nonce _ g).trans ?_
      simp only [hk, hvalid, hrwin, hdec, Option.isSome_some, and_true]
      rfl
    have hafter : (dashStep m api d env
        (.uart (.frame (.data t nonce ciphertext tag)))).1.rwin.seen nonce =
          true := by
      rw [dashStep_rwin, recordedNonces, if_neg hseen]
      exact d.rwin.seen_adds_of_recent nonce [] (by decide)
    have hdiff := hsame [(env', .keyIdOnly [] (by decide)), (DashEnv.bare, f)]
    rw [hlater, hlater] at hdiff
    simp [hafter, hseen] at hdiff
  · intro hseen fs
    obtain ⟨s, hstep⟩ := dashStep_data_of_seen m api d env t nonce ciphertext
      tag hseen
    rw [acceptedRun, hstep, trace_withLog]
    rfl

/-- A frame with a wrong tag, under the nonce of the authentic frame after it. -/
def forgedFrame : Frame :=
  .data .encrypted (numberedNonce 1) ⟨[], by decide⟩
    (List.Vector.replicate 16 1)

/-- A frame with a wrong tag keeps the authentic frame with its nonce out. -/
theorem forged_frame_suppresses_authentic_frame :
    let d := Dash.start true (some [SessionKey.zero])
      (List.Vector.replicate 64 (Bytes.zero 12))
    let after := (dashStep Mbedtls.transparent SstApi.failing d DashEnv.bare
      (.uart (.frame forgedFrame))).1
    RejectedData Mbedtls.transparent d (numberedNonce 1) ⟨[], by decide⟩
        (List.Vector.replicate 16 1) ∧
      acceptedRun Mbedtls.transparent SstApi.failing d
        [(DashEnv.bare, numberedFrame 1)] = [numberedFrame 1] ∧
      acceptedRun Mbedtls.transparent SstApi.failing after
        [(DashEnv.bare, numberedFrame 1)] = [] := by
  refine ⟨Or.inr ?_, ?_, ?_⟩
  · rfl
  · decide +kernel
  · decide +kernel

/-- The forged frame whose nonce is fresh does leave a trace. -/
theorem rejected_frame_leaves_no_trace_iff_forged :
    ¬ ∀ fs, acceptedRun Mbedtls.transparent SstApi.failing
        (dashStep Mbedtls.transparent SstApi.failing
          (Dash.start true (some [SessionKey.zero])
            (List.Vector.replicate 64 (Bytes.zero 12))) DashEnv.bare
          (.uart (.frame forgedFrame))).1 fs =
      acceptedRun Mbedtls.transparent SstApi.failing
        (Dash.start true (some [SessionKey.zero])
          (List.Vector.replicate 64 (Bytes.zero 12))) fs := by
  intro hsame
  have hseen := (rejected_frame_leaves_no_trace_iff Mbedtls.transparent
    SstApi.failing Mbedtls.lawful_transparent Mbedtls.total_transparent
    (Dash.start true (some [SessionKey.zero])
      (List.Vector.replicate 64 (Bytes.zero 12))) DashEnv.bare .encrypted
    (numberedNonce 1) ⟨[], by decide⟩ (List.Vector.replicate 16 1)
    (Or.inr rfl)).mp hsame
  exact absurd hseen (by decide +kernel)

end LifiAuth
