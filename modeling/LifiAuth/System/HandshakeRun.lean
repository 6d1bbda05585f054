import LifiAuth.Pico.Keyless
import LifiAuth.System.Wired

/-!
# The handshake comes to its end

Sender and receiver wired to each other, with the same key on both sides.  However their
looks at the lines are interleaved, the handshake that a key press or a `send_id` sets off
ends with both of them satisfied, once each side has had enough looks in its turn: five
for every frame, four for the preamble and one for the rest.
-/

namespace LifiAuth

open Support

/-! ## One message after the other -/

/-- The handshake functions answer where they are documented to: a first message for every
key, a third one for a second message that verifies. -/
structure SstApi.Answers (m : Mbedtls) (api : SstApi) : Prop where
  parse : ∀ key random ctext mac,
    m.sstAes128CbcEncryptPkcs7 key.aesKey random.iv (hs1Plain random.nonce) = some ctext →
      m.sstHmacSha256Ex key.macKey (random.iv.append ctext).toList = some mac →
        api.parseHandshake1 key random =
          (some (hs1Message key.keyId random.iv ctext mac).toList, random.nonce)
  check : ∀ hs2 nonce key random plain ctext mac,
    m.sstHmacSha256Ex key.macKey (blobBody hs2).toList = some (blobMac hs2) →
      m.sstAes128CbcDecrypt key.aesKey (blobIv hs2) (blobCtext hs2) = some plain →
        plainIndicator plain = 2 → plainSecond plain = nonce →
          m.sstAes128CbcEncryptPkcs7 key.aesKey random.iv
              (hsPlain 3 nonce (plainFirst plain)) = some ctext →
            m.sstHmacSha256Ex key.macKey (random.iv.append ctext).toList = some mac →
              api.checkHandshake2SendHandshake3 hs2 nonce key random =
                some (hsBlob random.iv ctext mac).toList

theorem SstApi.answers_reference (m : Mbedtls) : (SstApi.reference m).Answers m where
  parse := by
    intro key random ctext mac hctext hmac
    simp only [SstApi.reference, hctext, Option.bind_eq_bind, Option.bind_some, hmac]
    rfl
  check := by
    intro hs2 nonce key random plain ctext mac hverified hplain hindicator hnonce hctext hmac
    simp only [SstApi.reference, hverified, if_true, hplain, Option.bind_eq_bind,
      Option.bind_some, hindicator, hnonce, and_self, hctext, hmac]
    rfl

theorem toList_padPkcs7_hs1Plain (nonce : Bytes 8) :
    (Mbedtls.padPkcs7 (hs1Plain nonce)).toList =
      [1] ++ (nonce.toList ++ List.replicate 7 7) := by
  simp only [Mbedtls.padPkcs7, hs1Plain, Bytes.toList_append]
  rfl

theorem hs1Pad_pad (nonce : Bytes 8) :
    hs1Pad (Mbedtls.padPkcs7 (hs1Plain nonce)) = 7 := by
  have hget (b : Bytes 16)
      (hb : b.toList = [1] ++ (nonce.toList ++ List.replicate 7 7)) : b.get 15 = 7 := by
    rw [List.Vector.get_eq_get_toList]
    simp [hb]
  exact hget _ (toList_padPkcs7_hs1Plain nonce)

theorem hs3Pad_pad (indicator : UInt8) (first second : Bytes 8) :
    hs3Pad (Mbedtls.padPkcs7 (hsPlain indicator first second)) = 15 := by
  have hget (b : Bytes 32) (hb : b.toList =
      [indicator] ++ (first.toList ++ (second.toList ++ List.replicate 15 15))) :
      b.get 31 = 15 := by
    rw [List.Vector.get_eq_get_toList]
    simp [hb]
  exact hget _ (toList_padPkcs7_hsPlain indicator first second)

/-- The sender holds the key. -/
structure Pico.Holds (p : Pico) (k : SessionKey) : Prop where
  keyId : p.sessionKeyId = k.keyId
  key : p.sessionKey = k.aesKey
  macKey : p.sessionMacKey = k.macKey

section

variable {m : Mbedtls} {api : SstApi} {k : SessionKey} {env : DashEnv} {d : Dash} {p : Pico}

/-- What every sender that holds the key takes for a first message with this nonce. -/
def OpensHs1 (m : Mbedtls) (k : SessionKey) (entityNonce : Bytes 8) (hs1 : Bytes 72) : Prop :=
  ∀ p : Pico, p.Holds k → openHs1 m hs1 p = some entityNonce

/-- What every receiver that waits with the key and the nonce answers with a third message
that a sender with the key takes. -/
def OpensHs2 (m : Mbedtls) (api : SstApi) (k : SessionKey) (entityNonce picoNonce : Bytes 8)
    (hs2 : Bytes 80) : Prop :=
  ∀ random, ∃ hs3 : Bytes 80,
    api.checkHandshake2SendHandshake3 hs2 entityNonce k random = some hs3.toList ∧
      ∀ p : Pico, p.Holds k → p.savedPicoNonce = picoNonce →
        handleHs3 m hs3 p = ({ p with savedPicoNonce := Bytes.zero 8, led25 := true },
          [.mutualAuthOk picoNonce hs3])

theorem exists_encrypt (htotal : m.Total) (key : Bytes 16) (iv : Bytes 16) {n : ℕ}
    (input : Bytes n) : ∃ ctext, m.sstAes128CbcEncryptPkcs7 key iv input = some ctext :=
  Option.isSome_iff_exists.mp (htotal.cbc_encrypt key iv _)

theorem exists_hmac (htotal : m.Total) (key : Bytes 32) (input : List UInt8) :
    ∃ mac, m.sstHmacSha256Ex key input = some mac :=
  Option.isSome_iff_exists.mp (htotal.hmac key input)

/-- A handshake that is started puts a first message on the line and waits. -/
theorem startHandshake_answers (hm : m.Lawful) (htotal : m.Total) (hapi : api.Answers m)
    (hwrites : env.Writes) (d : Dash) :
    ∃ hs1 : Bytes 72, startHandshake api env d =
        ({ d with sstEntityNonce := env.hs.nonce, state := .waitingForSstHs2 },
          [.hs1Made d.sKey env.hs.nonce hs1.toList, .tx (PicoFrame.hs1 hs1).bytes]) ∧
      OpensHs1 m d.sKey env.hs.nonce hs1 := by
  obtain ⟨ctext, hctext⟩ :=
    exists_encrypt htotal d.sKey.aesKey env.hs.iv (hs1Plain env.hs.nonce)
  obtain ⟨mac, hmac⟩ := exists_hmac htotal d.sKey.macKey (env.hs.iv.append ctext).toList
  have hparse := hapi.parse d.sKey env.hs ctext mac hctext hmac
  refine ⟨hs1Message d.sKey.keyId env.hs.iv ctext mac, ?_, ?_⟩
  · have hlen : (hs1Message d.sKey.keyId env.hs.iv ctext mac).toList.length =
        sstHs1PayloadSize := List.Vector.toList_length _
    simp only [startHandshake, hparse]
    rw [if_neg (not_not_intro hlen), writeChain_of_writes hwrites, if_pos rfl, hlen]
    simp [PicoFrame.bytes]
  · intro p hp
    have hplain : m.sstAes128CbcDecrypt d.sKey.aesKey env.hs.iv ctext =
        some (Mbedtls.padPkcs7 (hs1Plain env.hs.nonce)) := hm.cbc_decrypt _ _ _ _ hctext
    have hpad : ¬ (hs1Pad (Mbedtls.padPkcs7 (hs1Plain env.hs.nonce)) < 1 ∨
        hs1Pad (Mbedtls.padPkcs7 (hs1Plain env.hs.nonce)) > 16) := by
      rw [hs1Pad_pad]
      decide
    simp only [openHs1, hs1Body, hs1KeyId_hs1Message, hs1Iv_hs1Message,
      hs1Ctext_hs1Message, hs1Mac_hs1Message, hp.keyId, hp.macKey, hp.key, hmac]
    rw [if_neg (not_not_intro rfl), if_neg (not_not_intro rfl), hplain]
    exact (if_neg hpad).trans (congrArg some (hs1EntityNonce_pad _))

/-- A third message with the nonce that the sender remembers is taken. -/
theorem handleHs3_of_passes {hs3 : Bytes 80}
    (h : Hs3Passes m p.sessionKey p.sessionMacKey p.savedPicoNonce hs3) :
    handleHs3 m hs3 p = ({ p with savedPicoNonce := Bytes.zero 8, led25 := true },
      [.mutualAuthOk p.savedPicoNonce hs3]) := by
  obtain ⟨plain, hopen, hok⟩ := (hs3_accepted_iff m hs3 p).mpr h
  simp only [handleHs3, hopen, hok, if_true]

/-- The sender answers a first message that opens with a second one that opens. -/
theorem handleHs1_answers (hm : m.Lawful) (htotal : m.Total) (hapi : api.Answers m)
    (hp : p.Holds k) {entityNonce : Bytes 8} {hs1 : Bytes 72}
    (hs1Opens : OpensHs1 m k entityNonce hs1) (picoEnv : PicoEnv) :
    ∃ hs2 : Bytes 80, handleHs1 m picoEnv hs1 p =
        ({ p with savedPicoNonce := picoEnv.hs2.picoNonce },
          [.hs2Sent k.macKey entityNonce picoEnv.hs2.picoNonce hs2]) ∧
      OpensHs2 m api k entityNonce picoEnv.hs2.picoNonce hs2 := by
  obtain ⟨ctext, hctext⟩ := exists_encrypt htotal k.aesKey picoEnv.hs2.iv
    (hsPlain 2 picoEnv.hs2.picoNonce entityNonce)
  obtain ⟨mac, hmac⟩ := exists_hmac htotal k.macKey (picoEnv.hs2.iv.append ctext).toList
  refine ⟨hsBlob picoEnv.hs2.iv ctext mac, ?_, ?_⟩
  · simp only [handleHs1, hs1Opens p hp, buildHs2, hp.key, hp.macKey, hctext, hmac]
  · intro random
    have hplain : m.sstAes128CbcDecrypt k.aesKey picoEnv.hs2.iv ctext =
        some (Mbedtls.padPkcs7 (hsPlain 2 picoEnv.hs2.picoNonce entityNonce)) :=
      hm.cbc_decrypt _ _ _ _ hctext
    obtain ⟨ctext3, hctext3⟩ := exists_encrypt htotal k.aesKey random.iv
      (hsPlain 3 entityNonce picoEnv.hs2.picoNonce)
    obtain ⟨mac3, hmac3⟩ := exists_hmac htotal k.macKey (random.iv.append ctext3).toList
    refine ⟨hsBlob random.iv ctext3 mac3, ?_, ?_⟩
    · refine hapi.check _ entityNonce k random
        (Mbedtls.padPkcs7 (hsPlain 2 picoEnv.hs2.picoNonce entityNonce)) ctext3 mac3 ?_ ?_ ?_
          ?_ ?_ hmac3
      · rwa [blobBody, blobIv_hsBlob, blobCtext_hsBlob, blobMac_hsBlob]
      · rwa [blobIv_hsBlob, blobCtext_hsBlob]
      · exact plainIndicator_pad _ _ _
      · exact plainSecond_pad _ _ _
      · rwa [plainFirst_pad]
    · intro p hp hsaved
      have hplain3 : m.sstAes128CbcDecrypt k.aesKey random.iv ctext3 =
          some (Mbedtls.padPkcs7 (hsPlain 3 entityNonce picoEnv.hs2.picoNonce)) :=
        hm.cbc_decrypt _ _ _ _ hctext3
      have hpasses : Hs3Passes m p.sessionKey p.sessionMacKey p.savedPicoNonce
          (hsBlob random.iv ctext3 mac3) := by
        rw [Hs3Passes, blobBody, blobIv_hsBlob, blobCtext_hsBlob, blobMac_hsBlob, hp.key,
          hp.macKey, hsaved]
        refine ⟨hmac3, _, hplain3, ?_, ?_, plainIndicator_pad _ _ _, plainSecond_pad _ _ _⟩
        · rw [hs3Pad_pad]
          decide
        · rw [hs3Pad_pad]
          decide
      rw [handleHs3_of_passes hpasses, hsaved]

/-- The waiting receiver answers a second message that opens with a third one that is
taken. -/
theorem handleSstHs2_answers (hwrites : env.Writes) {picoNonce : Bytes 8} {hs2 : Bytes 80}
    (hs2Opens : OpensHs2 m api d.sKey d.sstEntityNonce picoNonce hs2)
    (hstate : d.state = .waitingForSstHs2) :
    ∃ hs3 : Bytes 80, handleSstHs2 api env hs2 d =
        ({ d with sstEntityNonce := Bytes.zero 8, state := .idle },
          [.hs2Verified d.sKey d.sstEntityNonce hs2 hs3.toList,
            .tx (PicoFrame.hs3 hs3).bytes]) ∧
      ∀ p : Pico, p.Holds d.sKey → p.savedPicoNonce = picoNonce →
        handleHs3 m hs3 p = ({ p with savedPicoNonce := Bytes.zero 8, led25 := true },
          [.mutualAuthOk picoNonce hs3]) := by
  obtain ⟨hs3, hcheck, htaken⟩ := hs2Opens env.hs
  refine ⟨hs3, ?_, htaken⟩
  have hlen : hs3.toList.length = sstHs3PayloadSize := hs3.toList_length
  simp only [handleSstHs2]
  rw [if_neg (not_not_intro hstate), hcheck]
  simp only [hlen, if_true]
  rw [writeEach_of_writes hwrites]
  simp [PicoFrame.bytes]

end

/-! ## Looks at the lines -/

/-- The frames on the two lines, and how far the first of each has been taken. -/
structure OnLines (s : Wired) (fs : List PicoFrame) (j : ℕ) (gs : List LifiFrame) (j' : ℕ) :
    Prop where
  toPico : picoParser.Holds s.challengeState s.toPico fs j
  toDash : dashParser.Holds s.uartState s.toDash gs j'

section

variable (m : Mbedtls) (hse : HeatshrinkEncoder) (api : SstApi) {s : Wired}
  {fs : List PicoFrame} {gs : List LifiFrame} {j j' : ℕ}

theorem Wired.Drained.onLines (h : s.Drained) : OnLines s [] 0 [] 0 where
  toPico := by
    rw [h.toPico]
    exact .between h.challengeState []
  toDash := by
    rw [h.toDash]
    exact .between h.uartState []

theorem OnLines.drained (h : OnLines s [] 0 [] 0) : s.Drained := by
  obtain ⟨pico, k, toPico, dash, k', toDash⟩ := s
  obtain ⟨hpico, hdash⟩ := h
  cases hpico with
  | between hk =>
      cases hdash with
      | between hk' => exact ⟨rfl, rfl, hk, hk'⟩

/-- The sender puts a frame on the light link. -/
theorem OnLines.sent (h : OnLines s fs j [] j') {r : Pico × List PicoOut} {g : LifiFrame}
    (hbytes : r.2.flatMap PicoOut.lifiBytes = g.bytes) :
    OnLines (s.fromPico r).1 fs j [g] j' where
  toPico := h.toPico
  toDash := by
    have hput := h.toDash.put [g]
    have hline : (s.fromPico r).1.toDash = s.toDash ++ dashParser.frame g :=
      congrArg (s.toDash ++ ·) hbytes
    rw [List.flatMap_singleton, ← hline] at hput
    exact hput

/-- The sender puts nothing on the light link. -/
theorem OnLines.unsent (h : OnLines s fs j gs j') {r : Pico × List PicoOut}
    (hbytes : r.2.flatMap PicoOut.lifiBytes = []) : OnLines (s.fromPico r).1 fs j gs j' where
  toPico := h.toPico
  toDash := by
    have hline : (s.fromPico r).1.toDash = s.toDash := by
      rw [Wired.fromPico, hbytes, List.append_nil]
    rw [hline]
    exact h.toDash

/-- The receiver puts a frame on the serial line. -/
theorem OnLines.written (h : OnLines s [] j gs j') {r : Dash × List DashOut} {f : PicoFrame}
    (hbytes : r.2.flatMap DashOut.txBytes = f.bytes) :
    OnLines (s.fromDash r).1 [f] j gs j' where
  toPico := by
    have hput := h.toPico.put [f]
    have hline : (s.fromDash r).1.toPico = s.toPico ++ picoParser.frame f :=
      congrArg (s.toPico ++ ·) hbytes
    rw [List.flatMap_singleton, ← hline] at hput
    exact hput
  toDash := h.toDash

/-- The receiver puts nothing on the serial line. -/
theorem OnLines.unwritten (h : OnLines s fs j gs j') {r : Dash × List DashOut}
    (hbytes : r.2.flatMap DashOut.txBytes = []) : OnLines (s.fromDash r).1 fs j gs j' where
  toPico := by
    have hline : (s.fromDash r).1.toPico = s.toPico := by
      rw [Wired.fromDash, hbytes, List.append_nil]
    rw [hline]
    exact h.toPico
  toDash := h.toDash

/-- A look of the sender at an empty line. -/
theorem OnLines.look_nil (h : OnLines s [] j gs j') (env : PicoEnv) :
    wiredStep m hse api s (.look env) = (s, [.picoRead .quiet]) := by
  obtain ⟨-, hquiet, hafter⟩ := h.toPico.look_nil lawful_picoParser
  have hlook : picoLook s.challengeState s.toPico =
      (.quiet, s.challengeState, s.toPico) := Prod.ext (of_decide_eq_true hquiet) hafter
  simp only [wiredStep, hlook, handlePicoReport, Wired.fromPico, List.flatMap_nil,
    List.append_nil, List.map_nil]

/-- A look of the sender takes a byte of the first frame, or the frame. -/
theorem OnLines.look_cons {f : PicoFrame} (h : OnLines s (f :: fs) j gs j')
    (env : PicoEnv) : ∃ k line,
    let s' : Wired := { s with challengeState := k, toPico := line }
    (j < 4 ∧ wiredStep m hse api s (.look env) = (s', [.picoRead .quiet]) ∧
        OnLines s' (f :: fs) (j + 1) gs j') ∨
      (j = 4 ∧ wiredStep m hse api s (.look env) =
          ((s'.fromPico (handlePicoReport m env f.report s.pico)).1,
            .picoRead f.report :: (s'.fromPico (handlePicoReport m env f.report s.pico)).2) ∧
        OnLines s' fs 0 gs j') := by
  refine ⟨(picoLook s.challengeState s.toPico).2.1,
    (picoLook s.challengeState s.toPico).2.2, ?_⟩
  rcases h.toPico.look_cons lawful_picoParser with
    ⟨hlt, hquiet, hnext⟩ | ⟨heq, hreport, hnext⟩
  · have hr : (picoLook s.challengeState s.toPico).1 = .quiet := of_decide_eq_true hquiet
    refine Or.inl ⟨hlt, ?_, hnext, h.toDash⟩
    simp only [wiredStep, hr, handlePicoReport, Wired.fromPico, List.flatMap_nil,
      List.append_nil, List.map_nil]
  · have hr : (picoLook s.challengeState s.toPico).1 = f.report := hreport
    refine Or.inr ⟨heq, ?_, hnext, h.toDash⟩
    simp only [wiredStep, hr]

variable {m api} in
theorem handleReport_of_hunting {r : UartReport} (h : r.hunting = true) (env : DashEnv)
    (d : Dash) : handleReport m api env r d = (d, []) := by
  cases r with
  | quiet => rfl
  | preambleBroke pos got => rfl
  | preambleOk => rfl
  | _ => cases h

/-- A look of the receiver at an empty line. -/
theorem OnLines.pass_nil (h : OnLines s fs j [] j') (hopen : s.dash.fdOpen = true)
    (env : DashEnv) : ∃ r, wiredStep m hse api s (.pass env) = (s, [.dashRead r]) := by
  obtain ⟨-, hquiet, hafter⟩ := h.toDash.look_nil lawful_dashParser
  have hlook : dashLook s.uartState s.toDash =
      ((dashLook s.uartState s.toDash).1, s.uartState, s.toDash) := Prod.ext rfl hafter
  have hreport : handleReport m api env (dashLook s.uartState s.toDash).1 s.dash =
      (s.dash, []) := handleReport_of_hunting hquiet env s.dash
  refine ⟨(dashLook s.uartState s.toDash).1, ?_⟩
  generalize (dashLook s.uartState s.toDash).1 = r at hlook hreport
  simp only [wiredStep, if_pos hopen, hlook, hreport, Wired.fromDash, List.flatMap_nil,
    List.append_nil, List.map_nil]

/-- A look of the receiver takes a byte of the first frame, or the frame. -/
theorem OnLines.pass_cons {g : LifiFrame} (h : OnLines s fs j (g :: gs) j')
    (hopen : s.dash.fdOpen = true) (env : DashEnv) : ∃ k line,
    let s' : Wired := { s with uartState := k, toDash := line }
    (j' < 4 ∧ (∃ r, wiredStep m hse api s (.pass env) = (s', [.dashRead r])) ∧
        OnLines s' fs j (g :: gs) (j' + 1)) ∨
      (j' = 4 ∧ wiredStep m hse api s (.pass env) =
          ((s'.fromDash (handleFrame m api env g.received s.dash.counted)).1,
            .dashRead (.frame g.received) ::
              (s'.fromDash (handleFrame m api env g.received s.dash.counted)).2) ∧
        OnLines s' fs j gs 0) := by
  refine ⟨(dashLook s.uartState s.toDash).2.1, (dashLook s.uartState s.toDash).2.2, ?_⟩
  rcases h.toDash.look_cons lawful_dashParser with
    ⟨hlt, hquiet, hnext⟩ | ⟨heq, hreport, hnext⟩
  · have hr : handleReport m api env (dashLook s.uartState s.toDash).1 s.dash =
        (s.dash, []) := handleReport_of_hunting hquiet env s.dash
    refine Or.inl ⟨hlt, ⟨(dashLook s.uartState s.toDash).1, ?_⟩, h.toPico, hnext⟩
    simp only [wiredStep, if_pos hopen, hr, Wired.fromDash, List.flatMap_nil,
      List.append_nil, List.map_nil]
  · have hr : (dashLook s.uartState s.toDash).1 = .frame g.received := hreport
    refine Or.inr ⟨heq, ?_, h.toPico, hnext⟩
    simp only [wiredStep, if_pos hopen, hr, handleReport]

end

/-! ## Stages -/

inductive Side where
  | sender
  | receiver
  deriving DecidableEq

def WiredIn.side : WiredIn → Side
  | .look _ | .line _ _ => .sender
  | .pass _ | .key _ _ | .timeout _ => .receiver

/-- How often a side has its turn. -/
def turns (side : Side) (is : List WiredIn) : ℕ :=
  (is.map WiredIn.side).count side

theorem turns_cons (side : Side) (i : WiredIn) (is : List WiredIn) :
    turns side (i :: is) = turns side is + if i.side = side then 1 else 0 := by
  rw [turns, List.map_cons, List.count_cons]
  simp only [beq_iff_eq, turns]

/-- The four messages of interest: a first message made, a second sent, a second verified
and a third accepted. -/
def WiredOut.milestone : WiredOut → Bool
  | .dash (.hs1Made _ _ _) | .pico (.hs2Sent _ _ _ _) | .dash (.hs2Verified _ _ _ _)
  | .pico (.mutualAuthOk _ _) => true
  | _ => false

section

variable (m : Mbedtls) (api : SstApi) (k : SessionKey)

/-- Both hold the key, and the port is open. -/
structure Keyed (s : Wired) : Prop where
  pico : s.pico.Holds k
  dash : s.dash.sKey = k
  fdOpen : s.dash.fdOpen = true

/-- An id is on its way to a receiver that has nothing to do. -/
structure Named (j : ℕ) (t : List WiredOut) (s : Wired) : Prop where
  pico : s.pico.Holds k
  fdOpen : s.dash.fdOpen = true
  idle : s.dash.state = .idle
  lines : OnLines s [] 0 [.keyIdOnly k.keyId] j
  milestones : t.filter WiredOut.milestone = []

/-- A first message is on its way. -/
structure Knocked (j : ℕ) (t : List WiredOut) (s : Wired) : Prop where
  keyed : Keyed k s
  waiting : s.dash.state = .waitingForSstHs2
  message : ∃ hs1, OpensHs1 m k s.dash.sstEntityNonce hs1 ∧ OnLines s [.hs1 hs1] j [] 0 ∧
    t.filter WiredOut.milestone = [.dash (.hs1Made k s.dash.sstEntityNonce hs1.toList)]

/-- A second message is on its way. -/
structure Replied (j : ℕ) (t : List WiredOut) (s : Wired) : Prop where
  keyed : Keyed k s
  waiting : s.dash.state = .waitingForSstHs2
  message : ∃ (hs1 : Bytes 72) (hs2 : Bytes 80),
    OpensHs2 m api k s.dash.sstEntityNonce s.pico.savedPicoNonce hs2 ∧
      OnLines s [] 0 [.sstHs2 hs2] j ∧
      t.filter WiredOut.milestone = [.dash (.hs1Made k s.dash.sstEntityNonce hs1.toList),
        .pico (.hs2Sent k.macKey s.dash.sstEntityNonce s.pico.savedPicoNonce hs2)]

/-- A third message is on its way. -/
structure Echoed (j : ℕ) (t : List WiredOut) (s : Wired) : Prop where
  keyed : Keyed k s
  idle : s.dash.state = .idle
  forgot : s.dash.sstEntityNonce = Bytes.zero 8
  message : ∃ (entityNonce : Bytes 8) (hs1 : Bytes 72) (hs2 hs3 : Bytes 80),
    (∀ p : Pico, p.Holds k → p.savedPicoNonce = s.pico.savedPicoNonce →
      handleHs3 m hs3 p = ({ p with savedPicoNonce := Bytes.zero 8, led25 := true },
        [.mutualAuthOk p.savedPicoNonce hs3])) ∧
      OnLines s [.hs3 hs3] j [] 0 ∧
      t.filter WiredOut.milestone = [.dash (.hs1Made k entityNonce hs1.toList),
        .pico (.hs2Sent k.macKey entityNonce s.pico.savedPicoNonce hs2),
        .dash (.hs2Verified k entityNonce hs2 hs3.toList)]

/-- Both sides are satisfied, and nothing of the handshake is left. -/
structure Authenticated (t : List WiredOut) (s : Wired) : Prop where
  keyed : Keyed k s
  idle : s.dash.state = .idle
  dashForgot : s.dash.sstEntityNonce = Bytes.zero 8
  picoForgot : s.pico.savedPicoNonce = Bytes.zero 8
  led25 : s.pico.led25 = true
  drained : s.Drained
  milestones : ∃ (entityNonce picoNonce : Bytes 8) (hs1 : Bytes 72) (hs2 hs3 : Bytes 80),
    t.filter WiredOut.milestone = [.dash (.hs1Made k entityNonce hs1.toList),
      .pico (.hs2Sent k.macKey entityNonce picoNonce hs2),
      .dash (.hs2Verified k entityNonce hs2 hs3.toList),
      .pico (.mutualAuthOk picoNonce hs3)]

/-- The turns from the third message on, of which `j` bytes have been taken. -/
def echoedTurns (j : ℕ) : List Side :=
  List.replicate (5 - j) .sender

def repliedTurns (j : ℕ) : List Side :=
  List.replicate (5 - j) .receiver ++ echoedTurns 0

def knockedTurns (j : ℕ) : List Side :=
  List.replicate (5 - j) .sender ++ repliedTurns 0

def namedTurns (j : ℕ) : List Side :=
  List.replicate (5 - j) .receiver ++ knockedTurns 0

/-- The stages of a handshake, with the turns that are left.  `answer` is the key that Auth
gives for an id, where the handshake begins with one. -/
inductive Stage (answer : Option SessionKey) : List Side → List WiredOut → Wired → Prop
  | named {j : ℕ} {t : List WiredOut} {s : Wired} (h : Named k j t s)
      (hanswer : answer = some k) : Stage answer (namedTurns j) t s
  | knocked {j : ℕ} {t : List WiredOut} {s : Wired} (h : Knocked m k j t s) :
      Stage answer (knockedTurns j) t s
  | replied {j : ℕ} {t : List WiredOut} {s : Wired} (h : Replied m api k j t s) :
      Stage answer (repliedTurns j) t s
  | echoed {j : ℕ} {t : List WiredOut} {s : Wired} (h : Echoed m k j t s) :
      Stage answer (echoedTurns j) t s
  | authenticated {t : List WiredOut} {s : Wired} (h : Authenticated k t s) :
      Stage answer [] t s

end

/-! ## From stage to stage -/

section

variable {m : Mbedtls} (hse : HeatshrinkEncoder) (api : SstApi) {k : SessionKey} {s : Wired}
  {j : ℕ} {t : List WiredOut}

theorem milestones_picoRead (t : List WiredOut) (r : PicoReport) :
    (t ++ [WiredOut.picoRead r]).filter WiredOut.milestone = t.filter WiredOut.milestone := by
  rw [List.filter_append]
  exact List.append_nil _

theorem milestones_dashRead (t : List WiredOut) (r : UartReport) :
    (t ++ [WiredOut.dashRead r]).filter WiredOut.milestone = t.filter WiredOut.milestone := by
  rw [List.filter_append]
  exact List.append_nil _

/-- The sender takes a byte of the first message, or answers it. -/
theorem Knocked.look (hm : m.Lawful) (htotal : m.Total) (hapi : api.Answers m)
    (h : Knocked m k j t s) (env : PicoEnv) :
    let r := wiredStep m hse api s (.look env)
    (j < 4 ∧ Knocked m k (j + 1) (t ++ r.2) r.1) ∨
      (j = 4 ∧ Replied m api k 0 (t ++ r.2) r.1) := by
  obtain ⟨hkeyed, hwaiting, hs1, hopens, hlines, hmilestones⟩ := h
  obtain ⟨c, line, hlook⟩ := hlines.look_cons m hse api env
  rcases hlook with ⟨hlt, hstep, hnext⟩ | ⟨heq, hstep, hnext⟩
  · refine Or.inl ⟨hlt, ?_⟩
    rw [hstep]
    refine ⟨⟨hkeyed.pico, hkeyed.dash, hkeyed.fdOpen⟩, hwaiting, hs1, hopens, hnext, ?_⟩
    rw [milestones_picoRead, hmilestones]
  · refine Or.inr ⟨heq, ?_⟩
    obtain ⟨hs2, hanswer, hopens2⟩ :=
      handleHs1_answers hm htotal hapi hkeyed.pico hopens env
    have hhandled : handlePicoReport m env (PicoFrame.hs1 hs1).report s.pico = _ := hanswer
    rw [hstep, hhandled]
    refine ⟨⟨⟨hkeyed.pico.keyId, hkeyed.pico.key, hkeyed.pico.macKey⟩, hkeyed.dash,
      hkeyed.fdOpen⟩, hwaiting, hs1, hs2, hopens2, hnext.sent (g := .sstHs2 hs2) ?_, ?_⟩
    · exact List.append_nil _
    · rw [List.filter_append, hmilestones]
      rfl

/-- The receiver takes a byte of the second message, or verifies it. -/
theorem Replied.pass (h : Replied m api k j t s) {env : DashEnv} (hwrites : env.Writes) :
    let r := wiredStep m hse api s (.pass env)
    (j < 4 ∧ Replied m api k (j + 1) (t ++ r.2) r.1) ∨
      (j = 4 ∧ Echoed m k 0 (t ++ r.2) r.1) := by
  obtain ⟨hkeyed, hwaiting, hs1, hs2, hopens, hlines, hmilestones⟩ := h
  obtain ⟨c, line, hlook⟩ := hlines.pass_cons m hse api hkeyed.fdOpen env
  rcases hlook with ⟨hlt, ⟨r, hstep⟩, hnext⟩ | ⟨heq, hstep, hnext⟩
  · refine Or.inl ⟨hlt, ?_⟩
    rw [hstep]
    refine ⟨⟨hkeyed.pico, hkeyed.dash, hkeyed.fdOpen⟩, hwaiting, hs1, hs2, hopens, hnext, ?_⟩
    rw [milestones_dashRead, hmilestones]
  · refine Or.inr ⟨heq, ?_⟩
    have hcounted : s.dash.counted.sKey = k := hkeyed.dash
    have hopens' : OpensHs2 m api s.dash.counted.sKey s.dash.counted.sstEntityNonce
        s.pico.savedPicoNonce hs2 := by
      rw [hcounted]
      exact hopens
    obtain ⟨hs3, hanswer, htaken⟩ := handleSstHs2_answers hwrites hopens' hwaiting
    have hhandled : handleFrame m api env (LifiFrame.sstHs2 hs2).received s.dash.counted = _ :=
      hanswer
    rw [hcounted] at htaken
    rw [hstep, hhandled]
    refine ⟨⟨hkeyed.pico, hkeyed.dash, hkeyed.fdOpen⟩, rfl, rfl, s.dash.sstEntityNonce, hs1,
      hs2, hs3, ?_, hnext.written (f := .hs3 hs3) ?_, ?_⟩
    · intro p hp hsaved
      rw [htaken p hp hsaved]
      exact congrArg (fun n => (_, [PicoOut.mutualAuthOk n hs3])) hsaved.symm
    · exact List.append_nil _
    · rw [List.filter_append, hmilestones, hcounted]
      rfl

/-- The sender takes a byte of the third message, or accepts it. -/
theorem Echoed.look (h : Echoed m k j t s) (env : PicoEnv) :
    let r := wiredStep m hse api s (.look env)
    (j < 4 ∧ Echoed m k (j + 1) (t ++ r.2) r.1) ∨
      (j = 4 ∧ Authenticated k (t ++ r.2) r.1) := by
  obtain ⟨hkeyed, hidle, hforgot, entityNonce, hs1, hs2, hs3, htaken, hlines, hmilestones⟩ := h
  obtain ⟨c, line, hlook⟩ := hlines.look_cons m hse api env
  rcases hlook with ⟨hlt, hstep, hnext⟩ | ⟨heq, hstep, hnext⟩
  · refine Or.inl ⟨hlt, ?_⟩
    rw [hstep]
    refine ⟨⟨hkeyed.pico, hkeyed.dash, hkeyed.fdOpen⟩, hidle, hforgot, entityNonce, hs1, hs2,
      hs3, htaken, hnext, ?_⟩
    rw [milestones_picoRead, hmilestones]
  · refine Or.inr ⟨heq, ?_⟩
    have hhandled : handlePicoReport m env (PicoFrame.hs3 hs3).report s.pico = _ :=
      htaken s.pico hkeyed.pico rfl
    rw [hstep, hhandled]
    refine ⟨⟨⟨hkeyed.pico.keyId, hkeyed.pico.key, hkeyed.pico.macKey⟩, hkeyed.dash,
      hkeyed.fdOpen⟩, hidle, hforgot, rfl, rfl, OnLines.drained (hnext.unsent rfl),
      entityNonce, s.pico.savedPicoNonce, hs1, hs2, hs3, ?_⟩
    rw [List.filter_append, hmilestones]
    rfl

/-- The receiver takes a byte of the id, or adopts the key and starts a handshake. -/
theorem Named.pass (hm : m.Lawful) (htotal : m.Total) (hapi : api.Answers m)
    (h : Named k j t s) {env : DashEnv} (hwrites : env.Writes)
    (hkey : env.keyById k.keyId = some k) :
    let r := wiredStep m hse api s (.pass env)
    (j < 4 ∧ Named k (j + 1) (t ++ r.2) r.1) ∨
      (j = 4 ∧ Knocked m k 0 (t ++ r.2) r.1) := by
  obtain ⟨hpico, hopen, hidle, hlines, hmilestones⟩ := h
  obtain ⟨c, line, hlook⟩ := hlines.pass_cons m hse api hopen env
  rcases hlook with ⟨hlt, ⟨r, hstep⟩, hnext⟩ | ⟨heq, hstep, hnext⟩
  · refine Or.inl ⟨hlt, ?_⟩
    rw [hstep]
    refine ⟨hpico, hopen, hidle, hnext, ?_⟩
    rw [milestones_dashRead, hmilestones]
  · refine Or.inr ⟨heq, ?_⟩
    let d := (s.dash.counted.noteId env k.keyId.toList).adopt k
    obtain ⟨hs1, hstart, hopens⟩ := startHandshake_answers hm htotal hapi hwrites d
    have hhandled : handleFrame m api env (LifiFrame.keyIdOnly k.keyId).received
        s.dash.counted =
        startHandshake api env d := by
      have hready : d.fdOpen = true ∧ d.state = .idle := ⟨hopen, hidle⟩
      simp only [LifiFrame.received, handleFrame, handleKeyIdOnly, env.peerId_toList, hkey,
        autoConnect]
      exact if_pos hready
    rw [hstep, hhandled, hstart]
    refine ⟨⟨hpico, rfl, hopen⟩, rfl, hs1, hopens, hnext.written (f := .hs1 hs1) ?_, ?_⟩
    · exact List.append_nil _
    · rw [List.filter_append, hmilestones]
      rfl

/-! ## Turns -/

theorem afterTurn_taken {x : Side} (hj : j < 5) (ts : List Side) :
    Machine.afterTurn x (List.replicate (5 - j) x ++ ts) =
      List.replicate (5 - (j + 1)) x ++ ts := by
  have hleft : 5 - j = 5 - (j + 1) + 1 := by omega
  rw [hleft, List.replicate_succ, List.cons_append, Machine.afterTurn, if_pos rfl]

theorem afterTurn_passed {x y : Side} (hne : x ≠ y) (hj : j < 5) (ts : List Side) :
    Machine.afterTurn x (List.replicate (5 - j) y ++ ts) = List.replicate (5 - j) y ++ ts := by
  have hleft : 5 - j = 4 - j + 1 := by omega
  rw [hleft, List.replicate_succ, List.cons_append, Machine.afterTurn, if_neg hne]

/-- The inputs that are looks; `answer` is what Auth says to those of the receiver. -/
def WiredIn.Looks (answer : Option SessionKey) : WiredIn → Prop
  | .look _ => True
  | .pass env => env.Writes ∧ ∀ k, answer = some k → env.keyById k.keyId = some k
  | _ => False

variable {answer : Option SessionKey} {ts : List Side}

/-- A look of the sender: it is the sender's turn and the handshake moves on, or it is not
and nothing happens. -/
theorem Stage.look (hm : m.Lawful) (htotal : m.Total) (hapi : api.Answers m)
    (h : Stage m api k answer ts t s) (env : PicoEnv) :
    Stage m api k answer (Machine.afterTurn .sender ts)
      (t ++ (wiredStep m hse api s (.look env)).2) (wiredStep m hse api s (.look env)).1 := by
  have hne : Side.sender ≠ .receiver := by decide
  cases h with
  | @named j _ _ h hanswer =>
      obtain ⟨hpico, hopen, hidle, hlines, hmilestones⟩ := h
      have hj : j < 5 := Nat.lt_succ_of_le hlines.toDash.le_depth
      rw [hlines.look_nil m hse api env, namedTurns, afterTurn_passed hne hj]
      refine .named ⟨hpico, hopen, hidle, hlines, ?_⟩ hanswer
      rw [milestones_picoRead, hmilestones]
  | @knocked j _ _ h =>
      have hstep := h.look hse api hm htotal hapi env
      have hj : j < 5 := by
        rcases hstep with ⟨hlt, -⟩ | ⟨rfl, -⟩
        · omega
        · decide
      rw [knockedTurns, afterTurn_taken hj]
      rcases hstep with ⟨-, hnext⟩ | ⟨rfl, hnext⟩
      · exact .knocked hnext
      · exact .replied hnext
  | @replied j _ _ h =>
      obtain ⟨hkeyed, hwaiting, hs1, hs2, hopens, hlines, hmilestones⟩ := h
      have hj : j < 5 := Nat.lt_succ_of_le hlines.toDash.le_depth
      rw [hlines.look_nil m hse api env, repliedTurns, afterTurn_passed hne hj]
      refine .replied ⟨hkeyed, hwaiting, hs1, hs2, hopens, hlines, ?_⟩
      rw [milestones_picoRead, hmilestones]
  | @echoed j _ _ h =>
      have hstep := h.look hse api env
      have hj : j < 5 := by
        rcases hstep with ⟨hlt, -⟩ | ⟨rfl, -⟩
        · omega
        · decide
      have hturns := afterTurn_taken (x := Side.sender) hj []
      rw [List.append_nil, List.append_nil] at hturns
      rw [echoedTurns, hturns]
      rcases hstep with ⟨-, hnext⟩ | ⟨rfl, hnext⟩
      · exact .echoed hnext
      · exact .authenticated hnext
  | authenticated h =>
      obtain ⟨hkeyed, hidle, hdash, hpico, hled, hdrained, n, n', hs1, hs2, hs3, hmilestones⟩ := h
      rw [hdrained.onLines.look_nil m hse api env]
      refine .authenticated ⟨hkeyed, hidle, hdash, hpico, hled, hdrained, n, n', hs1, hs2, hs3,
        ?_⟩
      rw [milestones_picoRead, hmilestones]

/-- A look of the receiver, likewise. -/
theorem Stage.pass (hm : m.Lawful) (htotal : m.Total) (hapi : api.Answers m)
    (h : Stage m api k answer ts t s) {env : DashEnv} (hwrites : env.Writes)
    (hkey : ∀ k, answer = some k → env.keyById k.keyId = some k) :
    Stage m api k answer (Machine.afterTurn .receiver ts)
      (t ++ (wiredStep m hse api s (.pass env)).2) (wiredStep m hse api s (.pass env)).1 := by
  have hne : Side.receiver ≠ .sender := by decide
  cases h with
  | @named j _ _ h hanswer =>
      have hstep := h.pass hse api hm htotal hapi hwrites (hkey k hanswer)
      have hj : j < 5 := by
        rcases hstep with ⟨hlt, -⟩ | ⟨rfl, -⟩
        · omega
        · decide
      rw [namedTurns, afterTurn_taken hj]
      rcases hstep with ⟨-, hnext⟩ | ⟨rfl, hnext⟩
      · exact .named hnext hanswer
      · exact .knocked hnext
  | @knocked j _ _ h =>
      obtain ⟨hkeyed, hwaiting, hs1, hopens, hlines, hmilestones⟩ := h
      have hj : j < 5 := Nat.lt_succ_of_le hlines.toPico.le_depth
      obtain ⟨r, hstep⟩ := hlines.pass_nil m hse api hkeyed.fdOpen env
      rw [hstep, knockedTurns, afterTurn_passed hne hj]
      refine .knocked ⟨hkeyed, hwaiting, hs1, hopens, hlines, ?_⟩
      rw [milestones_dashRead, hmilestones]
  | @replied j _ _ h =>
      have hstep := h.pass hse api hwrites
      have hj : j < 5 := by
        rcases hstep with ⟨hlt, -⟩ | ⟨rfl, -⟩
        · omega
        · decide
      rw [repliedTurns, afterTurn_taken hj]
      rcases hstep with ⟨-, hnext⟩ | ⟨rfl, hnext⟩
      · exact .replied hnext
      · exact .echoed hnext
  | @echoed j _ _ h =>
      obtain ⟨hkeyed, hidle, hforgot, n, hs1, hs2, hs3, htaken, hlines, hmilestones⟩ := h
      have hj : j < 5 := Nat.lt_succ_of_le hlines.toPico.le_depth
      obtain ⟨r, hstep⟩ := hlines.pass_nil m hse api hkeyed.fdOpen env
      have hturns := afterTurn_passed hne hj []
      rw [List.append_nil] at hturns
      rw [hstep, echoedTurns, hturns]
      refine .echoed ⟨hkeyed, hidle, hforgot, n, hs1, hs2, hs3, htaken, hlines, ?_⟩
      rw [milestones_dashRead, hmilestones]
  | authenticated h =>
      obtain ⟨hkeyed, hidle, hdash, hpico, hled, hdrained, n, n', hs1, hs2, hs3, hmilestones⟩ := h
      obtain ⟨r, hstep⟩ := hdrained.onLines.pass_nil m hse api hkeyed.fdOpen env
      rw [hstep]
      refine .authenticated ⟨hkeyed, hidle, hdash, hpico, hled, hdrained, n, n', hs1, hs2, hs3,
        ?_⟩
      rw [milestones_dashRead, hmilestones]

/-- From any stage the handshake ends, once the turns that are left have come in order. -/
theorem Stage.authenticates (hm : m.Lawful) (htotal : m.Total) (hapi : api.Answers m)
    (h : Stage m api k answer ts t s) {is : List WiredIn} (hlooks : ∀ i ∈ is, i.Looks answer)
    (hturns : ts.Sublist (is.map WiredIn.side)) :
    Authenticated k (t ++ (wired m hse api).trace s is) ((wired m hse api).run s is) := by
  have hend : Stage m api k answer [] (t ++ (wired m hse api).trace s is)
      ((wired m hse api).run s is) := by
    refine Machine.past_turns WiredIn.side (P := Stage m api k answer) ?_ h hturns
    intro ts t s i hi h
    cases i with
    | look env => exact h.look hse api hm htotal hapi env
    | pass env =>
        obtain ⟨hwrites, hkey⟩ := hlooks _ hi
        exact h.pass hse api hm htotal hapi hwrites hkey
    | line env text => exact (hlooks _ hi).elim
    | key env key => exact (hlooks _ hi).elim
    | timeout env => exact (hlooks _ hi).elim
  generalize hts : ([] : List Side) = ts at hend
  cases hend with
  | authenticated h => exact h
  | named _ _ => simp [namedTurns, knockedTurns, repliedTurns, echoedTurns] at hts
  | knocked _ => simp [knockedTurns, repliedTurns, echoedTurns] at hts
  | replied _ => simp [repliedTurns, echoedTurns] at hts
  | @echoed j _ _ h =>
      obtain ⟨-, -, -, n, hs1, hs2, hs3, -, hlines, -⟩ := h
      have hj : j < 5 := Nat.lt_succ_of_le hlines.toPico.le_depth
      have hempty := congrArg List.length hts
      rw [echoedTurns, List.length_replicate, List.length_nil] at hempty
      omega

/-! ## What sets a handshake off -/

/-- Key `2` at a receiver whose key the sender holds: once sender, receiver and sender
have had five looks each, both are satisfied. -/
theorem handshake_completes (hm : m.Lawful) (htotal : m.Total) (hapi : api.Answers m)
    (hs : s.Drained) (hopen : s.dash.fdOpen = true) (hvalid : s.dash.keyValid = true)
    (hholds : s.pico.Holds s.dash.sKey) {env : DashEnv} (hwrites : env.Writes)
    {is : List WiredIn} (hlooks : ∀ i ∈ is, i.Looks none)
    (hturns : (knockedTurns 0).Sublist (is.map WiredIn.side)) :
    let inputs := .key env .two :: is
    Authenticated s.dash.sKey ((wired m hse api).trace s inputs)
      ((wired m hse api).run s inputs) := by
  obtain ⟨hs1, hstart, hopens⟩ := startHandshake_answers hm htotal hapi hwrites s.dash
  have hpressed : wiredStep m hse api s (.key env .two) =
      s.fromDash (startHandshake api env s.dash) :=
    congrArg s.fromDash (if_pos ⟨hopen, hvalid⟩)
  rw [hstart] at hpressed
  have hstage : Stage m api s.dash.sKey none (knockedTurns 0)
      (wiredStep m hse api s (.key env .two)).2
      (wiredStep m hse api s (.key env .two)).1 := by
    rw [hpressed]
    refine .knocked ⟨⟨hholds, rfl, hopen⟩, rfl, hs1, hopens,
      hs.onLines.written (f := .hs1 hs1) ?_, rfl⟩
    exact List.append_nil _
  exact hstage.authenticates hse api hm htotal hapi hlooks hturns

/-- `send_id` typed at a sender whose key Auth knows by its id: whatever key the receiver
had, it adopts the sender's, and both are satisfied once receiver, sender, receiver and
sender have had five looks each. -/
theorem send_id_authenticates (hm : m.Lawful) (htotal : m.Total) (hapi : api.Answers m)
    (hs : s.Drained) (hopen : s.dash.fdOpen = true) (hidle : s.dash.state = .idle)
    (hholds : s.pico.Holds k) (env : PicoEnv) {text : List UInt8} (hcmd : ascii "CMD:" <+: text)
    (hid : ascii "send_id" <+: (text.drop 4).dropWhile (· == 32)) {is : List WiredIn}
    (hlooks : ∀ i ∈ is, i.Looks (some k))
    (hturns : (namedTurns 0).Sublist (is.map WiredIn.side)) :
    let inputs := .line env text :: is
    Authenticated k ((wired m hse api).trace s inputs) ((wired m hse api).run s inputs) := by
  have htyped : wiredStep m hse api s (.line env text) =
      s.fromPico (s.pico, [.keyIdSent s.pico.sessionKeyId]) := by
    rw [wiredStep, handleLine, if_pos hcmd, handleCommandLine, if_pos hid]
  have hstage : Stage m api k (some k) (namedTurns 0)
      (wiredStep m hse api s (.line env text)).2
      (wiredStep m hse api s (.line env text)).1 := by
    rw [htyped, hholds.keyId]
    refine .named ⟨hholds, hopen, hidle, hs.onLines.sent (g := .keyIdOnly k.keyId) ?_, rfl⟩ rfl
    exact List.append_nil _
  exact hstage.authenticates hse api hm htotal hapi hlooks hturns

end

/-! ## One run -/

theorem holds_wiredStart : wiredStart.pico.Holds sharedKey := ⟨rfl, rfl, rfl⟩

/-- Auth knows the shared key by its id and hands out the other. -/
def answering : DashEnv :=
  { DashEnv.bare with
    keyById := fun id => if id = sharedKey.keyId then some sharedKey else none
    sessionKeys := some [otherKey] }

/-- Both look at their lines, one after the other. -/
def bothLook (n : ℕ) : List WiredIn :=
  (List.replicate n [.look .salted, .pass answering]).flatten

theorem looks_bothLook {answer : Option SessionKey}
    (hanswer : ∀ k, answer = some k → k = sharedKey) (n : ℕ) :
    ∀ i ∈ bothLook n, i.Looks answer := by
  intro i hi
  obtain ⟨l, hl, hi⟩ := List.mem_flatten.mp hi
  rw [List.eq_of_mem_replicate hl] at hi
  rcases List.mem_pair.mp hi with rfl | rfl
  · trivial
  · refine ⟨writes_bare, ?_⟩
    intro k hk
    rw [hanswer k hk]
    simp [answering]

theorem handshake_completes_bothKeyed :
    Authenticated sharedKey
      (openWire.trace wiredStart (.key DashEnv.bare .two :: bothLook 15))
      (openWire.run wiredStart (.key DashEnv.bare .two :: bothLook 15)) := by
  have hlooks : ∀ i ∈ bothLook 15, i.Looks none := looks_bothLook (by simp) 15
  exact handshake_completes .idle (SstApi.reference _) Mbedtls.lawful_transparent
    Mbedtls.total_transparent (SstApi.answers_reference _) drained_wiredStart rfl rfl
    holds_wiredStart writes_bare hlooks (by decide)

/-- The same with a receiver that has no key. -/
def keylessStart : Wired :=
  { wiredStart with
    dash := Dash.start true none (List.Vector.replicate 64 (Bytes.zero 12)) }

theorem send_id_authenticates_keyless :
    Authenticated sharedKey
      (openWire.trace keylessStart
        (.line .salted (ascii "CMD: send_id") :: bothLook 20))
      (openWire.run keylessStart
        (.line .salted (ascii "CMD: send_id") :: bothLook 20)) := by
  have hlooks : ∀ i ∈ bothLook 20, i.Looks (some sharedKey) :=
    looks_bothLook (fun k h => (Option.some.inj h).symm) 20
  have hdrained : keylessStart.Drained := ⟨rfl, rfl, Nat.zero_le 3, Nat.zero_le 3⟩
  have hturns : (namedTurns 0).Sublist ((bothLook 20).map WiredIn.side) := by decide +kernel
  exact send_id_authenticates .idle (SstApi.reference _) Mbedtls.lawful_transparent
    Mbedtls.total_transparent (SstApi.answers_reference _)
    hdrained rfl rfl holds_wiredStart .salted (by decide) (by decide) hlooks hturns

end LifiAuth
