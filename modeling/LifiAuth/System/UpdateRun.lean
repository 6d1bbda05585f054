import LifiAuth.System.HandshakeRun

/-!
# A forced key update on the wire

`new key -f` typed at the sender makes the receiver fetch a key and send it.  The sender
changes over when it takes the KEY frame, the receiver only when it can decrypt an `ACK`:
once the frame has been taken, what the sender says is under a key that the receiver does
not use yet, and it hears nothing any more, whatever is typed and however long it waits.
-/

namespace LifiAuth

open Support

/-- What is sealed under the first key does not open under the second. -/
def Mbedtls.SealsFrom (m : Mbedtls) (key key' : Bytes 16) : Prop :=
  ∀ nonce {n : ℕ} (input output : Bytes n) (tag : Bytes 16),
    m.gcmCryptAndTag key nonce input = some (output, tag) →
      m.gcmAuthDecrypt key' nonce output tag = none

theorem Mbedtls.sealsFrom_transparent {key key' : Bytes 16} (hne : key ≠ key') :
    Mbedtls.transparent.SealsFrom key key' := by
  intro nonce n input output tag h
  obtain ⟨-, rfl⟩ := Prod.mk.inj (Option.some.inj h)
  exact if_neg hne

theorem Mbedtls.SealsFrom.rejects {m : Mbedtls} {key key' : Bytes 16}
    (hm : m.SealsFrom key key') {nonce : Bytes 12} {n : ℕ} {input output : Bytes n}
    {tag : Bytes 16} (h : m.sstEncryptGcm key nonce input = some (output, tag)) :
    m.sstDecryptGcm key' nonce (Bytes.ofList output.toList) tag = none := by
  obtain ⟨l, rfl⟩ := output
  exact hm nonce input _ tag h

section

variable (m : Mbedtls) (k k' : SessionKey)

/-- The request is on its way to a receiver that can read it. -/
structure Requested (nonce : Bytes 12) (j : ℕ) (s : Wired) : Prop where
  key : s.dash.sKey = k
  valid : s.dash.keyValid = true
  fdOpen : s.dash.fdOpen = true
  fresh : s.dash.rwin.seen nonce = false
  request : ∃ ctext tag decrypted, OnLines s [] 0 [.data .encrypted nonce ctext tag] j ∧
    m.sstDecryptGcm k.aesKey nonce (Bytes.ofList ctext.1) tag = some decrypted ∧
    decrypted.toList = ascii "new key -f"

/-- The receiver waits for an `ACK` to change over; it would keep its old MAC key. -/
structure Awaits (d : Dash) : Prop where
  key : d.sKey = k
  valid : d.keyValid = true
  fdOpen : d.fdOpen = true
  waiting : d.state = .waitingForAck
  acked : d.ackedKey = { k' with macKey := k.macKey }

/-- The new key is on its way to the sender; the receiver keeps its own. -/
structure Issued (j : ℕ) (s : Wired) : Prop where
  awaits : Awaits k k' s.dash
  lines : OnLines s [.key k'.keyId k'.aesKey k'.macKey] j [] 0

/-- The frame cannot be read under the key. -/
def UnreadUnder (key : Bytes 16) : LifiFrame → Prop
  | .data _ nonce ctext tag => m.sstDecryptGcm key nonce (Bytes.ofList ctext.1) tag = none
  | _ => False

/-- The sender has changed over and the receiver has not; nothing on the light link can be
read by the receiver, and nothing is on the serial line. -/
structure Apart (s : Wired) : Prop where
  pico : s.pico.Holds k'
  dash : s.dash.sKey = k
  toPico : picoParser.Holds s.challengeState s.toPico [] 0
  toDash : ∃ gs j, dashParser.Holds s.uartState s.toDash gs j ∧
    ∀ g ∈ gs, UnreadUnder m k.aesKey g

end

section

variable {m : Mbedtls} (hse : HeatshrinkEncoder) (api : SstApi) {k k' : SessionKey}
  {s : Wired} {j : ℕ}

/-! ## The receiver fetches and the sender installs -/

/-- `new key -f` decrypted: the first key of the answer goes out. -/
theorem handleMessage_newKeyForced {env : DashEnv} (hwrites : env.Writes)
    {keys : List SessionKey} (hkeys : env.sessionKeys = some (k' :: keys)) (d : Dash) :
    handleMessage api env (ascii "new key -f") d =
      (({ d with keyList := some (k' :: keys) } : Dash).awaitAck k',
        [.keyIssued d.sKey k', .tx (PicoFrame.key k'.keyId k'.aesKey k'.macKey).bytes]) := by
  have htext : cstr (ascii "new key -f") = ascii "new key -f" := by decide
  have hfirst : ascii "new key -f" ≠ ascii "I have the key" := by decide
  simp only [handleMessage, htext]
  rw [if_neg hfirst, if_pos trivial, handleNewKeyForced, hkeys]
  simp only [writeEach_of_writes hwrites]
  rfl

/-- A frame that is new and that the key opens is accepted and acted on. -/
theorem handleData_accepts {d : Dash} {t : DataType} {nonce : Bytes 12} {ctext : Ctext}
    {tag : Bytes 16} {decrypted : Bytes ctext.1.length} (hvalid : d.keyValid = true)
    (hfresh : d.rwin.seen nonce = false)
    (hdec : m.sstDecryptGcm d.sKey.aesKey nonce (Bytes.ofList ctext.1) tag = some decrypted)
    (env : DashEnv) :
    handleData m api env t nonce ctext tag d =
      (finishData ctext.1 decrypted.toList
          (handleDecrypted api env t decrypted.toList (d.record nonce)).1,
        .accepted d.sKey.aesKey t nonce ctext tag decrypted.toList ::
          (handleDecrypted api env t decrypted.toList (d.record nonce)).2) := by
  have hkey : (d.record nonce).keyValid = true := hvalid
  have hopens : m.sstDecryptGcm (d.record nonce).sKey.aesKey nonce (Bytes.ofList ctext.1) tag =
      some decrypted := hdec
  rw [handleData, hfresh, if_neg Bool.false_ne_true, decryptData, if_pos hkey]
  simp only [hopens]
  rfl

/-- A frame that the key does not open is only counted and recorded. -/
theorem handleData_rejects {d : Dash} {t : DataType} {nonce : Bytes 12} {ctext : Ctext}
    {tag : Bytes 16}
    (hdec : m.sstDecryptGcm d.sKey.aesKey nonce (Bytes.ofList ctext.1) tag = none)
    (env : DashEnv) :
    ∃ d', handleData m api env t nonce ctext tag d = (d', []) ∧ d'.sKey = d.sKey := by
  have hopens : m.sstDecryptGcm (d.record nonce).sKey.aesKey nonce (Bytes.ofList ctext.1) tag =
      none := hdec
  rw [handleData]
  split
  · exact ⟨_, rfl, rfl⟩
  · rw [decryptData, hopens]
    split
    · exact ⟨_, rfl, rfl⟩
    · exact ⟨_, rfl, rfl⟩

/-- The sender installs the key that a KEY frame brings, and says nothing. -/
theorem holds_handleKeyFrame (env : PicoEnv) (k : SessionKey) (p : Pico) :
    let r := handleKeyFrame m env k.keyId k.aesKey k.macKey p
    r.1.Holds k ∧ r.2.flatMap PicoOut.lifiBytes = [] := by
  obtain ⟨hkeys, -, -⟩ := keys_handleKeyFrame (m := m) env k.keyId k.aesKey k.macKey p
  obtain ⟨hid, hkeys⟩ := Prod.mk.inj hkeys
  obtain ⟨hkey, hmac⟩ := Prod.mk.inj hkeys
  refine ⟨⟨hid, hkey, hmac⟩, ?_⟩
  simp only [handleKeyFrame, picoNonceOnKeyChange, picoNonceInit]
  split
  · rfl
  · rfl

/-- The receiver takes a byte of the request, or fetches a key and sends it. -/
theorem Requested.pass {nonce : Bytes 12} (h : Requested m k nonce j s) {env : DashEnv}
    (hwrites : env.Writes) {keys : List SessionKey}
    (hkeys : env.sessionKeys = some (k' :: keys)) :
    let s' := (wiredStep m hse api s (.pass env)).1
    s'.pico = s.pico ∧
      ((j < 4 ∧ Requested m k nonce (j + 1) s' ∧ s'.dash = s.dash) ∨
        (j = 4 ∧ Issued k k' 0 s' ∧ s'.dash.rwin = s.dash.rwin.add nonce)) := by
  obtain ⟨hkey, hvalid, hopen, hfresh, ctext, tag, decrypted, hlines, hdec, hplain⟩ := h
  obtain ⟨c, line, hlook⟩ := hlines.pass_cons m hse api hopen env
  rcases hlook with ⟨hlt, ⟨r, hstep⟩, hnext⟩ | ⟨heq, hstep, hnext⟩
  · rw [hstep]
    exact ⟨rfl, Or.inl ⟨hlt, ⟨hkey, hvalid, hopen, hfresh, ctext, tag, decrypted, hnext, hdec,
      hplain⟩, rfl⟩⟩
  · have hopens : m.sstDecryptGcm s.dash.counted.sKey.aesKey nonce (Bytes.ofList ctext.1) tag =
        some decrypted := hkey ▸ hdec
    have hread := handleData_accepts api (d := s.dash.counted) (t := .encrypted) hvalid
      hfresh hopens env
    have hacted := handleMessage_newKeyForced api hwrites hkeys (s.dash.counted.record nonce)
    have hhandled : handleFrame m api env
        (LifiFrame.data .encrypted nonce ctext tag).received s.dash.counted = _ := hread
    rw [hplain] at hhandled
    simp only [handleDecrypted, hacted] at hhandled
    rw [hstep, hhandled]
    refine ⟨rfl, Or.inr ⟨heq, ⟨⟨hkey, rfl, hopen, rfl, ?_⟩,
      hnext.written (f := .key k'.keyId k'.aesKey k'.macKey) ?_⟩, rfl⟩⟩
    · exact congrArg (fun key : SessionKey => { k' with macKey := key.macKey }) hkey
    · exact List.append_nil _

/-- The sender takes a byte of the KEY frame, or changes over. -/
theorem Issued.look (h : Issued k k' j s) (env : PicoEnv) :
    let s' := (wiredStep m hse api s (.look env)).1
    (j < 4 ∧ Issued k k' (j + 1) s' ∧ s'.pico = s.pico ∧ s'.dash = s.dash) ∨
      (j = 4 ∧ Apart m k k' s') := by
  obtain ⟨hawaits, hlines⟩ := h
  obtain ⟨c, line, hlook⟩ := hlines.look_cons m hse api env
  rcases hlook with ⟨hlt, hstep, hnext⟩ | ⟨heq, hstep, hnext⟩
  · rw [hstep]
    exact Or.inl ⟨hlt, ⟨hawaits, hnext⟩, rfl, rfl⟩
  · obtain ⟨hholds, hquiet⟩ := holds_handleKeyFrame (m := m) env k' s.pico
    rw [hstep]
    have hlines := hnext.unsent hquiet
    exact Or.inr ⟨heq, hholds, hawaits.key, hlines.toPico, [], 0, hlines.toDash,
      List.forall_mem_nil _⟩

/-! ## Apart -/

/-- The surroundings of the conversation that follows: looks, messages that fit a frame and
deadlines, but no command at the sender and no key at the receiver. -/
def WiredIn.Chats : WiredIn → Prop
  | .look _ | .pass _ | .timeout _ => True
  | .line env text => ¬ ascii "CMD:" <+: text ∧
      (autoCompress hse env.encoderAlloc text).2.length ≤ maxCtextLen
  | .key _ _ => False

/-- A message that the sender sends under its key cannot be read under another. -/
theorem unread_handleMessageLine {p : Pico} {key : Bytes 16}
    (hseals : m.SealsFrom p.sessionKey key) {env : PicoEnv} {text : List UInt8}
    (hfits : (autoCompress hse env.encoderAlloc text).2.length ≤ maxCtextLen) :
    ∃ gs : List LifiFrame,
      (handleMessageLine m hse env text p).2.flatMap PicoOut.lifiBytes =
          gs.flatMap LifiFrame.bytes ∧ ∀ g ∈ gs, UnreadUnder m key g := by
  simp only [handleMessageLine]
  split
  · exact ⟨[], rfl, List.forall_mem_nil _⟩
  · split
    · exact ⟨[], rfl, List.forall_mem_nil _⟩
    · rcases encryptAndSend_cases m (autoCompress hse env.encoderAlloc text).1
        (autoCompress hse env.encoderAlloc text).2 p with
        ⟨-, h⟩ | ⟨ciphertext, tag, hcrypt, h⟩
      · rw [h]
        exact ⟨[], rfl, List.forall_mem_nil _⟩
      · have hlen : ciphertext.toList.length ≤ maxCtextLen :=
          ciphertext.toList_length.trans_le hfits
        rw [h]
        refine ⟨[.data (autoCompress hse env.encoderAlloc text).1 (picoNonceGenerate p).1
          ⟨ciphertext.toList, hlen⟩ tag], ?_, List.forall_mem_singleton.mpr ?_⟩
        · rw [List.flatMap_singleton]
          exact List.append_nil _
        · exact hseals.rejects hcrypt

theorem sessionKey_handleMessageLine (env : PicoEnv) (text : List UInt8) {p : Pico}
    (hp : p.Holds k') : (handleMessageLine m hse env text p).1.Holds k' := by
  rcases handleMessageLine_cases m hse env text p with h | ⟨t, payload, h⟩
  · rw [h]
    exact hp
  · rw [h, encryptAndSend_fst]
    exact ⟨hp.keyId, hp.key, hp.macKey⟩

/-- Whatever happens, the two stay apart and the receiver is silent. -/
theorem Apart.step (hseals : m.SealsFrom k'.aesKey k.aesKey) (h : Apart m k k' s)
    {i : WiredIn} (hi : WiredIn.Chats hse i) :
    Apart m k k' (wiredStep m hse api s i).1 ∧
      ∀ o ∈ (wiredStep m hse api s i).2, ∀ d, o ≠ .dash d := by
  obtain ⟨hpico, hdash, htoPico, gs, j, htoDash, hunread⟩ := h
  have hlines : OnLines s [] 0 gs j := ⟨htoPico, htoDash⟩
  cases i with
  | look env =>
      rw [hlines.look_nil m hse api env]
      refine ⟨⟨hpico, hdash, htoPico, gs, j, htoDash, hunread⟩, ?_⟩
      exact List.forall_mem_singleton.mpr fun _ => WiredOut.noConfusion
  | line env text =>
      obtain ⟨hcmd, hfits⟩ := hi
      have hstep : wiredStep m hse api s (.line env text) =
          s.fromPico (handleMessageLine m hse env text s.pico) := by
        rw [wiredStep, handleLine, if_neg hcmd]
      have hkey : m.SealsFrom s.pico.sessionKey k.aesKey := by
        rw [hpico.key]
        exact hseals
      obtain ⟨sent, hsent, hall⟩ := unread_handleMessageLine hse hkey hfits
      rw [hstep]
      refine ⟨⟨sessionKey_handleMessageLine hse env text hpico, hdash, htoPico, gs ++ sent, j, ?_,
        ?_⟩, ?_⟩
      · have hput := htoDash.put sent
        have hline : (s.fromPico (handleMessageLine m hse env text s.pico)).1.toDash =
            s.toDash ++ sent.flatMap LifiFrame.bytes := congrArg (s.toDash ++ ·) hsent
        rw [hline]
        exact hput
      · intro g hg
        rcases List.mem_append.mp hg with hg | hg
        · exact hunread g hg
        · exact hall g hg
      · intro o ho
        obtain ⟨o, -, rfl⟩ := List.mem_map.mp ho
        exact fun _ => WiredOut.noConfusion
  | pass env =>
      by_cases hopen : s.dash.fdOpen = true
      · cases gs with
        | nil =>
            obtain ⟨r, hstep⟩ := hlines.pass_nil m hse api hopen env
            rw [hstep]
            refine ⟨⟨hpico, hdash, htoPico, [], j, htoDash, hunread⟩, ?_⟩
            exact List.forall_mem_singleton.mpr fun _ => WiredOut.noConfusion
        | cons g gs =>
            obtain ⟨hg, hgs⟩ := List.forall_mem_cons.mp hunread
            obtain ⟨c, line, hlook⟩ := hlines.pass_cons m hse api hopen env
            rcases hlook with ⟨-, ⟨r, hstep⟩, hnext⟩ | ⟨-, hstep, hnext⟩
            · rw [hstep]
              refine ⟨⟨hpico, hdash, hnext.toPico, g :: gs, j + 1, hnext.toDash, hunread⟩, ?_⟩
              exact List.forall_mem_singleton.mpr fun _ => WiredOut.noConfusion
            · cases g with
              | data t nonce ctext tag =>
                  have hfails : m.sstDecryptGcm s.dash.counted.sKey.aesKey nonce
                      (Bytes.ofList ctext.1) tag = none := hdash ▸ hg
                  obtain ⟨d', hrejected, hkey⟩ := handleData_rejects api (t := t) hfails env
                  have hhandled : handleFrame m api env
                      (LifiFrame.data t nonce ctext tag).received s.dash.counted = (d', []) :=
                    hrejected
                  have hafter := hnext.unwritten (r := (d', [])) rfl
                  rw [hstep, hhandled]
                  refine ⟨⟨hpico, hkey.trans hdash, hafter.toPico, gs, 0, hafter.toDash, hgs⟩, ?_⟩
                  exact List.forall_mem_singleton.mpr fun _ => WiredOut.noConfusion
              | keyIdOnly _ => exact hg.elim
              | sstHs2 _ => exact hg.elim
      · rw [wiredStep, if_neg hopen]
        exact ⟨⟨hpico, hdash, htoPico, gs, j, htoDash, hunread⟩, List.forall_mem_nil _⟩
  | key env pressed => exact hi.elim
  | timeout env =>
      have hafter := hlines.unwritten (r := (handleTimeout s.dash, [])) rfl
      have hkey : (handleTimeout s.dash).sKey = s.dash.sKey := by
        rw [handleTimeout]
        split
        all_goals rfl
      exact ⟨⟨hpico, hkey.trans hdash, hafter.toPico, gs, j, hafter.toDash, hunread⟩,
        List.forall_mem_nil _⟩

/-- However long they talk, the receiver is silent. -/
theorem Apart.run (hseals : m.SealsFrom k'.aesKey k.aesKey) (h : Apart m k k' s)
    {is : List WiredIn} (his : ∀ i ∈ is, WiredIn.Chats hse i) :
    Apart m k k' ((wired m hse api).run s is) ∧
      ∀ o ∈ (wired m hse api).trace s is, ∀ d, o ≠ .dash d := by
  induction is generalizing s with
  | nil => exact ⟨h, List.forall_mem_nil _⟩
  | cons i is ih =>
      obtain ⟨hi, his⟩ := List.forall_mem_cons.mp his
      obtain ⟨hnext, hsilent⟩ := h.step hse api hseals hi
      obtain ⟨hend, hrest⟩ := ih hnext his
      refine ⟨hend, ?_⟩
      intro o ho
      rcases List.mem_append.mp ho with ho | ho
      · exact hsilent o ho
      · exact hrest o ho

/-! ## From the request on -/

/-- Looks, with a new key as the answer of Auth. -/
def WiredIn.Fetches (k' : SessionKey) : WiredIn → Prop
  | .look _ => True
  | .pass env => env.Writes ∧ ∃ keys, env.sessionKeys = some (k' :: keys)
  | _ => False

/-- The stages of the update, with the turns that are left: those of a handshake from its
second message on. -/
inductive UpdateStage (m : Mbedtls) (k k' : SessionKey) : List Side → Wired → Prop
  | requested {nonce : Bytes 12} {j : ℕ} {s : Wired} (h : Requested m k nonce j s) :
      UpdateStage m k k' (repliedTurns j) s
  | issued {j : ℕ} {s : Wired} (h : Issued k k' j s) : UpdateStage m k k' (echoedTurns j) s
  | apart {s : Wired} (h : Apart m k k' s) : UpdateStage m k k' [] s

variable {ts : List Side}

theorem UpdateStage.look (hseals : m.SealsFrom k'.aesKey k.aesKey)
    (h : UpdateStage m k k' ts s) (env : PicoEnv) :
    UpdateStage m k k' (Machine.afterTurn .sender ts)
      (wiredStep m hse api s (.look env)).1 := by
  cases h with
  | @requested nonce j _ h =>
      obtain ⟨hkey, hvalid, hopen, hfresh, ctext, tag, decrypted, hlines, hrest⟩ := h
      have hj : j < 5 := Nat.lt_succ_of_le hlines.toDash.le_depth
      rw [hlines.look_nil m hse api env, repliedTurns, afterTurn_passed (by decide) hj]
      exact .requested ⟨hkey, hvalid, hopen, hfresh, ctext, tag, decrypted, hlines, hrest⟩
  | @issued j _ h =>
      have hj : j < 5 := Nat.lt_succ_of_le h.lines.toPico.le_depth
      have hturns := afterTurn_taken (x := Side.sender) hj []
      rw [List.append_nil, List.append_nil] at hturns
      rw [echoedTurns, hturns]
      rcases h.look (m := m) hse api env with ⟨-, hnext, -⟩ | ⟨rfl, hnext⟩
      · exact .issued hnext
      · exact .apart hnext
  | apart h => exact .apart (h.step hse api hseals (i := .look env) trivial).1

theorem UpdateStage.pass (hseals : m.SealsFrom k'.aesKey k.aesKey)
    (h : UpdateStage m k k' ts s) {env : DashEnv} (hwrites : env.Writes)
    {keys : List SessionKey} (hkeys : env.sessionKeys = some (k' :: keys)) :
    UpdateStage m k k' (Machine.afterTurn .receiver ts)
      (wiredStep m hse api s (.pass env)).1 := by
  cases h with
  | @requested nonce j _ h =>
      obtain ⟨-, hstep⟩ := h.pass hse api hwrites hkeys
      have hj : j < 5 := by
        rcases hstep with ⟨hlt, -⟩ | ⟨rfl, -⟩
        · omega
        · decide
      rw [repliedTurns, afterTurn_taken hj]
      rcases hstep with ⟨-, hnext, -⟩ | ⟨rfl, hnext, -⟩
      · exact .requested hnext
      · exact .issued hnext
  | @issued j _ h =>
      have hj : j < 5 := Nat.lt_succ_of_le h.lines.toPico.le_depth
      have hne : Side.receiver ≠ .sender := by decide
      have hturns := afterTurn_passed hne hj []
      rw [List.append_nil] at hturns
      obtain ⟨r, hstep⟩ := h.lines.pass_nil m hse api h.awaits.fdOpen env
      rw [echoedTurns, hturns, hstep]
      exact .issued h
  | apart h => exact .apart (h.step hse api hseals (i := .pass env) trivial).1

/-- A short message typed at a sender in session goes out as a frame that the receiver can
read. -/
theorem typed_in_session (hm : m.Lawful) (htotal : m.Total)
    (hsession : InSession s.pico s.dash) (env : PicoEnv) (text : List UInt8)
    (hcmd : ¬ ascii "CMD:" <+: text) (hshort : text.length ≤ 128) :
    ∃ ctext tag decrypted r,
      wiredStep m hse api s (.line env text) = s.fromPico ((picoNonceGenerate s.pico).2, r) ∧
        r.flatMap PicoOut.lifiBytes =
          (LifiFrame.data .encrypted (picoNonceGenerate s.pico).1 ctext tag).bytes ∧
        m.sstDecryptGcm s.dash.sKey.aesKey (picoNonceGenerate s.pico).1
          (Bytes.ofList ctext.1) tag = some decrypted ∧ decrypted.toList = text := by
  have hplain : autoCompress hse env.encoderAlloc text = (.encrypted, text) := by
    rw [autoCompress, if_neg (fun h => absurd h.1 (Nat.not_lt_of_le hshort))]
  have hbuf : ¬ text.length > msgBufSize := by
    have hmax : 128 ≤ msgBufSize := by decide
    omega
  have hsend : handleLine m hse env text s.pico = encryptAndSend m .encrypted text s.pico := by
    rw [handleLine, if_neg hcmd, handleMessageLine, hplain]
    simp only [if_neg hbuf, hsession.usable, Bool.false_eq_true, if_false]
  rcases encryptAndSend_cases m .encrypted text s.pico with
    ⟨hnone, -⟩ | ⟨ciphertext, tag, hcrypt, hout⟩
  · have hsome := htotal.gcm_encrypt s.pico.sessionKey (picoNonceGenerate s.pico).1
      (Bytes.ofList text)
    rw [Mbedtls.sstEncryptGcm] at hnone
    rw [hnone] at hsome
    cases hsome
  · rw [← hsession.same] at hcrypt
    obtain ⟨decrypted, hdec, htext⟩ := hm.gcm_decrypt_toList hcrypt
    have hlen : ciphertext.toList.length ≤ maxCtextLen := by
      have hmax : 128 ≤ maxCtextLen := by decide
      rw [ciphertext.toList_length]
      omega
    refine ⟨⟨ciphertext.toList, hlen⟩, tag, decrypted,
      (encryptAndSend m .encrypted text s.pico).2, ?_, ?_, hdec, htext⟩
    · have hstep : wiredStep m hse api s (.line env text) =
          s.fromPico (encryptAndSend m .encrypted text s.pico) := congrArg s.fromPico hsend
      rw [hstep, ← encryptAndSend_fst]
    · rw [hout]
      exact List.append_nil _

/-- Typed at a sender in session, `new key -f` becomes a request that can be read. -/
theorem requested_newKeyForced (hm : m.Lawful) (htotal : m.Total) (hs : s.Drained)
    (hopen : s.dash.fdOpen = true) (hsession : InSession s.pico s.dash) (env : PicoEnv) :
    let s' := (wiredStep m hse api s (.line env (ascii "new key -f"))).1
    Requested m s.dash.sKey (picoNonceGenerate s.pico).1 0 s' ∧
      s'.pico = (picoNonceGenerate s.pico).2 ∧ s'.dash = s.dash := by
  obtain ⟨ctext, tag, decrypted, r, hstep, hbytes, hdec, htext⟩ :=
    typed_in_session hse api hm htotal hsession env (ascii "new key -f") (by decide)
      (by decide)
  rw [hstep]
  exact ⟨⟨rfl, hsession.valid, hopen, hsession.fresh, ctext, tag, decrypted,
    hs.onLines.sent hbytes, hdec, htext⟩, rfl, rfl⟩

/-- `new key -f` in session: once receiver and sender have had five looks each, the sender
holds the new key and the receiver the old one, and in whatever follows at the two, short of
a command or a key press, the receiver hears nothing: no `ACK` is ever accepted. -/
theorem forced_update_splits (hm : m.Lawful) (htotal : m.Total)
    (hseals : m.SealsFrom k'.aesKey s.dash.sKey.aesKey) (hs : s.Drained)
    (hopen : s.dash.fdOpen = true) (hsession : InSession s.pico s.dash) (env : PicoEnv)
    {first later : List WiredIn}
    (hfirst : ∀ i ∈ first, i.Fetches k')
    (hturns : (repliedTurns 0).Sublist (first.map WiredIn.side))
    (hlater : ∀ i ∈ later, WiredIn.Chats hse i) :
    let s₁ := (wired m hse api).run s (.line env (ascii "new key -f") :: first)
    let s₂ := (wired m hse api).run s₁ later
    s₁.pico.Holds k' ∧ s₂.pico.Holds k' ∧ s₂.dash.sKey = s.dash.sKey ∧
      ∀ o ∈ (wired m hse api).trace s₁ later, ∀ d, o ≠ .dash d := by
  intro s₁ s₂
  obtain ⟨hrequested, -, -⟩ := requested_newKeyForced hse api hm htotal hs hopen hsession env
  have hstage : UpdateStage m s.dash.sKey k' [] s₁ := by
    have hrun : s₁ = (wired m hse api).run
        (wiredStep m hse api s (.line env (ascii "new key -f"))).1 first := rfl
    rw [hrun]
    refine Machine.past_turns (M := wired m hse api) WiredIn.side
      (P := fun ts _ s' => UpdateStage m s.dash.sKey k' ts s') (t := []) ?_
      (.requested hrequested) hturns
    intro ts t s' i hi h
    cases i with
    | look env => exact h.look hse api hseals env
    | pass env =>
        obtain ⟨hwrites, keys, hkeys⟩ := hfirst _ hi
        exact h.pass hse api hseals hwrites hkeys
    | line env text => exact (hfirst _ hi).elim
    | key env key => exact (hfirst _ hi).elim
    | timeout env => exact (hfirst _ hi).elim
  have hapart : Apart m s.dash.sKey k' s₁ := by
    generalize hts : ([] : List Side) = ts at hstage
    cases hstage with
    | apart h => exact h
    | requested _ => simp [repliedTurns, echoedTurns] at hts
    | @issued j _ h =>
        have hj : j < 5 := Nat.lt_succ_of_le h.lines.toPico.le_depth
        have hempty := congrArg List.length hts
        rw [echoedTurns, List.length_replicate, List.length_nil] at hempty
        omega
  obtain ⟨hend, hsilent⟩ := hapart.run hse api hseals hlater
  exact ⟨hapart.pico, hend.pico, hend.dash, hsilent⟩

end

/-- The sender says `ACK`, the receiver listens and then gives up. -/
def lateAck : List WiredIn :=
  .line .salted (ascii "ACK") ::
    (List.replicate 5 (.pass DashEnv.bare) ++ [.timeout DashEnv.bare])

theorem forced_update_splits_lateAck :
    let s₁ := openWire.run wiredStart
      (.line .salted (ascii "new key -f") :: bothLook 10)
    s₁.pico.Holds otherKey ∧ (openWire.run s₁ lateAck).dash.sKey = sharedKey ∧
      ∀ o ∈ openWire.trace s₁ lateAck, ∀ d, o ≠ .dash d := by
  have hfirst : ∀ i ∈ bothLook 10, i.Fetches otherKey := by
    intro i hi
    obtain ⟨l, hl, hi⟩ := List.mem_flatten.mp hi
    rw [List.eq_of_mem_replicate hl] at hi
    rcases List.mem_pair.mp hi with rfl | rfl
    · trivial
    · exact ⟨writes_bare, [], rfl⟩
  have hlater : ∀ i ∈ lateAck, WiredIn.Chats .idle i := by
    refine List.forall_mem_cons.mpr ⟨⟨by decide, by decide⟩, ?_⟩
    intro i hi
    rcases List.mem_append.mp hi with hi | hi
    · rw [List.eq_of_mem_replicate hi]
      trivial
    · rw [List.mem_singleton.mp hi]
      trivial
  have hturns : (repliedTurns 0).Sublist ((bothLook 10).map WiredIn.side) := by
    decide +kernel
  have hseals : Mbedtls.transparent.SealsFrom otherKey.aesKey sharedKey.aesKey :=
    Mbedtls.sealsFrom_transparent (by decide)
  obtain ⟨hpico, -, hdash, hsilent⟩ := forced_update_splits .idle (SstApi.reference _)
    Mbedtls.lawful_transparent Mbedtls.total_transparent hseals drained_wiredStart rfl
    inSession_bothKeyed .salted hfirst hturns hlater
  exact ⟨hpico, hdash, hsilent⟩

end LifiAuth
