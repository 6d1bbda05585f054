import LifiAuth.System.HandshakeRun

/-!
# One cipher key and two MAC keys

Sender and receiver wired to each other with the same cipher key and different MAC keys:
messages pass, and a handshake gets no further than its first message.
-/

namespace LifiAuth

open Support

/-- A tag under the first key is not the tag under the second. -/
def Mbedtls.TagsApart (m : Mbedtls) (key key' : Bytes 32) : Prop :=
  ∀ input mac, m.mdHmac key input = some mac → m.mdHmac key' input ≠ some mac

theorem Mbedtls.tagsApart_transparent {key key' : Bytes 32} (hne : key ≠ key') :
    Mbedtls.transparent.TagsApart key key' := by
  intro input mac h h'
  exact hne ((Option.some.inj h).trans (Option.some.inj h').symm)

section

variable (m : Mbedtls)

/-- A first message with a tag under the key. -/
def MacedUnder (macKey : Bytes 32) : PicoFrame → Prop
  | .hs1 hs1 => m.sstHmacSha256Ex macKey (hs1Body hs1).toList = some (hs1Mac hs1)
  | _ => False

/-- A message that is not a request for a key. -/
def NoRequest (key : Bytes 16) : LifiFrame → Prop
  | .data .file _ _ _ => True
  | .data .encrypted nonce ctext tag => ∀ decrypted,
      m.sstDecryptGcm key nonce (Bytes.ofList ctext.1) tag = some decrypted →
        cstr decrypted.toList ≠ ascii "new key -f"
  | _ => False

/-- The two have the same cipher key, and the tags of the one do not verify at the other. -/
structure MacSplit (s : Wired) : Prop where
  same : s.dash.sKey.aesKey = s.pico.sessionKey
  apart : m.TagsApart s.dash.sKey.macKey s.pico.sessionMacKey
  notWaiting : s.dash.state ≠ .waitingForAck
  toPico : ∃ fs j, picoParser.Holds s.challengeState s.toPico fs j ∧
    ∀ f ∈ fs, MacedUnder m s.dash.sKey.macKey f
  toDash : ∃ gs j, dashParser.Holds s.uartState s.toDash gs j ∧
    ∀ g ∈ gs, NoRequest m s.dash.sKey.aesKey g

end

/-- An output that is no progress of a handshake: at most a first message. -/
def WiredOut.Unanswered (o : WiredOut) : Prop :=
  o.milestone = true → ∃ key nonce hs1, o = .dash (.hs1Made key nonce hs1)

/-- Looks, messages, deadlines and key `2`; nobody asks for another key. -/
def WiredIn.Tries (hse : HeatshrinkEncoder) : WiredIn → Prop
  | .look _ | .timeout _ => True
  | .line env text => ¬ ascii "CMD:" <+: text ∧ cstr text ≠ ascii "new key -f" ∧
      (autoCompress hse env.encoderAlloc text).2.length ≤ maxCtextLen
  | .pass env => env.Writes
  | .key env pressed => env.Writes ∧ pressed = .two

section

variable {m : Mbedtls} (hse : HeatshrinkEncoder) (api : SstApi) {s : Wired}

/-! ## The receiver's part -/

/-- What a step of the receiver may do while the MAC keys differ. -/
structure Tried (m : Mbedtls) (d : Dash) (r : Dash × List DashOut) : Prop where
  key : r.1.sKey = d.sKey
  notWaiting : d.state ≠ .waitingForAck → r.1.state ≠ .waitingForAck
  frames : ∃ fs : List PicoFrame, r.2.flatMap DashOut.txBytes = fs.flatMap PicoFrame.bytes ∧
    ∀ f ∈ fs, MacedUnder m d.sKey.macKey f
  unanswered : ∀ o ∈ r.2, (WiredOut.dash o).Unanswered

theorem tried_refl (d : Dash) : Tried m d (d, []) :=
  ⟨rfl, id, ⟨[], rfl, List.forall_mem_nil _⟩, List.forall_mem_nil _⟩

theorem unanswered_hs1Made (key : SessionKey) (nonce : Bytes 8) (hs1 : List UInt8) :
    (WiredOut.dash (.hs1Made key nonce hs1)).Unanswered :=
  fun _ => ⟨key, nonce, hs1, rfl⟩

theorem unanswered_of_not_milestone {o : WiredOut} (h : o.milestone = false) :
    o.Unanswered := fun htrue => absurd (h.symm.trans htrue) Bool.false_ne_true

theorem tried_startHandshake (hapi : api.Lawful m) {env : DashEnv} (hwrites : env.Writes)
    (d : Dash) : Tried m d (startHandshake api env d) := by
  cases hparse : api.parseHandshake1 d.sKey env.hs with
  | mk made nonce =>
      cases made with
      | none =>
          have hstart : startHandshake api env d = ({ d with sstEntityNonce := nonce }, []) := by
            simp only [startHandshake, hparse]
          rw [hstart]
          exact ⟨rfl, id, ⟨[], rfl, List.forall_mem_nil _⟩, List.forall_mem_nil _⟩
      | some hs1 =>
          obtain ⟨rfl, ctext, mac, -, hmac, rfl⟩ := hapi.parse _ _ _ _ hparse
          have hlen : (hs1Message d.sKey.keyId env.hs.iv ctext mac).toList.length =
              sstHs1PayloadSize := List.Vector.toList_length _
          have hstart : startHandshake api env d =
              ({ d with sstEntityNonce := env.hs.nonce, state := .waitingForSstHs2 },
                [.hs1Made d.sKey env.hs.nonce
                  (hs1Message d.sKey.keyId env.hs.iv ctext mac).toList,
                  .tx (PicoFrame.hs1 (hs1Message d.sKey.keyId env.hs.iv ctext mac)).bytes]) := by
            simp only [startHandshake, hparse]
            rw [if_neg (not_not_intro hlen), writeChain_of_writes hwrites, if_pos rfl, hlen]
            simp [PicoFrame.bytes]
          have hbody : hs1Body (hs1Message d.sKey.keyId env.hs.iv ctext mac) =
              env.hs.iv.append ctext := by
            rw [hs1Body, hs1Iv_hs1Message, hs1Ctext_hs1Message]
          rw [hstart]
          refine ⟨rfl, fun _ => ReceiverState.noConfusion,
            ⟨[.hs1 (hs1Message d.sKey.keyId env.hs.iv ctext mac)], rfl,
              List.forall_mem_singleton.mpr ?_⟩, ?_⟩
          · rw [MacedUnder, hbody, hs1Mac_hs1Message]
            exact hmac
          · exact List.forall_mem_cons.mpr ⟨unanswered_hs1Made _ _ _,
              List.forall_mem_singleton.mpr (unanswered_of_not_milestone rfl)⟩

theorem tried_handleVerifyKey (hapi : api.Lawful m) {env : DashEnv} (hwrites : env.Writes)
    (d : Dash) : Tried m d (handleVerifyKey api env d) := by
  rw [handleVerifyKey]
  split
  · exact tried_startHandshake api hapi hwrites d
  · exact tried_refl d

/-- A message that asks for no key. -/
theorem tried_handleMessage (hapi : api.Lawful m) {env : DashEnv} (hwrites : env.Writes)
    {d : Dash} (hwaiting : d.state ≠ .waitingForAck) {text : List UInt8}
    (htext : cstr text ≠ ascii "new key -f") : Tried m d (handleMessage api env text d) := by
  simp only [handleMessage]
  rw [if_neg htext]
  split
  · exact tried_refl d
  · split
    · have hkept : Tried m d (handleNewKey env d, []) := by
        rw [handleNewKey]
        split
        · exact tried_refl d
        · exact ⟨rfl, fun _ => ReceiverState.noConfusion, ⟨[], rfl, List.forall_mem_nil _⟩,
            List.forall_mem_nil _⟩
      exact hkept
    · split
      · next hack => exact absurd hack.1 hwaiting
      · split
        · exact tried_handleVerifyKey api hapi hwrites d
        · exact tried_refl d

theorem Tried.of_eq {d d' : Dash} {r : Dash × List DashOut} (h : Tried m d r)
    (hkey : d.sKey = d'.sKey) (hstate : d.state = d'.state) : Tried m d' r where
  key := h.key.trans hkey
  notWaiting := hstate ▸ h.notWaiting
  frames := hkey ▸ h.frames
  unanswered := h.unanswered

/-- A data frame that asks for no key. -/
theorem tried_handleData (hapi : api.Lawful m) {env : DashEnv} (hwrites : env.Writes)
    {d : Dash} (hwaiting : d.state ≠ .waitingForAck) {t : DataType} {nonce : Bytes 12}
    {ctext : Ctext} {tag : Bytes 16}
    (hframe : NoRequest m d.sKey.aesKey (.data t nonce ctext tag)) :
    Tried m d (handleData m api env t nonce ctext tag d) := by
  rw [handleData]
  split
  · exact ⟨rfl, id, ⟨[], rfl, List.forall_mem_nil _⟩, List.forall_mem_nil _⟩
  · rw [decryptData]
    split
    · cases hdec : m.sstDecryptGcm (d.record nonce).sKey.aesKey nonce (Bytes.ofList ctext.1)
          tag with
      | none => exact ⟨rfl, id, ⟨[], rfl, List.forall_mem_nil _⟩, List.forall_mem_nil _⟩
      | some decrypted =>
          have hacted : Tried m d
              (handleDecrypted api env t decrypted.toList (d.record nonce)) := by
            cases t with
            | file => exact ⟨rfl, id, ⟨[], rfl, List.forall_mem_nil _⟩, List.forall_mem_nil _⟩
            | encrypted =>
                have htext : cstr decrypted.toList ≠ ascii "new key -f" := hframe decrypted hdec
                have hrecorded : (d.record nonce).state ≠ .waitingForAck := hwaiting
                have hmessage := tried_handleMessage api hapi hwrites hrecorded htext
                exact hmessage.of_eq rfl rfl
          obtain ⟨hkey, hstate, hframes, hunanswered⟩ := hacted
          refine ⟨hkey, hstate, hframes, List.forall_mem_cons.mpr ⟨?_, hunanswered⟩⟩
          exact unanswered_of_not_milestone rfl
    · exact ⟨rfl, id, ⟨[], rfl, List.forall_mem_nil _⟩, List.forall_mem_nil _⟩

/-- Only data frames come in, and none asks for a key. -/
theorem tried_handleFrame (hapi : api.Lawful m) {env : DashEnv} (hwrites : env.Writes)
    {d : Dash} (hwaiting : d.state ≠ .waitingForAck) {g : LifiFrame}
    (hframe : NoRequest m d.sKey.aesKey g) :
    Tried m d (handleFrame m api env g.received d) := by
  cases g with
  | data t nonce ctext tag => exact tried_handleData api hapi hwrites hwaiting hframe
  | keyIdOnly _ => exact hframe.elim
  | sstHs2 _ => exact hframe.elim

/-! ## The sender's part -/

/-- A message is no answer to a handshake. -/
theorem unanswered_handleMessageLine (env : PicoEnv) (text : List UInt8) (p : Pico) :
    ∀ o ∈ (handleMessageLine m hse env text p).2, (WiredOut.pico o).Unanswered := by
  rcases handleMessageLine_cases m hse env text p with h | ⟨t, payload, h⟩
  · rw [h]
    exact List.forall_mem_nil _
  · rw [h]
    rcases encryptAndSend_cases m t payload p with ⟨-, h⟩ | ⟨ciphertext, tag, -, h⟩
    · rw [h]
      exact List.forall_mem_singleton.mpr (unanswered_of_not_milestone rfl)
    · rw [h]
      exact List.forall_mem_cons.mpr ⟨unanswered_of_not_milestone rfl,
        List.forall_mem_singleton.mpr (unanswered_of_not_milestone rfl)⟩

/-- What is typed asks for no key once it has been sent. -/
theorem noRequest_handleMessageLine (hm : m.Lawful) {p : Pico} {key : Bytes 16}
    (hkey : key = p.sessionKey) {env : PicoEnv} {text : List UInt8}
    (htext : cstr text ≠ ascii "new key -f")
    (hfits : (autoCompress hse env.encoderAlloc text).2.length ≤ maxCtextLen) :
    ∃ gs : List LifiFrame,
      (handleMessageLine m hse env text p).2.flatMap PicoOut.lifiBytes =
          gs.flatMap LifiFrame.bytes ∧ ∀ g ∈ gs, NoRequest m key g := by
  have htyped : (autoCompress hse env.encoderAlloc text).1 = .encrypted →
      (autoCompress hse env.encoderAlloc text).2 = text :=
    autoCompress_encrypted env.encoderAlloc text
  simp only [handleMessageLine]
  generalize autoCompress hse env.encoderAlloc text = r at hfits htyped
  obtain ⟨t, payload⟩ := r
  simp only
  split
  · exact ⟨[], rfl, List.forall_mem_nil _⟩
  · split
    · exact ⟨[], rfl, List.forall_mem_nil _⟩
    · rcases encryptAndSend_cases m t payload p with ⟨-, h⟩ | ⟨ciphertext, tag, hcrypt, h⟩
      · rw [h]
        exact ⟨[], rfl, List.forall_mem_nil _⟩
      · have hlen : ciphertext.toList.length ≤ maxCtextLen :=
          ciphertext.toList_length.trans_le hfits
        rw [h]
        refine ⟨[.data t (picoNonceGenerate p).1 ⟨ciphertext.toList, hlen⟩ tag], ?_,
          List.forall_mem_singleton.mpr ?_⟩
        · rw [List.flatMap_singleton]
          exact List.append_nil _
        · cases t with
          | file => trivial
          | encrypted =>
              intro decrypted hdec
              obtain ⟨opened, hopened, hplain⟩ := hm.gcm_decrypt_toList hcrypt
              rw [hkey] at hdec
              obtain rfl := Option.some.inj (hopened.symm.trans hdec)
              have hpayload : payload = text := htyped rfl
              rw [hplain, hpayload]
              exact htext

/-- A first message with another tag is passed over. -/
theorem handleHs1_of_macedUnder {p : Pico} {macKey : Bytes 32}
    (hapart : m.TagsApart macKey p.sessionMacKey) {hs1 : Bytes 72}
    (h : MacedUnder m macKey (.hs1 hs1)) (env : PicoEnv) : handleHs1 m env hs1 p = (p, []) := by
  have hmac : m.sstHmacSha256Ex p.sessionMacKey (hs1Body hs1).toList ≠ some (hs1Mac hs1) :=
    hapart _ _ h
  have hopen : openHs1 m hs1 p = none := by
    rw [openHs1, if_pos hmac, ite_self]
  rw [handleHs1, hopen]

/-! ## Steps and runs -/

/-- What the receiver may do leaves the two split. -/
theorem MacSplit.fromDash (h : MacSplit m s) {r : Dash × List DashOut}
    (hr : Tried m s.dash r) :
    MacSplit m (s.fromDash r).1 ∧ ∀ o ∈ (s.fromDash r).2, o.Unanswered := by
  obtain ⟨hsame, hapart, hwaiting, ⟨fs, j, hfs, hmaced⟩, gs, j', hgs, hharmless⟩ := h
  obtain ⟨hkey, hstate, ⟨written, hwritten, hmaced'⟩, hunanswered⟩ := hr
  have hline : (s.fromDash r).1.toPico = s.toPico ++ written.flatMap PicoFrame.bytes :=
    congrArg (s.toPico ++ ·) hwritten
  have hdash : (s.fromDash r).1.dash.sKey = s.dash.sKey := hkey
  refine ⟨⟨?_, ?_, hstate hwaiting, ⟨fs ++ written, j, ?_, ?_⟩, gs, j', hgs, ?_⟩, ?_⟩
  · rw [hdash]
    exact hsame
  · rw [hdash]
    exact hapart
  · rw [hline]
    exact hfs.put written
  · rw [hdash]
    exact List.forall_mem_append.mpr ⟨hmaced, hmaced'⟩
  · rw [hdash]
    exact hharmless
  · intro o ho
    obtain ⟨o', ho', rfl⟩ := List.mem_map.mp ho
    exact hunanswered o' ho'

theorem MacSplit.step (hm : m.Lawful) (hapi : api.Lawful m)
    (h : MacSplit m s) {i : WiredIn} (hi : WiredIn.Tries hse i) :
    MacSplit m (wiredStep m hse api s i).1 ∧
      ∀ o ∈ (wiredStep m hse api s i).2, o.Unanswered := by
  cases i with
  | look env =>
      obtain ⟨hsame, hapart, hwaiting, ⟨fs, j, hfs, hmaced⟩, gs, j', hgs, hharmless⟩ := h
      have hlines : OnLines s fs j gs j' := ⟨hfs, hgs⟩
      cases fs with
      | nil =>
          rw [hlines.look_nil m hse api env]
          exact ⟨⟨hsame, hapart, hwaiting, ⟨[], j, hfs, hmaced⟩, gs, j', hgs, hharmless⟩,
            List.forall_mem_singleton.mpr (unanswered_of_not_milestone rfl)⟩
      | cons f fs =>
          obtain ⟨hf, hrest⟩ := List.forall_mem_cons.mp hmaced
          obtain ⟨c, line, hlook⟩ := hlines.look_cons m hse api env
          rcases hlook with ⟨-, hstep, hnext⟩ | ⟨-, hstep, hnext⟩
          · rw [hstep]
            exact ⟨⟨hsame, hapart, hwaiting, ⟨f :: fs, j + 1, hnext.toPico, hmaced⟩, gs, j',
              hnext.toDash, hharmless⟩,
              List.forall_mem_singleton.mpr (unanswered_of_not_milestone rfl)⟩
          · cases f with
            | hs1 hs1 =>
                have hpassed : handlePicoReport m env (PicoFrame.hs1 hs1).report s.pico =
                    (s.pico, []) := handleHs1_of_macedUnder hapart hf env
                have hafter := hnext.unsent (r := (s.pico, [])) rfl
                rw [hstep, hpassed]
                exact ⟨⟨hsame, hapart, hwaiting, ⟨fs, 0, hafter.toPico, hrest⟩, gs, j',
                  hafter.toDash, hharmless⟩,
                  List.forall_mem_singleton.mpr (unanswered_of_not_milestone rfl)⟩
            | hs3 _ => exact hf.elim
            | key _ _ _ => exact hf.elim
  | line env text =>
      obtain ⟨hsame, hapart, hwaiting, ⟨fs, j, hfs, hmaced⟩, gs, j', hgs, hharmless⟩ := h
      obtain ⟨hcmd, htext, hfits⟩ := hi
      have hstep : wiredStep m hse api s (.line env text) =
          s.fromPico (handleMessageLine m hse env text s.pico) := by
        rw [wiredStep, handleLine, if_neg hcmd]
      obtain ⟨sent, hsent, hall⟩ :=
        noRequest_handleMessageLine hse hm hsame htext hfits
      have hline : (s.fromPico (handleMessageLine m hse env text s.pico)).1.toDash =
          s.toDash ++ sent.flatMap LifiFrame.bytes := congrArg (s.toDash ++ ·) hsent
      have hkeys : (handleMessageLine m hse env text s.pico).1.sessionKey =
          s.pico.sessionKey ∧
          (handleMessageLine m hse env text s.pico).1.sessionMacKey =
            s.pico.sessionMacKey := by
        rcases handleMessageLine_cases m hse env text s.pico with h | ⟨t, payload, h⟩
        · rw [h]
          exact ⟨rfl, rfl⟩
        · rw [h, encryptAndSend_fst]
          exact ⟨rfl, rfl⟩
      rw [hstep]
      refine ⟨⟨hsame.trans hkeys.1.symm, ?_, hwaiting, ⟨fs, j, hfs, hmaced⟩, gs ++ sent, j', ?_,
        List.forall_mem_append.mpr ⟨hharmless, hall⟩⟩, ?_⟩
      · have hmac : (s.fromPico (handleMessageLine m hse env text s.pico)).1.pico.sessionMacKey =
            s.pico.sessionMacKey := hkeys.2
        rw [hmac]
        exact hapart
      · rw [hline]
        exact hgs.put sent
      · intro o ho
        obtain ⟨o', ho', rfl⟩ := List.mem_map.mp ho
        exact unanswered_handleMessageLine hse env text s.pico o' ho'
  | pass env =>
      by_cases hopen : s.dash.fdOpen = true
      · obtain ⟨hsame, hapart, hwaiting, ⟨fs, j, hfs, hmaced⟩, gs, j', hgs, hharmless⟩ := h
        have hlines : OnLines s fs j gs j' := ⟨hfs, hgs⟩
        cases gs with
        | nil =>
            obtain ⟨r, hstep⟩ := hlines.pass_nil m hse api hopen env
            rw [hstep]
            exact ⟨⟨hsame, hapart, hwaiting, ⟨fs, j, hfs, hmaced⟩, [], j', hgs, hharmless⟩,
              List.forall_mem_singleton.mpr (unanswered_of_not_milestone rfl)⟩
        | cons g gs =>
            obtain ⟨hg, hrest⟩ := List.forall_mem_cons.mp hharmless
            obtain ⟨c, line, hlook⟩ := hlines.pass_cons m hse api hopen env
            rcases hlook with ⟨-, ⟨r, hstep⟩, hnext⟩ | ⟨-, hstep, hnext⟩
            · rw [hstep]
              exact ⟨⟨hsame, hapart, hwaiting, ⟨fs, j, hnext.toPico, hmaced⟩, g :: gs, j' + 1,
                hnext.toDash, hharmless⟩,
                List.forall_mem_singleton.mpr (unanswered_of_not_milestone rfl)⟩
            · have htried := tried_handleFrame api hapi hi (d := s.dash.counted) hwaiting hg
              have htaken : MacSplit m { s with uartState := c, toDash := line } :=
                ⟨hsame, hapart, hwaiting, ⟨fs, j, hnext.toPico, hmaced⟩, gs, 0, hnext.toDash,
                  hrest⟩
              obtain ⟨hafter, hunanswered⟩ := htaken.fromDash (htried.of_eq rfl rfl)
              rw [hstep]
              exact ⟨hafter, List.forall_mem_cons.mpr
                ⟨unanswered_of_not_milestone rfl, hunanswered⟩⟩
      · rw [wiredStep, if_neg hopen]
        exact ⟨h, List.forall_mem_nil _⟩
  | key env pressed =>
      obtain ⟨hwrites, rfl⟩ := hi
      have htried : Tried m s.dash (handleKey api env .two s.dash) := by
        simp only [handleKey]
        split
        · exact tried_startHandshake api hapi hwrites s.dash
        · exact tried_refl s.dash
      exact h.fromDash htried
  | timeout env =>
      have htried : Tried m s.dash (handleTimeout s.dash, []) := by
        rw [handleTimeout]
        split
        · exact tried_refl s.dash
        all_goals exact ⟨rfl, fun _ => ReceiverState.noConfusion,
          ⟨[], rfl, List.forall_mem_nil _⟩, List.forall_mem_nil _⟩
      exact h.fromDash htried

/-- Whatever is tried, it comes to no handshake. -/
theorem MacSplit.run (hm : m.Lawful) (hapi : api.Lawful m) (h : MacSplit m s)
    {is : List WiredIn} (his : ∀ i ∈ is, WiredIn.Tries hse i) :
    MacSplit m ((wired m hse api).run s is) ∧
      ∀ o ∈ (wired m hse api).trace s is, o.Unanswered := by
  induction is generalizing s with
  | nil => exact ⟨h, List.forall_mem_nil _⟩
  | cons i is ih =>
      obtain ⟨hi, his⟩ := List.forall_mem_cons.mp his
      obtain ⟨hnext, hunanswered⟩ := h.step hse api hm hapi hi
      obtain ⟨hend, hrest⟩ := ih hnext his
      exact ⟨hend, List.forall_mem_append.mpr ⟨hunanswered, hrest⟩⟩

end

end LifiAuth
