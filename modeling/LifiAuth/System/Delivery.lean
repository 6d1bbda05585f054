import LifiAuth.System.SessionFidelity
import LifiAuth.System.UpdateRun

/-!
# What is typed arrives

Sender and receiver in session, wired to each other.  However typed lines, looks, deadlines
and the handshakes that the receiver starts are interleaved, the receiver accepts every
message once and in the order in which they were typed: none is lost on the way, none is
taken for a replay of another, and no handshake gets in between.
-/

namespace LifiAuth

open Support

/-- What a line is sent as. -/
def WiredIn.typed (hse : HeatshrinkEncoder) : WiredIn → Option (DataType × List UInt8)
  | .line env text => some (autoCompress hse env.encoderAlloc text)
  | .look _ | .pass _ | .key _ _ | .timeout _ => none

/-- What the receiver has decrypted. -/
def DashOut.delivered : DashOut → Option (DataType × List UInt8)
  | .accepted _ t _ _ _ decrypted => some (t, decrypted)
  | _ => none

def WiredOut.delivered : WiredOut → Option (DataType × List UInt8)
  | .dash o => o.delivered
  | _ => none

/-- Looks, deadlines, messages that fit a frame, and handshakes: nothing that changes the
key on one side. -/
def WiredIn.KeepsSession (hse : HeatshrinkEncoder) : WiredIn → Prop
  | .look _ | .timeout _ => True
  | .line env text => ¬ ascii "CMD:" <+: text ∧ cstr text ≠ ascii "new key -f" ∧
      (autoCompress hse env.encoderAlloc text).2.length ≤ maxCtextLen
  | .pass env => env.Writes
  | .key env pressed => env.Writes ∧ (pressed = .two ∨ pressed = .c)

/-! ## Messages on the light link -/

/-- A message that has been sent: its counter, how it was sent and what it says. -/
structure Message where
  ctr : UInt32
  type : DataType
  payload : List UInt8

/-- The frame carries the message under the key. -/
def Bears (m : Mbedtls) (key : Bytes 16) (salt : Bytes 8) (msg : Message) (g : LifiFrame) :
    Prop :=
  ∃ ctext tag decrypted, g = .data msg.type (gcmNonce salt msg.ctr) ctext tag ∧
    m.sstDecryptGcm key (gcmNonce salt msg.ctr) (Bytes.ofList ctext.1) tag = some decrypted ∧
    decrypted.toList = msg.payload

/-- Messages in the order in which their frames come, with second messages of handshakes
anywhere between them. -/
inductive OnLink (m : Mbedtls) (key : Bytes 16) (salt : Bytes 8) :
    List LifiFrame → List Message → Prop
  | nil : OnLink m key salt [] []
  | handshake {gs : List LifiFrame} {ms : List Message} (hs2 : Bytes 80)
      (rest : OnLink m key salt gs ms) : OnLink m key salt (.sstHs2 hs2 :: gs) ms
  | message {g : LifiFrame} {msg : Message} {gs : List LifiFrame} {ms : List Message}
      (bears : Bears m key salt msg g) (rest : OnLink m key salt gs ms) :
      OnLink m key salt (g :: gs) (msg :: ms)

/-- The messages under way: in the order of their counters, new to the receiver as are all
counters that are still to come, and none a request for another key. -/
structure UnderWay (salt : Bytes 8) (next limit : ℕ) (d : Dash) (ms : List Message) :
    Prop where
  sorted : ms.Pairwise fun msg msg' => msg.ctr.toNat < msg'.ctr.toNat
  sent : ∀ msg ∈ ms, msg.ctr.toNat < next
  fresh : ∀ msg ∈ ms, d.rwin.seen (gcmNonce salt msg.ctr) = false
  unused : ∀ ctr : UInt32, next ≤ ctr.toNat → ctr.toNat < limit →
    d.rwin.seen (gcmNonce salt ctr) = false
  plain : ∀ msg ∈ ms, msg.type = .encrypted → cstr msg.payload ≠ ascii "new key -f"

section

variable {m : Mbedtls} {key : Bytes 16} {salt : Bytes 8}

theorem OnLink.append {gs gs' : List LifiFrame} {ms ms' : List Message}
    (h : OnLink m key salt gs ms) (h' : OnLink m key salt gs' ms') :
    OnLink m key salt (gs ++ gs') (ms ++ ms') := by
  induction h with
  | nil => exact h'
  | handshake hs2 _ ih => exact .handshake hs2 ih
  | message bears _ ih => exact .message bears ih

theorem OnLink.handshakes (hs2s : List (Bytes 80)) :
    OnLink m key salt (hs2s.map .sstHs2) [] := by
  induction hs2s with
  | nil => exact .nil
  | cons hs2 hs2s ih => exact .handshake hs2 ih

variable {next limit : ℕ} {d d' : Dash} {msg : Message} {ms : List Message}

/-- Only the replay window of the receiver matters. -/
theorem UnderWay.of_rwin (h : UnderWay salt next limit d ms) (hrwin : d'.rwin = d.rwin) :
    UnderWay salt next limit d' ms where
  sorted := h.sorted
  sent := h.sent
  fresh := by
    rw [hrwin]
    exact h.fresh
  unused := by
    rw [hrwin]
    exact h.unused
  plain := h.plain

/-- The first message arrives and is recorded; the others are still new. -/
theorem UnderWay.taken (h : UnderWay salt next limit d (msg :: ms))
    (hrwin : d'.rwin = d.rwin.add (gcmNonce salt msg.ctr)) : UnderWay salt next limit d' ms := by
  obtain ⟨hsorted, hsent, hfresh, hunused, hplain⟩ := h
  obtain ⟨hfirst, hsorted⟩ := List.pairwise_cons.mp hsorted
  obtain ⟨hbefore, hsent⟩ := List.forall_mem_cons.mp hsent
  have hlater : ∀ ctr : UInt32, msg.ctr.toNat < ctr.toNat →
      d.rwin.seen (gcmNonce salt ctr) = false → d'.rwin.seen (gcmNonce salt ctr) = false := by
    intro ctr hlt hnew
    rw [hrwin, ← Bool.not_eq_true]
    intro hseen
    rcases ReplayWindow.eq_or_seen_of_seen_add hseen with heq | hold
    · obtain ⟨-, rfl⟩ := gcmNonce_inj heq
      exact Nat.lt_irrefl _ hlt
    · exact Bool.false_ne_true (hnew.symm.trans hold)
  refine ⟨hsorted, hsent, ?_, ?_, (List.forall_mem_cons.mp hplain).2⟩
  · intro msg' hmsg'
    exact hlater _ (hfirst msg' hmsg') (hfresh msg' (List.mem_cons_of_mem _ hmsg'))
  · intro ctr hge hlt
    exact hlater ctr (hbefore.trans_le hge) (hunused ctr hge hlt)

/-- The next message is sent. -/
theorem UnderWay.put (h : UnderWay salt next limit d ms) (hctr : msg.ctr.toNat = next)
    (hlimit : next < limit)
    (hplain : msg.type = .encrypted → cstr msg.payload ≠ ascii "new key -f") :
    UnderWay salt (next + 1) limit d (ms ++ [msg]) where
  sorted := by
    refine List.pairwise_append.mpr ⟨h.sorted, List.pairwise_singleton _ _, ?_⟩
    intro msg' hmsg' msg'' hmsg''
    rw [List.mem_singleton.mp hmsg'', hctr]
    exact h.sent msg' hmsg'
  sent := by
    refine List.forall_mem_append.mpr ⟨fun msg' hmsg' => (h.sent msg' hmsg').trans_le
      (Nat.le_succ next), List.forall_mem_singleton.mpr ?_⟩
    rw [hctr]
    exact Nat.lt_succ_self next
  fresh := by
    refine List.forall_mem_append.mpr ⟨h.fresh, List.forall_mem_singleton.mpr ?_⟩
    exact h.unused _ hctr.ge (hctr.trans_lt hlimit)
  unused ctr hge hlt := h.unused ctr (Nat.le_of_succ_le hge) hlt
  plain := List.forall_mem_append.mpr ⟨h.plain, List.forall_mem_singleton.mpr hplain⟩

end

/-! ## The receiver's part -/

/-- What a step of the receiver that is no frame of data does to the session. -/
structure KeepsOpen (d : Dash) (r : Dash × List DashOut) : Prop where
  undisturbed : Undisturbed d r.1
  notWaiting : d.state ≠ .waitingForAck → r.1.state ≠ .waitingForAck
  frames : HandshakeFrames (r.2.flatMap DashOut.txBytes)
  delivered : r.2.filterMap DashOut.delivered = []

section

variable {m : Mbedtls} {api : SstApi} {env : DashEnv} {d : Dash}

theorem keepsOpen_refl (d : Dash) : KeepsOpen d (d, []) :=
  ⟨Undisturbed.refl d, id, handshakeFrames_nil, rfl⟩

/-- Nothing is delivered where no frame is accepted. -/
theorem filterMap_delivered_eq_nil {t : List DashOut} (h : acceptedFrames t = []) :
    t.filterMap DashOut.delivered = [] := by
  rw [List.filterMap_eq_nil_iff]
  intro o ho
  cases o with
  | accepted key type nonce ciphertext tag decrypted =>
      have hnone := List.filterMap_eq_nil_iff.mp h _ ho
      cases hnone
  | _ => rfl

theorem KeepsOpen.of_counted {r : Dash × List DashOut} (h : KeepsOpen d.counted r) :
    KeepsOpen d r :=
  ⟨⟨h.undisturbed.sKey, h.undisturbed.keyValid, h.undisturbed.rwin⟩, h.notWaiting, h.frames,
    h.delivered⟩

theorem keepsOpen_startHandshake (hwrites : env.Writes) (d : Dash) :
    KeepsOpen d (startHandshake api env d) where
  undisturbed := undisturbed_startHandshake env d
  notWaiting h := by
    rw [startHandshake]
    simp only
    split
    · exact h
    · split
      · exact h
      · split
        · exact ReceiverState.noConfusion
        · exact h
  frames := handshakeFrames_startHandshake hwrites d
  delivered := filterMap_delivered_eq_nil (acceptedFrames_startHandshake api env d)

theorem keepsOpen_handleSstHs2 (hwrites : env.Writes) (hs2 : Bytes 80) (d : Dash) :
    KeepsOpen d (handleSstHs2 api env hs2 d) := by
  have hframes : HandshakeFrames ((handleSstHs2 api env hs2 d).2.flatMap DashOut.txBytes) :=
    handshakeFrames_handleSstHs2 hwrites hs2 d
  simp only [handleSstHs2] at hframes ⊢
  split at hframes
  · next hidle =>
      rw [if_pos hidle]
      exact keepsOpen_refl d
  · next hwaiting =>
      rw [if_neg hwaiting]
      refine ⟨⟨rfl, id, rfl⟩, fun _ => ReceiverState.noConfusion, hframes, ?_⟩
      simp only
      split
      · rfl
      · split
        · rfl
        · rfl

/-- A message that neither asks for a key nor acknowledges one. -/
theorem keepsOpen_handleMessage (hwrites : env.Writes) (hwaiting : d.state ≠ .waitingForAck)
    {text : List UInt8} (htext : cstr text ≠ ascii "new key -f") :
    KeepsOpen d (handleMessage api env text d) := by
  simp only [handleMessage]
  rw [if_neg htext]
  split
  · exact keepsOpen_refl d
  · split
    · have hkept : KeepsOpen d (handleNewKey env d, []) := by
        rw [handleNewKey]
        split
        · exact keepsOpen_refl d
        · exact ⟨⟨rfl, id, rfl⟩, fun _ => ReceiverState.noConfusion, handshakeFrames_nil, rfl⟩
      exact hkept
    · split
      · next hack => exact absurd hack.1 hwaiting
      · split
        · have hkept : KeepsOpen d (handleVerifyKey api env d) := by
            rw [handleVerifyKey]
            split
            · exact keepsOpen_startHandshake hwrites d
            · exact keepsOpen_refl d
          exact hkept
        · exact keepsOpen_refl d

theorem keepsOpen_handleKey (hwrites : env.Writes) {pressed : KeyPress}
    (hpressed : pressed = .two ∨ pressed = .c) (d : Dash) :
    KeepsOpen d (handleKey api env pressed d) := by
  rcases hpressed with rfl | rfl
  · simp only [handleKey]
    split
    · exact keepsOpen_startHandshake hwrites d
    · exact keepsOpen_refl d
  · exact ⟨⟨rfl, id, rfl⟩, id, handshakeFrames_nil, rfl⟩

theorem keepsOpen_handleTimeout (d : Dash) : KeepsOpen d (handleTimeout d, []) := by
  refine ⟨undisturbed_handleTimeout d, ?_, handshakeFrames_nil, rfl⟩
  intro h
  rw [handleTimeout]
  split
  · exact h
  all_goals exact ReceiverState.noConfusion

variable (api) in
/-- The frame of a message is accepted and its nonce recorded; the rest stays. -/
theorem handleFrame_bears (hwrites : env.Writes) (hvalid : d.keyValid = true)
    (hwaiting : d.state ≠ .waitingForAck) {salt : Bytes 8} {msg : Message} {g : LifiFrame}
    (hbears : Bears m d.sKey.aesKey salt msg g)
    (hfresh : d.rwin.seen (gcmNonce salt msg.ctr) = false)
    (hplain : msg.type = .encrypted → cstr msg.payload ≠ ascii "new key -f") :
    let r := handleFrame m api env g.received d
    r.1.sKey = d.sKey ∧ r.1.keyValid = true ∧ r.1.state ≠ .waitingForAck ∧
      r.1.rwin = d.rwin.add (gcmNonce salt msg.ctr) ∧
      HandshakeFrames (r.2.flatMap DashOut.txBytes) ∧
      r.2.filterMap DashOut.delivered = [(msg.type, msg.payload)] := by
  obtain ⟨ctext, tag, decrypted, rfl, hdec, htext⟩ := hbears
  have hread : handleFrame m api env
      (LifiFrame.data msg.type (gcmNonce salt msg.ctr) ctext tag).received d = _ :=
    handleData_accepts api hvalid hfresh hdec env
  have hkept : KeepsOpen (d.record (gcmNonce salt msg.ctr))
      (handleDecrypted api env msg.type msg.payload (d.record (gcmNonce salt msg.ctr))) := by
    cases htype : msg.type with
    | file => exact ⟨⟨rfl, id, rfl⟩, id, handshakeFrames_nil, rfl⟩
    | encrypted =>
        have hstill : (d.record (gcmNonce salt msg.ctr)).state ≠ .waitingForAck := hwaiting
        exact keepsOpen_handleMessage hwrites hstill (hplain htype)
  rw [htext] at hread
  rw [hread]
  obtain ⟨hundisturbed, hstate, hframes, hdelivered⟩ := hkept
  refine ⟨hundisturbed.sKey, hundisturbed.keyValid hvalid, hstate hwaiting,
    hundisturbed.rwin, hframes, ?_⟩
  rw [List.filterMap_cons, hdelivered]
  rfl

end

/-! ## The sender's part -/

section

variable {m : Mbedtls} (hse : HeatshrinkEncoder)

/-- Key, salt and counter of the sender stay. -/
structure SameSession (p p' : Pico) : Prop where
  key : p'.sessionKey = p.sessionKey
  salt : p'.bootSalt = p.bootSalt
  ctr : p'.msgCounter = p.msgCounter

/-- A message of a handshake brings at most a second one onto the link. -/
theorem handlePicoReport_handshake {f : PicoFrame} (hf : f.OfHandshake) (env : PicoEnv)
    (p : Pico) :
    SameSession p (handlePicoReport m env f.report p).1 ∧
      ∃ hs2s : List (Bytes 80),
        (handlePicoReport m env f.report p).2.flatMap PicoOut.lifiBytes =
          (hs2s.map LifiFrame.sstHs2).flatMap LifiFrame.bytes := by
  cases f with
  | hs1 hs1 =>
      have hreport : handlePicoReport m env (PicoFrame.hs1 hs1).report p =
          handleHs1 m env hs1 p := rfl
      rw [hreport]
      rcases handleHs1_cases m env hs1 p with h | ⟨entityNonce, hs2, -, -, h⟩
      · rw [h]
        exact ⟨⟨rfl, rfl, rfl⟩, [], rfl⟩
      · rw [h]
        exact ⟨⟨rfl, rfl, rfl⟩, [hs2], rfl⟩
  | hs3 hs3 =>
      have hreport : handlePicoReport m env (PicoFrame.hs3 hs3).report p =
          handleHs3 m hs3 p := rfl
      rw [hreport]
      rcases handleHs3_cases m hs3 p with h | ⟨plain, -, -, h⟩
      · rw [h]
        exact ⟨⟨rfl, rfl, rfl⟩, [], rfl⟩
      · rw [h]
        exact ⟨⟨rfl, rfl, rfl⟩, [], rfl⟩
  | key _ _ _ => exact hf.elim

/-- A line becomes the frame of one message, with the sender's counter. -/
theorem handleLine_bears (hm : m.Lawful) (htotal : m.Total) {p : Pico}
    (husable : isKeyZeroed p.sessionKey = false) {env : PicoEnv} {text : List UInt8}
    (hcmd : ¬ ascii "CMD:" <+: text)
    (hfits : (autoCompress hse env.encoderAlloc text).2.length ≤ maxCtextLen) :
    (handleLine m hse env text p).1 = (picoNonceGenerate p).2 ∧
      ∃ g : LifiFrame, (handleLine m hse env text p).2.flatMap PicoOut.lifiBytes = g.bytes ∧
        Bears m p.sessionKey p.bootSalt
          ⟨p.msgCounter, (autoCompress hse env.encoderAlloc text).1,
            (autoCompress hse env.encoderAlloc text).2⟩ g := by
  have hbuf : ¬ (autoCompress hse env.encoderAlloc text).2.length > msgBufSize := by
    have hmax : maxCtextLen ≤ msgBufSize := by decide
    omega
  rw [handleLine, if_neg hcmd]
  simp only [handleMessageLine]
  rw [if_neg hbuf, if_neg (by rw [husable]; exact Bool.false_ne_true)]
  generalize autoCompress hse env.encoderAlloc text = r at hfits
  obtain ⟨t, payload⟩ := r
  refine ⟨encryptAndSend_fst m t payload p, ?_⟩
  rcases encryptAndSend_cases m t payload p with ⟨hnone, -⟩ | ⟨ciphertext, tag, hcrypt, hout⟩
  · have hsome := htotal.gcm_encrypt p.sessionKey (picoNonceGenerate p).1
      (Bytes.ofList payload)
    rw [Mbedtls.sstEncryptGcm] at hnone
    rw [hnone] at hsome
    cases hsome
  · obtain ⟨decrypted, hdec, htext⟩ := hm.gcm_decrypt_toList hcrypt
    have hlen : ciphertext.toList.length ≤ maxCtextLen :=
      ciphertext.toList_length.trans_le hfits
    refine ⟨.data t (picoNonceGenerate p).1 ⟨ciphertext.toList, hlen⟩ tag, ?_,
      ⟨ciphertext.toList, hlen⟩, tag, decrypted, rfl, hdec, htext⟩
    rw [hout]
    exact List.append_nil _

end

/-! ## Steps and runs -/

/-- What was sent has been delivered or is under way, and more can be sent.  The counter
of the next message is kept as a number, since after the last one it wraps. -/
structure Delivering (m : Mbedtls) (next limit : ℕ)
    (sent delivered : List (DataType × List UInt8)) (s : Wired) : Prop where
  usable : isKeyZeroed s.pico.sessionKey = false
  same : s.dash.sKey.aesKey = s.pico.sessionKey
  ctr : s.pico.msgCounter = UInt32.ofNat next
  valid : s.dash.keyValid = true
  notWaiting : s.dash.state ≠ .waitingForAck
  toPico : ∃ fs j, picoParser.Holds s.challengeState s.toPico fs j ∧ ∀ f ∈ fs, f.OfHandshake
  toDash : ∃ gs j ms, dashParser.Holds s.uartState s.toDash gs j ∧
    OnLink m s.pico.sessionKey s.pico.bootSalt gs ms ∧
    UnderWay s.pico.bootSalt next limit s.dash ms ∧
    sent = delivered ++ ms.map fun msg => (msg.type, msg.payload)

section

variable {m : Mbedtls} (hse : HeatshrinkEncoder) (api : SstApi) {s : Wired} {next limit : ℕ}
  {sent delivered : List (DataType × List UInt8)}

theorem delivering_start (hs : s.Drained) {count : ℕ} (h : SessionOpen s.pico s.dash count)
    (hwaiting : s.dash.state ≠ .waitingForAck) :
    Delivering m s.pico.msgCounter.toNat (s.pico.msgCounter.toNat + count) [] [] s where
  usable := h.usable
  same := h.same
  ctr := UInt32.ofNat_toNat.symm
  valid := h.valid
  notWaiting := hwaiting
  toPico := ⟨[], 0, hs.onLines.toPico, List.forall_mem_nil _⟩
  toDash := ⟨[], 0, [], hs.onLines.toDash, .nil, ⟨.nil, List.forall_mem_nil _,
    List.forall_mem_nil _, h.fresh, List.forall_mem_nil _⟩, rfl⟩

/-- Beside the frames of data the receiver leaves the session as it is. -/
theorem Delivering.fromDash (h : Delivering m next limit sent delivered s)
    {r : Dash × List DashOut} (hr : KeepsOpen s.dash r) :
    Delivering m next limit sent (delivered ++ (s.fromDash r).2.filterMap WiredOut.delivered)
      (s.fromDash r).1 := by
  obtain ⟨husable, hsame, hctr, hvalid, hwaiting, ⟨fs, j, hfs, hof⟩, gs, i, ms, hgs, hlink,
    hunder, hsent⟩ := h
  obtain ⟨hundisturbed, hstate, ⟨written, hwritten, hof'⟩, hquiet⟩ := hr
  have hline : (s.fromDash r).1.toPico = s.toPico ++ written.flatMap PicoFrame.bytes :=
    congrArg (s.toPico ++ ·) hwritten
  have hkey : (s.fromDash r).1.dash.sKey = s.dash.sKey := hundisturbed.sKey
  have hnone : (s.fromDash r).2.filterMap WiredOut.delivered = [] := by
    rw [Wired.fromDash, List.filterMap_map]
    exact hquiet
  rw [hnone, List.append_nil]
  refine ⟨husable, by rwa [hkey], hctr, hundisturbed.keyValid hvalid, hstate hwaiting,
    ⟨fs ++ written, j, ?_, List.forall_mem_append.mpr ⟨hof, hof'⟩⟩, gs, i, ms, hgs, hlink,
    hunder.of_rwin hundisturbed.rwin, hsent⟩
  rw [hline]
  exact hfs.put written

/-- The sender looks: it has nothing to read, or a message of a handshake. -/
theorem Delivering.look (h : Delivering m next limit sent delivered s) (env : PicoEnv) :
    Delivering m next limit sent
      (delivered ++ (wiredStep m hse api s (.look env)).2.filterMap WiredOut.delivered)
      (wiredStep m hse api s (.look env)).1 := by
  obtain ⟨husable, hsame, hctr, hvalid, hwaiting, ⟨fs, j, hfs, hof⟩, gs, i, ms, hgs, hlink,
    hunder, hsent⟩ := h
  have hlines : OnLines s fs j gs i := ⟨hfs, hgs⟩
  have hread (r : PicoReport) : [WiredOut.picoRead r].filterMap WiredOut.delivered = [] := rfl
  cases fs with
  | nil =>
      rw [hlines.look_nil m hse api env, hread, List.append_nil]
      exact ⟨husable, hsame, hctr, hvalid, hwaiting, ⟨[], j, hfs, hof⟩, gs, i, ms, hgs, hlink,
        hunder, hsent⟩
  | cons f fs =>
      obtain ⟨hf, hrest⟩ := List.forall_mem_cons.mp hof
      obtain ⟨c, line, hlook⟩ := hlines.look_cons m hse api env
      rcases hlook with ⟨-, hstep, hnext⟩ | ⟨-, hstep, hnext⟩
      · rw [hstep, hread, List.append_nil]
        exact ⟨husable, hsame, hctr, hvalid, hwaiting, ⟨f :: fs, j + 1, hnext.toPico, hof⟩, gs,
          i, ms, hnext.toDash, hlink, hunder, hsent⟩
      · obtain ⟨⟨hkey, hsalt, hsame'⟩, hs2s, hbytes⟩ :=
          handlePicoReport_handshake (m := m) hf env s.pico
        have hlink' := hlink.append (OnLink.handshakes hs2s)
        have hquiet : (handlePicoReport m env f.report s.pico).2.filterMap
            (WiredOut.delivered ∘ WiredOut.pico) = [] :=
          List.filterMap_eq_nil_iff.mpr fun _ _ => rfl
        have hnone : (WiredOut.picoRead f.report :: (handlePicoReport m env f.report
            s.pico).2.map WiredOut.pico).filterMap WiredOut.delivered = [] := by
          rw [← List.singleton_append, List.filterMap_append, hread, List.filterMap_map, hquiet,
            List.append_nil]
        rw [hstep, Wired.fromPico, hnone, List.append_nil]
        rw [List.append_nil] at hlink'
        refine ⟨by rwa [hkey], by rwa [hkey], hsame'.trans hctr, hvalid, hwaiting,
          ⟨fs, 0, hnext.toPico, hrest⟩, gs ++ hs2s.map .sstHs2, i, ms, ?_, ?_, ?_, hsent⟩
        · rw [hbytes]
          exact hnext.toDash.put _
        · rwa [hkey, hsalt]
        · rwa [hsalt]

/-- A line is sent: one more message is under way. -/
theorem Delivering.line (hm : m.Lawful) (htotal : m.Total)
    (h : Delivering m next limit sent delivered s) (hlimit : limit ≤ 2 ^ 32)
    (hnext : next < limit) {env : PicoEnv} {text : List UInt8}
    (hi : WiredIn.KeepsSession hse (.line env text)) :
    Delivering m (next + 1) limit (sent ++ [autoCompress hse env.encoderAlloc text])
      (delivered ++ (wiredStep m hse api s (.line env text)).2.filterMap WiredOut.delivered)
      (wiredStep m hse api s (.line env text)).1 := by
  obtain ⟨husable, hsame, hctr, hvalid, hwaiting, htoPico, gs, i, ms, hgs, hlink, hunder,
    hsent⟩ := h
  obtain ⟨hcmd, htext, hfits⟩ := hi
  obtain ⟨hpico, g, hbytes, hbears⟩ := handleLine_bears hse hm htotal husable hcmd hfits
  have hnone : (s.fromPico (handleLine m hse env text s.pico)).2.filterMap
      WiredOut.delivered = [] := by
    rw [Wired.fromPico, List.filterMap_map]
    exact List.filterMap_eq_nil_iff.mpr fun _ _ => rfl
  have hplain : (autoCompress hse env.encoderAlloc text).1 = .encrypted →
      cstr (autoCompress hse env.encoderAlloc text).2 ≠ ascii "new key -f" := by
    intro htype
    rw [autoCompress_encrypted env.encoderAlloc text htype]
    exact htext
  have hnat : s.pico.msgCounter.toNat = next := by
    rw [hctr, UInt32.toNat_ofNat']
    exact Nat.mod_eq_of_lt (hnext.trans_le hlimit)
  have hput : UnderWay _ (next + 1) limit _ (ms ++ [⟨s.pico.msgCounter,
      (autoCompress hse env.encoderAlloc text).1,
      (autoCompress hse env.encoderAlloc text).2⟩]) :=
    hunder.put hnat hnext hplain
  have hlink' := hlink.append (OnLink.message hbears .nil)
  have hline := hgs.put [g]
  rw [List.flatMap_singleton] at hline
  rw [wiredStep, hnone, List.append_nil, Wired.fromPico, hpico]
  refine ⟨husable, hsame, ?_, hvalid, hwaiting, htoPico, gs ++ [g], i, _, ?_, hlink', hput, ?_⟩
  · have hstep : s.pico.msgCounter + 1 = UInt32.ofNat (next + 1) := by
      rw [hctr, UInt32.ofNat_add]
      rfl
    exact hstep
  · rw [hbytes]
    exact hline
  · rw [hsent, List.map_append, List.append_assoc]
    rfl

/-- The receiver looks: it has nothing to read, a second message, or the next message. -/
theorem Delivering.pass (h : Delivering m next limit sent delivered s) {env : DashEnv}
    (hwrites : env.Writes) :
    Delivering m next limit sent
      (delivered ++ (wiredStep m hse api s (.pass env)).2.filterMap WiredOut.delivered)
      (wiredStep m hse api s (.pass env)).1 := by
  by_cases hopen : s.dash.fdOpen = true
  · obtain ⟨husable, hsame, hctr, hvalid, hwaiting, ⟨fs, j, hfs, hof⟩, gs, i, ms, hgs, hlink,
      hunder, hsent⟩ := h
    have hlines : OnLines s fs j gs i := ⟨hfs, hgs⟩
    have hread (r : UartReport) : [WiredOut.dashRead r].filterMap WiredOut.delivered = [] := rfl
    cases gs with
    | nil =>
        obtain ⟨r, hstep⟩ := hlines.pass_nil m hse api hopen env
        rw [hstep, hread, List.append_nil]
        exact ⟨husable, hsame, hctr, hvalid, hwaiting, ⟨fs, j, hfs, hof⟩, [], i, ms, hgs, hlink,
          hunder, hsent⟩
    | cons g gs =>
        obtain ⟨c, line, hlook⟩ := hlines.pass_cons m hse api hopen env
        rcases hlook with ⟨-, ⟨r, hstep⟩, hnext⟩ | ⟨-, hstep, hnext⟩
        · rw [hstep, hread, List.append_nil]
          exact ⟨husable, hsame, hctr, hvalid, hwaiting, ⟨fs, j, hnext.toPico, hof⟩, g :: gs,
            i + 1, ms, hnext.toDash, hlink, hunder, hsent⟩
        · cases hlink with
          | handshake hs2 hrest =>
              have hkept : KeepsOpen s.dash.counted (handleSstHs2 api env hs2 s.dash.counted) :=
                keepsOpen_handleSstHs2 hwrites hs2 s.dash.counted
              have htaken : Delivering m next limit sent delivered
                  { s with uartState := c, toDash := line } :=
                ⟨husable, hsame, hctr, hvalid, hwaiting, ⟨fs, j, hnext.toPico, hof⟩, gs, 0, ms,
                  hnext.toDash, hrest, hunder, hsent⟩
              rw [hstep, ← List.singleton_append, List.filterMap_append, hread, List.nil_append]
              exact htaken.fromDash (hkept.of_counted)
          | @message _ msg _ ms hbears hrest =>
              have hkey : Bears m s.dash.counted.sKey.aesKey s.pico.bootSalt msg g := by
                have hcounted : s.dash.counted.sKey.aesKey = s.pico.sessionKey := hsame
                rw [hcounted]
                exact hbears
              obtain ⟨hkey', hvalid', hwaiting', hrwin, ⟨written, hwritten, hof'⟩, hout⟩ :=
                handleFrame_bears (m := m) api (d := s.dash.counted) hwrites hvalid
                  hwaiting hkey (hunder.fresh msg List.mem_cons_self)
                  (hunder.plain msg List.mem_cons_self)
              have hdelivered : (handleFrame m api env g.received s.dash.counted).2.filterMap
                  (WiredOut.delivered ∘ WiredOut.dash) = [(msg.type, msg.payload)] := hout
              have hput := hnext.toPico.put written
              rw [hstep, ← List.singleton_append, List.filterMap_append, hread, List.nil_append,
                Wired.fromDash, List.filterMap_map, hdelivered]
              refine ⟨husable, ?_, hctr, hvalid', hwaiting', ⟨fs ++ written, j, ?_,
                List.forall_mem_append.mpr ⟨hof, hof'⟩⟩, gs, 0, ms, hnext.toDash, hrest,
                hunder.taken hrwin, ?_⟩
              · rw [hkey']
                exact hsame
              · rw [hwritten]
                exact hput
              · rw [hsent, List.map_cons, List.append_assoc, List.singleton_append]
  · rw [wiredStep, if_neg hopen, List.filterMap_nil, List.append_nil]
    exact h

/-- One more input, and what it has sent and delivered. -/
theorem Delivering.step (hm : m.Lawful) (htotal : m.Total)
    (h : Delivering m next limit sent delivered s) (hlimit : limit ≤ 2 ^ 32) {i : WiredIn}
    (hi : i.KeepsSession hse) (hnext : next + (i.typed hse).toList.length ≤ limit) :
    Delivering m (next + (i.typed hse).toList.length) limit (sent ++ (i.typed hse).toList)
      (delivered ++ (wiredStep m hse api s i).2.filterMap WiredOut.delivered)
      (wiredStep m hse api s i).1 := by
  cases i with
  | line env text => exact h.line hse api hm htotal hlimit hnext hi
  | look env =>
      rw [WiredIn.typed, Option.toList_none, List.append_nil]
      exact h.look hse api env
  | pass env =>
      rw [WiredIn.typed, Option.toList_none, List.append_nil]
      exact h.pass hse api hi
  | key env pressed =>
      rw [WiredIn.typed, Option.toList_none, List.append_nil]
      exact h.fromDash (keepsOpen_handleKey hi.1 hi.2 s.dash)
  | timeout env =>
      rw [WiredIn.typed, Option.toList_none, List.append_nil]
      exact h.fromDash (keepsOpen_handleTimeout s.dash)

theorem Delivering.run (hm : m.Lawful) (htotal : m.Total)
    (h : Delivering m next limit sent delivered s) (hlimit : limit ≤ 2 ^ 32)
    {is : List WiredIn} (his : ∀ i ∈ is, i.KeepsSession hse)
    (hnext : next + (is.filterMap (WiredIn.typed hse)).length ≤ limit) :
    ∃ next', Delivering m next' limit (sent ++ is.filterMap (WiredIn.typed hse))
      (delivered ++ ((wired m hse api).trace s is).filterMap WiredOut.delivered)
      ((wired m hse api).run s is) := by
  induction is generalizing s next sent delivered with
  | nil =>
      rw [List.filterMap_nil, List.append_nil, Machine.trace_nil, List.filterMap_nil,
        List.append_nil]
      exact ⟨next, h⟩
  | cons i is ih =>
      obtain ⟨hi, hrest⟩ := List.forall_mem_cons.mp his
      have hsplit : (i :: is).filterMap (WiredIn.typed hse) =
          (i.typed hse).toList ++ is.filterMap (WiredIn.typed hse) := by
        rw [List.filterMap_cons]
        cases i.typed hse with
        | none => rfl
        | some r => rfl
      rw [hsplit, List.length_append] at hnext
      have hstep := h.step hse api hm htotal hlimit hi (by omega)
      obtain ⟨next', hend⟩ := ih hstep hrest (by omega)
      rw [List.append_assoc, List.append_assoc, ← hsplit, ← List.filterMap_append] at hend
      exact ⟨next', hend⟩

/-- In session, whatever the interleaving of looks, deadlines, handshakes and typed lines:
the receiver has accepted the first of the lines that were typed, as they were sent, each
once and in order, and all of them once the light link is empty. -/
theorem messages_delivered (hm : m.Lawful) (htotal : m.Total) (hs : s.Drained) {count : ℕ}
    (hsession : SessionOpen s.pico s.dash count) (hwaiting : s.dash.state ≠ .waitingForAck)
    {is : List WiredIn} (his : ∀ i ∈ is, i.KeepsSession hse)
    (hcount : (is.filterMap (WiredIn.typed hse)).length ≤ count) :
    let accepted := ((wired m hse api).trace s is).filterMap WiredOut.delivered
    accepted <+: is.filterMap (WiredIn.typed hse) ∧
      (((wired m hse api).run s is).toDash = [] →
        accepted = is.filterMap (WiredIn.typed hse)) := by
  intro accepted
  obtain ⟨next', hend⟩ := (delivering_start hs hsession hwaiting).run hse api hm htotal
    hsession.counter his (Nat.add_le_add_left hcount _)
  obtain ⟨gs, j, ms, hgs, hlink, -, hsent⟩ := hend.toDash
  rw [List.nil_append, List.nil_append] at hsent
  rw [hsent]
  refine ⟨List.prefix_append _ _, ?_⟩
  intro hempty
  obtain rfl := hgs.eq_nil lawful_dashParser hempty
  cases hlink with
  | nil => exact (List.append_nil _).symm

end

/-- Two lines, the second typed while the first is being read. -/
def twoTyped : List WiredIn :=
  .line .salted (ascii "hello") :: List.replicate 3 (.pass DashEnv.bare) ++
    .line .salted (ascii "bye") :: List.replicate 7 (.pass DashEnv.bare)

theorem messages_delivered_twoTyped :
    (openWire.trace wiredStart twoTyped).filterMap WiredOut.delivered =
      [(.encrypted, ascii "hello"), (.encrypted, ascii "bye")] := by
  have hpasses (n : ℕ) : ∀ i ∈ List.replicate n (WiredIn.pass DashEnv.bare),
      i.KeepsSession .idle := by
    intro i hi
    rw [List.eq_of_mem_replicate hi]
    exact writes_bare
  have hall : ∀ i ∈ twoTyped, i.KeepsSession .idle := by
    refine List.forall_mem_append.mpr ⟨?_, ?_⟩
    · exact List.forall_mem_cons.mpr ⟨⟨by decide, by decide, by decide⟩, hpasses 3⟩
    · exact List.forall_mem_cons.mpr ⟨⟨by decide, by decide, by decide⟩, hpasses 7⟩
  have hempty : (openWire.run wiredStart twoTyped).toDash = [] := by decide +kernel
  obtain ⟨-, hdelivered⟩ := messages_delivered .idle (SstApi.reference .transparent)
    Mbedtls.lawful_transparent Mbedtls.total_transparent drained_wiredStart
    sessionOpen_bothKeyed ReceiverState.noConfusion hall (by decide)
  exact hdelivered hempty

end LifiAuth
