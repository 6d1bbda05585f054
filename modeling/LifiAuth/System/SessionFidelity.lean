import LifiAuth.Dash.Replay
import LifiAuth.System.CompressedFidelity

/-!
# Fidelity of a session

Any number of lines typed at the sender one after the other, with noise between their
frames, and the receiver's main loop with its timeouts and key presses between the
passes of its parser.  Every line is recovered once and in order: no frame is lost, and
none is taken for a replay of another.
-/

namespace LifiAuth

open Support Heatshrink

/-! ## The sender's side -/

/-- A line, its surroundings, and what is on the link before its frame. -/
structure TypedLine where
  noise : List UInt8
  env : PicoEnv
  text : List UInt8

/-- No command to the sender and no acknowledgement to the receiver; without an encoder
its frame has to hold it as it is. -/
structure TypedLine.Ordinary (l : TypedLine) : Prop where
  noise : ¬ preamble <:+: l.noise
  not_command : ¬ ascii "CMD:" <+: l.text
  length_lt : l.text.length < msgBufSize
  fits : l.env.encoderAlloc = true ∨ l.text.length ≤ maxCtextLen
  not_ack : cstr l.text ≠ ascii "ACK"

/-- What the receiver makes of a line. -/
def TypedLine.received (l : TypedLine) : List UInt8 :=
  if SentAsFile compressed l.env.encoderAlloc l.text then l.text.take 256 else l.text

variable (m : Mbedtls) (searchIndex : ℕ → Option ℕ)

/-- What the lines put on the link. -/
def linkBytes (p : Pico) : List TypedLine → List UInt8
  | [] => []
  | l :: lines =>
      let r := handleLine m (hse searchIndex) l.env l.text p
      l.noise ++ r.2.flatMap PicoOut.lifiBytes ++ linkBytes r.1 lines

/-- The nonces that the next `count` messages will carry are new to the receiver. -/
def NoncesNew (p : Pico) (d : Dash) (count : ℕ) : Prop :=
  ∀ ctr : UInt32, p.msgCounter.toNat ≤ ctr.toNat →
    ctr.toNat < p.msgCounter.toNat + count → d.rwin.seen (gcmNonce p.bootSalt ctr) = false

/-- Both ends hold the same key and `count` more messages can be told apart. -/
structure SessionOpen (p : Pico) (d : Dash) (count : ℕ) : Prop where
  usable : isKeyZeroed p.sessionKey = false
  same : d.sKey.aesKey = p.sessionKey
  valid : d.keyValid = true
  counter : p.msgCounter.toNat + count ≤ 2 ^ 32
  fresh : NoncesNew p d count

/-- The frame carries the payload under the sender's key and its next nonce. -/
def Seals (p : Pico) (r : DataType × List UInt8) (f : LifiFrame) : Prop :=
  ∃ (output : Bytes r.2.length) (tag : Bytes 16) (hfits : output.toList.length ≤ maxCtextLen),
    m.sstEncryptGcm p.sessionKey (gcmNonce p.bootSalt p.msgCounter) (Bytes.ofList r.2) =
        some (output, tag) ∧
      f = .data r.1 (gcmNonce p.bootSalt p.msgCounter) ⟨output.toList, hfits⟩ tag

/-- The frames that the lines become, one for each. -/
inductive Transmits : Pico → List TypedLine → List LifiFrame → Prop where
  | nil (p : Pico) : Transmits p [] []
  | cons {p : Pico} {l : TypedLine} {lines : List TypedLine} {f : LifiFrame}
      {frames : List LifiFrame}
      (seals : Seals m p (autoCompress (hse searchIndex) l.env.encoderAlloc l.text) f)
      (rest : Transmits (picoNonceGenerate p).2 lines frames) :
      Transmits p (l :: lines) (f :: frames)

/-- The payload of a line always fits a frame. -/
theorem length_autoCompress_hse_le {l : TypedLine} (h : l.Ordinary) :
    (autoCompress (hse searchIndex) l.env.encoderAlloc l.text).2.length ≤ maxCtextLen := by
  have hsmall := length_compressed_window_le l.text
  have hmax : maxCtextLen = 8164 := by decide
  rw [autoCompress_hse]
  by_cases hfile : SentAsFile compressed l.env.encoderAlloc l.text
  · rw [if_pos hfile]
    dsimp only
    omega
  · rw [if_neg hfile]
    rcases h.fits with halloc | hfits
    · by_contra hlong
      dsimp only at hlong
      exact hfile ⟨by omega, halloc, by omega⟩
    · exact hfits

variable {m searchIndex} {p : Pico} {d : Dash} {l : TypedLine}

/-- One line: the frame it becomes, and the generator behind it. -/
theorem handleLine_frame (htotal : m.Total) (husable : isKeyZeroed p.sessionKey = false)
    (h : l.Ordinary) :
    ∃ f, Seals m p (autoCompress (hse searchIndex) l.env.encoderAlloc l.text) f ∧
      (handleLine m (hse searchIndex) l.env l.text p).2.flatMap PicoOut.lifiBytes = f.bytes ∧
      (handleLine m (hse searchIndex) l.env l.text p).1 = (picoNonceGenerate p).2 := by
  obtain ⟨ciphertext, tag, hcrypt, hbytes⟩ := handleLine_message (hse searchIndex) htotal
    l.env husable h.not_command h.length_lt
  have hfits := length_autoCompress_hse_le searchIndex h
  have hbuf : maxCtextLen ≤ msgBufSize := by decide
  have hsize : ciphertext.toList.length ≤ maxCtextLen := by
    rw [ciphertext.toList_length]
    exact hfits
  refine ⟨_, ⟨ciphertext, tag, hsize, hcrypt, rfl⟩, hbytes, ?_⟩
  rw [handleLine, if_neg h.not_command]
  simp only [handleMessageLine]
  rw [if_neg (by omega), if_neg (by rw [husable]; exact Bool.false_ne_true),
    encryptAndSend_fst]

theorem exists_transmits (htotal : m.Total) {lines : List TypedLine}
    (husable : isKeyZeroed p.sessionKey = false) (h : ∀ l ∈ lines, l.Ordinary) :
    ∃ segments : List (List UInt8 × LifiFrame),
      Transmits m searchIndex p lines (segments.map Prod.snd) ∧
        linkBytes m searchIndex p lines =
          segments.flatMap (fun s => s.1 ++ s.2.bytes) ∧
        ∀ s ∈ segments, ¬ preamble <:+: s.1 := by
  induction lines generalizing p with
  | nil => exact ⟨[], .nil p, rfl, List.forall_mem_nil _⟩
  | cons l lines ih =>
      obtain ⟨hl, hlines⟩ := List.forall_mem_cons.mp h
      obtain ⟨f, hseals, hsent, hnext⟩ := handleLine_frame htotal husable hl
      obtain ⟨segments, htransmits, hbytes, hnoise⟩ :=
        @ih (picoNonceGenerate p).2 husable hlines
      refine ⟨(l.noise, f) :: segments, .cons hseals htransmits, ?_,
        List.forall_mem_cons.mpr ⟨hl.noise, hnoise⟩⟩
      rw [linkBytes, hnext, hsent, hbytes, List.flatMap_cons]

/-! ## The receiver's side -/

/-- The report of a pass that found something. -/
def DashEvent.heard : DashEvent → Option UartReport
  | .uart r => if r.hunting then none else some r
  | .key _ | .timeout => none

/-- The passes of the parser among the events. -/
def DashEvent.pass : DashEvent → Option UartReport
  | .uart r => some r
  | .key _ | .timeout => none

/-- All but the key presses that change the key. -/
def DashEvent.keepsKey : DashEvent → Prop
  | .key .n | .key (.f _) => False
  | _ => True

instance : DecidablePred DashEvent.keepsKey
  | .key .n | .key (.f _) => inferInstanceAs (Decidable False)
  | .key .one | .key .two | .key .c | .key .r | .timeout | .uart _ =>
      inferInstanceAs (Decidable True)

/-- What the key of the session and the replay window go through. -/
structure Undisturbed (d d' : Dash) : Prop where
  sKey : d'.sKey = d.sKey
  keyValid : d.keyValid = true → d'.keyValid = true
  rwin : d'.rwin = d.rwin

theorem Undisturbed.refl (d : Dash) : Undisturbed d d :=
  ⟨rfl, id, rfl⟩

variable {api : SstApi}

theorem undisturbed_startHandshake (env : DashEnv) (d : Dash) :
    Undisturbed d (startHandshake api env d).1 := by
  obtain ⟨nonce, state, heq⟩ := startHandshake_eq api env d
  rw [heq]
  exact ⟨rfl, id, rfl⟩

theorem undisturbed_handleTimeout (d : Dash) : Undisturbed d (handleTimeout d) := by
  rw [handleTimeout]
  split
  · exact Undisturbed.refl d
  · exact ⟨rfl, id, rfl⟩
  · exact ⟨rfl, id, rfl⟩
  · exact ⟨rfl, id, rfl⟩

/-- Of the chat commands only `ACK` changes the key. -/
theorem undisturbed_handleMessage (env : DashEnv) {decrypted : List UInt8} (d : Dash)
    (hack : cstr decrypted ≠ ascii "ACK") :
    Undisturbed d (handleMessage api env decrypted d).1 := by
  simp only [handleMessage, hack, and_false, if_false]
  split
  · exact Undisturbed.refl d
  · split
    · rw [handleNewKeyForced]
      split
      · exact ⟨rfl, id, rfl⟩
      · exact ⟨rfl, id, rfl⟩
      · exact ⟨rfl, fun _ => rfl, rfl⟩
    · split
      · simp only [handleNewKey]
        split
        · exact Undisturbed.refl d
        · exact ⟨rfl, id, rfl⟩
      · split
        · rw [handleVerifyKey]
          split
          · exact undisturbed_startHandshake env d
          · exact Undisturbed.refl d
        · exact Undisturbed.refl d

theorem undisturbed_handleKey (env : DashEnv) {key : KeyPress}
    (hkey : DashEvent.keepsKey (.key key)) (d : Dash) :
    Undisturbed d (handleKey api env key d).1 := by
  cases key with
  | n => exact hkey.elim
  | f remote => exact hkey.elim
  | one =>
      rw [handleKey]
      split
      · exact Undisturbed.refl d
      · exact Undisturbed.refl d
  | two =>
      rw [handleKey]
      split
      · exact undisturbed_startHandshake env d
      · exact Undisturbed.refl d
  | c => exact ⟨rfl, id, rfl⟩
  | r => exact ⟨rfl, id, rfl⟩

/-- Nothing is recovered where no frame is accepted. -/
theorem filterMap_recovered_eq_nil (hsd : HeatshrinkDecoder) (decoderAlloc : Bool)
    {t : List DashOut} (h : acceptedFrames t = []) :
    t.filterMap (recovered hsd decoderAlloc) = [] := by
  rw [List.filterMap_eq_nil_iff]
  intro o ho
  cases o with
  | accepted key type nonce ciphertext tag decrypted =>
      have hnone := List.filterMap_eq_nil_iff.mp h _ ho
      cases hnone
  | _ => rfl

theorem acceptedFrames_handleKey (env : DashEnv) {key : KeyPress}
    (hkey : DashEvent.keepsKey (.key key)) (d : Dash) :
    acceptedFrames (handleKey api env key d).2 = [] := by
  cases key with
  | n => exact hkey.elim
  | f remote => exact hkey.elim
  | one =>
      simp only [handleKey, sendActiveKey]
      split
      · split
        · rfl
        · rfl
      · rfl
  | two =>
      rw [handleKey]
      split
      · exact acceptedFrames_startHandshake api env d
      · rfl
  | c => rfl
  | r => rfl

/-- Between frames nothing happens to the session, and nothing is recovered. -/
theorem dashStep_of_not_heard (m : Mbedtls) (api : SstApi) {e : DashEvent} (hkeeps : e.keepsKey)
    (hheard : e.heard = none) (env : DashEnv) (d : Dash) :
    Undisturbed d (dashStep m api d env e).1 ∧
      acceptedFrames (dashStep m api d env e).2 = [] := by
  cases e with
  | key key =>
      exact ⟨undisturbed_handleKey env hkeeps d, acceptedFrames_handleKey env hkeeps d⟩
  | timeout => exact ⟨undisturbed_handleTimeout d, rfl⟩
  | uart r =>
      have hhunt : r.hunting = true := by
        by_contra hhunt
        rw [DashEvent.heard, if_neg hhunt] at hheard
        cases hheard
      cases r with
      | quiet => exact ⟨Undisturbed.refl d, rfl⟩
      | preambleBroke i b => exact ⟨Undisturbed.refl d, rfl⟩
      | preambleOk => exact ⟨Undisturbed.refl d, rfl⟩
      | unknownType b => exact ⟨Undisturbed.refl d, rfl⟩
      | _ => cases hhunt

/-- A data frame of the session: its payload is recovered, and its nonce recorded. -/
theorem dashStep_frame (api : SstApi) {t : DataType} {nonce : Bytes 12}
    (ciphertext : Ctext) {tag : Bytes 16} {payload : List UInt8} (hvalid : d.keyValid = true)
    (hfresh : d.rwin.seen nonce = false) {decrypted : Bytes ciphertext.1.length}
    (hdec : m.sstDecryptGcm d.sKey.aesKey nonce (Bytes.ofList ciphertext.1) tag =
      some decrypted) (hplain : decrypted.toList = payload)
    (hack : t = .encrypted → cstr payload ≠ ascii "ACK") (env : DashEnv) :
    (dashStep m api d env (.uart (.frame (.data t nonce ciphertext tag)))).1.sKey = d.sKey ∧
      (dashStep m api d env (.uart (.frame (.data t nonce ciphertext tag)))).1.keyValid =
        true ∧
      (dashStep m api d env (.uart (.frame (.data t nonce ciphertext tag)))).1.rwin =
        d.rwin.add nonce ∧
      (dashStep m api d env (.uart (.frame (.data t nonce ciphertext tag)))).2.filterMap
          (recovered (hsd 512) true) =
        (recoveredPayload (hsd 512) true t payload).toList := by
  have hunseen : ¬ d.counted.rwin.seen nonce = true := by
    have hcounted : d.counted.rwin.seen nonce = false := hfresh
    rw [hcounted]
    exact Bool.false_ne_true
  have hkey : (d.counted.record nonce).keyValid = true := hvalid
  have hdec : m.sstDecryptGcm (d.counted.record nonce).sKey.aesKey nonce
      (Bytes.ofList ciphertext.1) tag = some decrypted := hdec
  have hstep : dashStep m api d env (.uart (.frame (.data t nonce ciphertext tag))) =
      (finishData ciphertext.1 payload
          (handleDecrypted api env t payload (d.counted.record nonce)).1,
        .accepted d.sKey.aesKey t nonce ciphertext tag payload ::
          (handleDecrypted api env t payload (d.counted.record nonce)).2) := by
    show handleData m api env t nonce ciphertext tag d.counted = _
    rw [handleData, if_neg hunseen, decryptData, if_pos hkey]
    split
    · next hnone => cases hnone.symm.trans hdec
    · next decrypted' hsome =>
        obtain rfl := Option.some.inj (hsome.symm.trans hdec)
        rw [hplain]
        rfl
  have hundisturbed : Undisturbed (d.counted.record nonce)
      (handleDecrypted api env t payload (d.counted.record nonce)).1 := by
    cases t with
    | file => exact Undisturbed.refl _
    | encrypted => exact undisturbed_handleMessage env _ (hack rfl)
  have hquiet := filterMap_recovered_eq_nil (hsd 512) true
    (acceptedFrames_handleDecrypted api env t payload (d.counted.record nonce))
  rw [hstep]
  refine ⟨hundisturbed.sKey, hundisturbed.keyValid hkey, hundisturbed.rwin, ?_⟩
  rw [List.filterMap_cons]
  cases hrec : recovered (hsd 512) true
      (.accepted d.sKey.aesKey t nonce ciphertext tag payload) with
  | none =>
      have hrec : recoveredPayload (hsd 512) true t payload = none := hrec
      rw [hrec, hquiet]
      rfl
  | some text =>
      have hrec : recoveredPayload (hsd 512) true t payload = some text := hrec
      rw [hrec, hquiet]
      rfl

/-! ## A session -/

/-- What happens between frames leaves the session open. -/
theorem SessionOpen.undisturbed {d' : Dash} {count : ℕ} (h : SessionOpen p d count)
    (hd : Undisturbed d d') : SessionOpen p d' count where
  usable := h.usable
  same := by rw [hd.sKey, h.same]
  valid := hd.keyValid h.valid
  counter := h.counter
  fresh := by
    intro ctr hge hlt
    rw [hd.rwin]
    exact h.fresh ctr hge hlt

/-- After a message there is one less to come. -/
theorem SessionOpen.next {d' : Dash} {count : ℕ} (h : SessionOpen p d (count + 1))
    (hkey : d'.sKey = d.sKey) (hvalid : d'.keyValid = true)
    (hrwin : d'.rwin = d.rwin.add (gcmNonce p.bootSalt p.msgCounter)) :
    SessionOpen (picoNonceGenerate p).2 d' count := by
  have hcounter := h.counter
  have hctr : (p.msgCounter + 1).toNat = (p.msgCounter.toNat + 1) % 2 ^ 32 :=
    UInt32.toNat_add _ _
  refine ⟨h.usable, by rw [hkey]; exact h.same, hvalid, ?_, ?_⟩
  · show (p.msgCounter + 1).toNat + count ≤ 2 ^ 32
    omega
  · intro ctr hge hlt
    have hge : (p.msgCounter + 1).toNat ≤ ctr.toNat := hge
    have hlt : ctr.toNat < (p.msgCounter + 1).toNat + count := hlt
    rw [hrwin, ← Bool.not_eq_true]
    intro hseen
    rcases ReplayWindow.eq_or_seen_of_seen_add hseen with heq | hold
    · obtain ⟨-, rfl⟩ := gcmNonce_inj heq
      omega
    · have hfresh := h.fresh ctr (by omega) (by omega)
      rw [show (picoNonceGenerate p).2.bootSalt = p.bootSalt from rfl] at hold
      rw [hfresh] at hold
      cases hold

theorem recoveredPayload_received (l : TypedLine) :
    recoveredPayload (hsd 512) true
        (autoCompress (hse searchIndex) l.env.encoderAlloc l.text).1
        (autoCompress (hse searchIndex) l.env.encoderAlloc l.text).2 =
      some l.received := by
  rw [autoCompress_hse, TypedLine.received]
  by_cases hfile : SentAsFile compressed l.env.encoderAlloc l.text
  · rw [if_pos hfile, if_pos hfile]
    exact recoveredPayload_compressed l.text
  · rw [if_neg hfile, if_neg hfile]
    rfl

/-- Only a line that is sent as it is can be an acknowledgement. -/
theorem not_ack_autoCompress (h : l.Ordinary)
    (ht : (autoCompress (hse searchIndex) l.env.encoderAlloc l.text).1 = .encrypted) :
    cstr (autoCompress (hse searchIndex) l.env.encoderAlloc l.text).2 ≠ ascii "ACK" := by
  rw [autoCompress_hse] at ht ⊢
  by_cases hfile : SentAsFile compressed l.env.encoderAlloc l.text
  · rw [if_pos hfile] at ht
    cases ht
  · rw [if_neg hfile]
    exact h.not_ack

theorem heard_eq_some {e : DashEvent} {r : UartReport} (h : e.heard = some r) :
    e = .uart r := by
  cases e with
  | uart r' =>
      rw [DashEvent.heard] at h
      split at h
      · cases h
      · rw [Option.some.inj h]
  | _ => cases h

/-- The induction is on the receiver's events: one that is not heard leaves the session
as it is, one that is heard is the next frame. -/
theorem filterMap_recovered_trace (hm : m.Lawful) {lines : List TypedLine}
    {frames : List LifiFrame} (ht : Transmits m searchIndex p lines frames)
    (hlines : ∀ l ∈ lines, l.Ordinary) (hopen : SessionOpen p d lines.length)
    {es : List (DashEnv × DashEvent)} (hkeeps : ∀ e ∈ es, e.2.keepsKey)
    (hheard : es.filterMap (fun e => e.2.heard) =
      frames.map fun f => .frame f.received) :
    ((dashReceiver m api).trace d es).filterMap (recovered (hsd 512) true) =
      lines.map TypedLine.received := by
  induction es generalizing p d lines frames with
  | nil =>
      obtain rfl := List.map_eq_nil_iff.mp hheard.symm
      cases ht
      rfl
  | cons e es ih =>
      obtain ⟨env, e⟩ := e
      obtain ⟨hkeep, hrestKeeps⟩ := List.forall_mem_cons.mp hkeeps
      rw [Machine.trace_cons, List.filterMap_append]
      cases hhead : e.heard with
      | none =>
          obtain ⟨hd, hquiet⟩ :=
            dashStep_of_not_heard m api hkeep hhead env d
          rw [List.filterMap_cons, hhead] at hheard
          have hnone : ((dashReceiver m api).step d (env, e)).2.filterMap
              (recovered (hsd 512) true) = [] :=
            filterMap_recovered_eq_nil (hsd 512) true hquiet
          rw [hnone]
          exact ih ht hlines (hopen.undisturbed hd) hrestKeeps hheard
      | some r =>
          obtain rfl := heard_eq_some hhead
          rw [List.filterMap_cons, hhead] at hheard
          cases ht with
          | nil => cases hheard
          | @cons _ l lines f frames hseals hrest =>
              obtain ⟨hr, hrestHeard⟩ := List.cons.inj hheard
              obtain ⟨hl, hrestLines⟩ := List.forall_mem_cons.mp hlines
              obtain ⟨output, tag, hfits, hcrypt, rfl⟩ := hseals
              rw [← hopen.same] at hcrypt
              obtain ⟨decrypted, hdec, hplain⟩ := hm.gcm_decrypt_toList hcrypt
              have hplain : decrypted.toList =
                  (autoCompress (hse searchIndex) l.env.encoderAlloc l.text).2 := hplain
              have hfresh : d.rwin.seen (gcmNonce p.bootSalt p.msgCounter) = false := by
                refine hopen.fresh _ le_rfl ?_
                rw [List.length_cons]
                omega
              obtain ⟨hkey, hvalid, hrwin, hout⟩ := dashStep_frame api
                ⟨output.toList, hfits⟩ hopen.valid hfresh hdec hplain
                (fun ht => not_ack_autoCompress hl ht) env
              obtain rfl : r = .frame (.data _ (gcmNonce p.bootSalt p.msgCounter)
                ⟨output.toList, hfits⟩ tag) := hr
              rw [recoveredPayload_received] at hout
              have htail := ih hrest hrestLines (hopen.next hkey hvalid hrwin) hrestKeeps
                hrestHeard
              exact congrArg₂ (· ++ ·) hout htail

theorem filterMap_heard_eq (es : List (DashEnv × DashEvent)) :
    es.filterMap (fun e => e.2.heard) =
      (es.filterMap fun e => e.2.pass).filter fun r => !r.hunting := by
  rw [List.filter_filterMap]
  refine List.filterMap_congr fun e _ => ?_
  obtain ⟨env, e⟩ := e
  cases e with
  | uart r =>
      cases hhunt : r.hunting with
      | false => simp [DashEvent.heard, DashEvent.pass, Option.filter, hhunt]
      | true => simp [DashEvent.heard, DashEvent.pass, Option.filter, hhunt]
  | _ => rfl

/-- Every line of a session is recovered once and in order, as it was typed or, where it
was sent as a file, its first window. -/
theorem session_recovered (api : SstApi) (searchIndex : ℕ → Option ℕ) (hm : m.Lawful)
    (htotal : m.Total) {lines : List TypedLine} (hlines : ∀ l ∈ lines, l.Ordinary)
    (hopen : SessionOpen p d lines.length) {noise : List UInt8}
    (hnoise : ¬ preamble <:+: noise) {line : List RxEvent}
    (hline : Carries line (linkBytes m searchIndex p lines ++ noise)) {n : ℕ}
    (hn : line.length ≤ n) {es : List (DashEnv × DashEvent)}
    (hpasses : es.filterMap (fun e => e.2.pass) = (uartRun n ⟨0, line⟩).1)
    (hkeeps : ∀ e ∈ es, e.2.keepsKey) :
    ((dashReceiver m api).trace d es).filterMap (recovered (hsd 512) true) =
      lines.map TypedLine.received := by
  obtain ⟨segments, htransmits, hbytes, hsegments⟩ :=
    exists_transmits htotal hopen.usable hlines
  rw [hbytes] at hline
  have hreports := filter_uartRun_frameStream segments hsegments hnoise hline hn
  refine filterMap_recovered_trace hm htransmits hlines hopen hkeeps ?_
  rw [filterMap_heard_eq, hpasses, hreports, List.map_map]
  rfl

/-! ## Two lines -/

/-- A short line, and a long one with a stray preamble byte before it. -/
def twoLines : List TypedLine :=
  [⟨[], compressing, ascii "hello"⟩, ⟨[0xAB], compressing, denseText⟩]

theorem ordinary_twoLines : ∀ l ∈ twoLines, l.Ordinary := by
  refine List.forall_mem_cons.mpr ⟨?_, List.forall_mem_singleton.mpr ?_⟩
  · exact ⟨by decide, by decide, by decide, Or.inl rfl, by decide⟩
  · have hlen : denseText.length < msgBufSize := by
      rw [length_denseText]
      decide
    exact ⟨by decide, by decide +kernel, hlen, Or.inl rfl, by decide +kernel⟩

theorem sessionOpen_bothKeyed : SessionOpen bothKeyed.1 bothKeyed.2 2 where
  usable := inSession_bothKeyed.usable
  same := inSession_bothKeyed.same
  valid := inSession_bothKeyed.valid
  counter := by decide +kernel
  fresh := by
    have hcounter : bothKeyed.1.msgCounter.toNat = 0 := by decide +kernel
    have hfresh : ∀ n : Fin 2,
        bothKeyed.2.rwin.seen (gcmNonce bothKeyed.1.bootSalt (UInt32.ofNat n)) = false := by
      decide +kernel
    intro ctr _ hlt
    rw [hcounter] at hlt
    have hctr := hfresh ⟨ctr.toNat, by omega⟩
    rwa [UInt32.ofNat_toNat] at hctr

theorem session_recovered_twoLines :
    let line := steady (linkBytes Mbedtls.transparent (fun _ => none) bothKeyed.1 twoLines)
    let passes := (uartRun line.length ⟨0, line⟩).1
    ((dashReceiver Mbedtls.transparent (SstApi.reference Mbedtls.transparent)).trace
        bothKeyed.2 (passes.map fun r => (DashEnv.bare, .uart r))).filterMap
        (recovered (hsd 512) true) = [ascii "hello", denseText.take 256] := by
  intro line passes
  have hline : Carries line
      (linkBytes Mbedtls.transparent (fun _ => none) bothKeyed.1 twoLines ++ []) := by
    rw [List.append_nil]
    exact carries_steady _
  have hpasses : (passes.map fun r => (DashEnv.bare, DashEvent.uart r)).filterMap
      (fun e => e.2.pass) = passes := by
    rw [List.filterMap_map]
    exact List.filterMap_some
  have hkeeps : ∀ e ∈ passes.map fun r => (DashEnv.bare, DashEvent.uart r),
      e.2.keepsKey := by
    intro e he
    obtain ⟨r, -, rfl⟩ := List.mem_map.mp he
    exact trivial
  have hsmall := length_compressed_window_le denseText
  have hfile : SentAsFile compressed true denseText := by
    rw [SentAsFile, length_denseText]
    exact ⟨by decide, rfl, by omega⟩
  have hall := session_recovered (SstApi.reference Mbedtls.transparent) (fun _ => none)
    Mbedtls.lawful_transparent Mbedtls.total_transparent ordinary_twoLines
    sessionOpen_bothKeyed (by decide) hline le_rfl hpasses hkeeps
  rw [hall]
  have hshort : ¬ SentAsFile compressed true (ascii "hello") := by
    rintro ⟨hlong, -⟩
    exact absurd hlong (by decide)
  exact congrArg₂ (fun text text' => [text, text']) (if_neg hshort) (if_pos hfile)

end LifiAuth
