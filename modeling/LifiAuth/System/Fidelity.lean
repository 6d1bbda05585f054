import LifiAuth.Dash.FrameRoundTrip
import LifiAuth.Protocol.HeatshrinkTokens
import LifiAuth.System.Handshake

/-!
# Fidelity of messages

A line typed at the sender, followed through compression, encryption, the optical
link and decryption to what the receiver recovers from it.  A long message is sunk
into the encoder once, however much of it the encoder takes.
-/

namespace LifiAuth

open Support

variable (m : Mbedtls) (hse : HeatshrinkEncoder) (hsd : HeatshrinkDecoder)
  (api : SstApi)

/-- What the receiver's parser makes of the first frame on a line. -/
def firstReport (line : List RxEvent) : Option UartReport :=
  (uartRun line.length ⟨0, line⟩).1.find? fun r => !r.hunting

/-- What the receiver recovers from the first frame on a line. -/
def recoveredMessage (decoderAlloc : Bool) (env : DashEnv) (d : Dash)
    (line : List RxEvent) : Option (List UInt8) :=
  (firstReport line).bind fun r =>
    (handleReport m api env r d).2.findSome? (recovered hsd decoderAlloc)

/-- Both ends hold the same key, and the next nonce is new to the receiver. -/
structure InSession (p : Pico) (d : Dash) : Prop where
  usable : isKeyZeroed p.sessionKey = false
  same : d.sKey.aesKey = p.sessionKey
  valid : d.keyValid = true
  fresh : d.rwin.seen (picoNonceGenerate p).1 = false

/-- What is relied on of heatshrink: the two objects compute an encoding and its
inverse, a drained decoder takes input, and a new encoder takes one window. -/
structure HeatshrinkLawful (enc : Bool → List UInt8 → List UInt8)
    (dec : List UInt8 → List UInt8)
    (encRep : hse.State → Bool → List UInt8 → List UInt8 → Prop)
    (decRep : hsd.State → Bool → List UInt8 → List UInt8 → Prop) : Prop where
  encoder : hse.Computes enc encRep
  decoder : hsd.Computes (fun _ => dec) decRep
  progress : hsd.Progresses (fun _ => dec) decRep
  window : TakesWindow hse
  round_trip : ∀ xs, dec (enc true xs) = xs

/-! ## The sender -/

section

theorem length_autoCompress_le (msg : List UInt8) (encoderAlloc : Bool) :
    (autoCompress hse encoderAlloc msg).2.length ≤ msg.length := by
  simp only [autoCompress]
  split
  · split
    · next h => exact h.1.le
    · exact le_rfl
  · exact le_rfl

variable {m} {p : Pico} {msg : List UInt8}

/-- A message line is encrypted under the session key and transmitted. -/
theorem handleLine_message (htotal : m.Total) (env : PicoEnv)
    (husable : isKeyZeroed p.sessionKey = false)
    (hcmd : ¬ ascii "CMD:" <+: msg) (hlen : msg.length < msgBufSize) :
    ∃ ciphertext tag,
      m.sstEncryptGcm p.sessionKey (picoNonceGenerate p).1
          (Bytes.ofList (autoCompress hse env.encoderAlloc msg).2) =
        some (ciphertext, tag) ∧
      (handleLine m hse env msg p).2.flatMap PicoOut.lifiBytes =
        sendData (autoCompress hse env.encoderAlloc msg).1
          (picoNonceGenerate p).1 ciphertext.toList tag := by
  have hle := length_autoCompress_le hse msg env.encoderAlloc
  have hsome : (m.sstEncryptGcm p.sessionKey (picoNonceGenerate p).1
      (Bytes.ofList (autoCompress hse env.encoderAlloc msg).2)).isSome = true :=
    htotal.gcm_encrypt _ _ _
  rcases encryptAndSend_cases m (autoCompress hse env.encoderAlloc msg).1
      (autoCompress hse env.encoderAlloc msg).2 p with
    ⟨hnone, -⟩ | ⟨ciphertext, tag, hcrypt, hout⟩
  · rw [hnone] at hsome
    cases hsome
  · refine ⟨ciphertext, tag, hcrypt, ?_⟩
    rw [handleLine, if_neg hcmd]
    simp only [handleMessageLine]
    rw [if_neg (by omega), if_neg (by rw [husable]; exact Bool.false_ne_true), hout]
    exact List.append_nil _

end

/-! ## The link -/

/-- The parser refuses a data frame that is longer than its limit. -/
theorem readData_of_carries_len (t : DataType) {n : ℕ} (hn : n < 65536)
    (hlong : maxMsgLen < n) {line : List RxEvent} {rest : List UInt8}
    (h : Carries line ((lenBytes n).toList ++ rest)) :
    (readData t line).1 = .badLength t.byte (be16Of (lenBytes n)) := by
  obtain ⟨line', hread, -, -⟩ := readExact_of_carries _ h
  have hbe := be16Of_lenBytes hn
  simp only [readData, hread]
  rw [dif_pos (Or.inr (by omega))]

theorem firstReport_of_carries {type : UInt8} {line : List RxEvent}
    {rest : List UInt8} (h : Carries line (preamble ++ ([type] ++ rest))) :
    ∃ line', Carries line' rest ∧
      ((readFrame type line').1.hunting = false →
        firstReport line = some (readFrame type line').1) := by
  obtain ⟨k, line', hunted, hrun, hhunt, hrest, hle⟩ :=
    uartRun_toType (g := []) (by decide) type rest h
  refine ⟨line', hrest, ?_⟩
  intro hreport
  obtain ⟨d, hd⟩ := Nat.exists_eq_add_of_le (show k + 1 ≤ line.length by omega)
  rw [firstReport, hd, uartRun_add, hrun]
  simp only
  rw [List.find?_append, List.find?_append, List.find?_eq_none.mpr]
  · simp [hreport]
  · intro r hr
    simp [hhunt r hr]

section

variable {t : DataType} {nonce : Bytes 12} {tag : Bytes 16} {line : List RxEvent}

theorem firstReport_of_fits {ciphertext : Ctext}
    (h : Carries line (sendData t nonce ciphertext.1 tag)) :
    firstReport line = some (.frame (.data t nonce ciphertext tag)) := by
  have hbytes : sendData t nonce ciphertext.1 tag =
      (LifiFrame.data t nonce ciphertext tag).bytes := rfl
  rw [hbytes, LifiFrame.bytes_eq_sendShort] at h
  simp only [sendShort, List.append_assoc] at h
  obtain ⟨line', hrest, hreport⟩ := firstReport_of_carries h
  obtain ⟨line'', hread, -, -⟩ :=
    readFrame_of_carries (.data t nonce ciphertext tag) [] (by
      simpa only [List.append_assoc, List.append_nil] using hrest)
  rw [hread] at hreport
  exact hreport rfl

theorem firstReport_of_long {ciphertext : List UInt8}
    (hlong : maxCtextLen < ciphertext.length)
    (hlen : ciphertext.length < msgBufSize)
    (h : Carries line (sendData t nonce ciphertext tag)) :
    ∃ len, firstReport line = some (.badLength t.byte len) := by
  have hmax : maxCtextLen = 8164 := by decide
  have hmsg : maxMsgLen = 8192 := by decide
  have hbuf : msgBufSize = 8192 := rfl
  have hover : sstNonceSize + sstTagSize = 28 := by decide
  simp only [sendData, List.append_assoc] at h
  obtain ⟨line', hrest, hreport⟩ := firstReport_of_carries h
  have hread := readData_of_carries_len t (by omega) (by omega) hrest
  have hframe : (readFrame t.byte line').1 = (readData t line').1 := by
    cases t with
    | encrypted => rfl
    | file => rfl
  rw [hframe, hread] at hreport
  exact ⟨_, hreport rfl⟩

end

/-! ## The receiver -/

section

variable {m} {d : Dash} {nonce : Bytes 12} {tag : Bytes 16}

/-- A fresh frame under the session key is accepted, and its payload recovered
first. -/
theorem findSome_recovered (decoderAlloc : Bool) (env : DashEnv)
    (hvalid : d.keyValid = true) (hfresh : d.rwin.seen nonce = false)
    (t : DataType) {ciphertext : Ctext} {decrypted : Bytes ciphertext.1.length}
    (hdec : m.sstDecryptGcm d.sKey.aesKey nonce (Bytes.ofList ciphertext.1) tag =
      some decrypted) :
    (handleReport m api env (.frame (.data t nonce ciphertext tag)) d).2.findSome?
        (recovered hsd decoderAlloc) =
      recoveredPayload hsd decoderAlloc t decrypted.toList := by
  have hcounted : d.counted.rwin.seen nonce = false := hfresh
  have hkey : (d.counted.record nonce).keyValid = true := hvalid
  simp only [handleReport, handleFrame, handleData, hcounted,
    Bool.false_eq_true, if_false, decryptData, hkey, if_true]
  split
  · next hnone => cases hnone.symm.trans hdec
  · next decrypted' hsome =>
      obtain rfl := Option.some.inj (hsome.symm.trans hdec)
      rw [List.findSome?_cons]
      cases t with
      | encrypted => rfl
      | file =>
          split
          · next hfile => exact hfile.symm
          · next hfile => exact hfile.symm

/-- What the receiver recovers of a message is what it makes of the payload, if
that fits a frame. -/
theorem recoveredMessage_eq (hm : m.Lawful) (htotal : m.Total) {p : Pico}
    (hsession : InSession p d) {msg : List UInt8} (hcmd : ¬ ascii "CMD:" <+: msg)
    (hlen : msg.length < msgBufSize) (decoderAlloc : Bool) (picoEnv : PicoEnv)
    (env : DashEnv) {line : List RxEvent}
    (hline : Carries line
      ((handleLine m hse picoEnv msg p).2.flatMap PicoOut.lifiBytes)) :
    recoveredMessage m hsd api decoderAlloc env d line =
      if (autoCompress hse picoEnv.encoderAlloc msg).2.length ≤ maxCtextLen then
        recoveredPayload hsd decoderAlloc
          (autoCompress hse picoEnv.encoderAlloc msg).1
          (autoCompress hse picoEnv.encoderAlloc msg).2
      else none := by
  have hsent := handleLine_message hse htotal picoEnv hsession.usable hcmd hlen
  have hle := length_autoCompress_le hse msg picoEnv.encoderAlloc
  generalize autoCompress hse picoEnv.encoderAlloc msg = r at hsent hle ⊢
  obtain ⟨ciphertext, tag, hcrypt, hbytes⟩ := hsent
  rw [hbytes] at hline
  have hsize : ciphertext.toList.length = r.2.length := ciphertext.toList_length
  by_cases hfits : r.2.length ≤ maxCtextLen
  · let sent : Ctext := ⟨ciphertext.toList, hsize.trans_le hfits⟩
    have hreport : firstReport line =
        some (.frame (.data r.1 (picoNonceGenerate p).1 sent tag)) :=
      firstReport_of_fits hline
    rw [← hsession.same] at hcrypt
    obtain ⟨decrypted, hdec, hplain⟩ := hm.gcm_decrypt_toList hcrypt
    have hdec' : m.sstDecryptGcm d.sKey.aesKey (picoNonceGenerate p).1
        (Bytes.ofList sent.1) tag = some decrypted := hdec
    rw [if_pos hfits, recoveredMessage, hreport, Option.bind_some,
      findSome_recovered hsd api decoderAlloc env hsession.valid hsession.fresh
        r.1 hdec', hplain]
    rfl
  · rw [if_neg hfits, recoveredMessage]
    obtain ⟨len, hreport⟩ := firstReport_of_long (by omega) (by omega) hline
    rw [hreport]
    rfl


end

/-! ## Which messages arrive -/

/-- A message sent as a file has to fit one window, another one has to fit a
frame. -/
def Arrives (encode : List UInt8 → List UInt8) (encoderAlloc decoderAlloc : Bool)
    (msg : List UInt8) : Prop :=
  if SentAsFile encode encoderAlloc msg then
    msg.length ≤ encoderWindow ∧ decoderAlloc = true
  else msg.length ≤ maxCtextLen

instance (encode : List UInt8 → List UInt8) (encoderAlloc decoderAlloc : Bool)
    (msg : List UInt8) : Decidable (Arrives encode encoderAlloc decoderAlloc msg) :=
  inferInstanceAs (Decidable (ite _ _ _))

section

variable {m hse hsd api} {enc : Bool → List UInt8 → List UInt8}
  {dec : List UInt8 → List UInt8}
  {encRep : hse.State → Bool → List UInt8 → List UInt8 → Prop}
  {decRep : hsd.State → Bool → List UInt8 → List UInt8 → Prop}

/-- A file decompresses to the first window of the message. -/
theorem recoveredPayload_file (hlib : HeatshrinkLawful hse hsd enc dec encRep decRep)
    (msg : List UInt8) :
    recoveredPayload hsd true .file (enc true (msg.take encoderWindow)) =
      some (msg.take encoderWindow) := by
  have hsize : (dec (enc true (msg.take encoderWindow))).length <
      decompressedSize := by
    have hwindow : encoderWindow < decompressedSize := by decide
    rw [hlib.round_trip, List.length_take]
    exact Nat.lt_of_le_of_lt (Nat.min_le_left _ _) hwindow
  have hout := decompress_eq hlib.decoder hlib.progress hsize
  rw [hlib.round_trip] at hout
  exact hout

/-- Of a message sent as a file the receiver gets the first window. -/
theorem recoveredMessage_file (hm : m.Lawful) (htotal : m.Total)
    (hlib : HeatshrinkLawful hse hsd enc dec encRep decRep) {p : Pico} {d : Dash}
    (hsession : InSession p d) {msg : List UInt8} (hcmd : ¬ ascii "CMD:" <+: msg)
    (hlen : msg.length < msgBufSize) (picoEnv : PicoEnv) (env : DashEnv)
    {line : List RxEvent}
    (hline : Carries line
      ((handleLine m hse picoEnv msg p).2.flatMap PicoOut.lifiBytes))
    (hfile : SentAsFile (enc true) picoEnv.encoderAlloc msg)
    (hfits : (enc true (msg.take encoderWindow)).length ≤ maxCtextLen) :
    recoveredMessage m hsd api true env d line = some (msg.take encoderWindow) := by
  rw [recoveredMessage_eq hse hsd api hm htotal hsession hcmd hlen true picoEnv env
    hline, autoCompress_eq hlib.encoder hlib.window hlen, if_pos hfile]
  dsimp only
  rw [if_pos hfits, recoveredPayload_file hlib]

/-- A message is recovered as it was typed exactly if it is sent as a file and fits
one window, or is sent as it is and fits a frame. -/
theorem message_recovered_iff (hm : m.Lawful) (htotal : m.Total)
    (hlib : HeatshrinkLawful hse hsd enc dec encRep decRep) {p : Pico} {d : Dash}
    (hsession : InSession p d) {msg : List UInt8} (hcmd : ¬ ascii "CMD:" <+: msg)
    (hlen : msg.length < msgBufSize) (decoderAlloc : Bool) (picoEnv : PicoEnv)
    (env : DashEnv) {line : List RxEvent}
    (hline : Carries line
      ((handleLine m hse picoEnv msg p).2.flatMap PicoOut.lifiBytes)) :
    recoveredMessage m hsd api decoderAlloc env d line = some msg ↔
      Arrives (enc true) picoEnv.encoderAlloc decoderAlloc msg := by
  have hmax : maxCtextLen = 8164 := by decide
  have hwindow : encoderWindow = 256 := rfl
  rw [recoveredMessage_eq hse hsd api hm htotal hsession hcmd hlen decoderAlloc
    picoEnv env hline, autoCompress_eq hlib.encoder hlib.window hlen, Arrives]
  by_cases hfile : SentAsFile (enc true) picoEnv.encoderAlloc msg
  · obtain ⟨-, -, hshort⟩ := id hfile
    rw [if_pos hfile, if_pos hfile]
    dsimp only
    constructor
    · intro h
      have hfits : (enc true (msg.take encoderWindow)).length ≤ maxCtextLen := by
        by_contra hlong
        rw [if_neg hlong] at h
        cases h
      rw [if_pos hfits] at h
      cases decoderAlloc with
      | false => cases h
      | true =>
          rw [recoveredPayload_file hlib] at h
          exact ⟨(List.take_eq_self_iff msg).mp (Option.some.inj h), rfl⟩
    · rintro ⟨hle, rfl⟩
      rw [if_pos (by omega), recoveredPayload_file hlib,
        List.take_of_length_le hle]
  · rw [if_neg hfile, if_neg hfile]
    dsimp only
    constructor
    · intro h
      by_contra hlong
      rw [if_neg hlong] at h
      cases h
    · intro hfits
      rw [if_pos hfits]
      rfl

end

/-! ## A message of 300 bytes -/

theorem heatshrinkLawful_reference :
    HeatshrinkLawful Heatshrink.encoder Heatshrink.decoder Heatshrink.encoded
      Heatshrink.decode (Streamer.BufferedRep _ _) (Streamer.BufferedRep _ _) where
  encoder := Heatshrink.computes_encoder
  decoder := Heatshrink.computes_decoder
  progress := Heatshrink.progresses_decoder
  window := Heatshrink.takesWindow_encoder
  round_trip := Heatshrink.decode_encode

/-- A text in which no two letters come together twice. -/
def denseText : List UInt8 :=
  let letter (i : ℕ) := UInt8.ofNat (97 + i)
  ((List.range 18).flatMap fun i =>
    letter i :: ((List.range 18).filter (i < ·)).flatMap fun j =>
      [letter i, letter j]).take 300

def compressing : PicoEnv :=
  { PicoEnv.salted with encoderAlloc := true }

/-- What the sender puts on the link for a line. -/
def lineBytes (msg : List UInt8) : List UInt8 :=
  (handleLine Mbedtls.transparent Heatshrink.encoder compressing msg
    bothKeyed.1).2.flatMap PicoOut.lifiBytes

theorem inSession_bothKeyed : InSession bothKeyed.1 bothKeyed.2 where
  usable := by decide +kernel
  same := by decide +kernel
  valid := by decide +kernel
  fresh := by decide +kernel

theorem length_denseText : denseText.length = 300 := by
  decide +kernel

/-- Of 300 typed characters the receiver recovers 256. -/
theorem long_message_truncated :
    (∀ b ∈ denseText, 32 ≤ b ∧ b < 127) ∧ denseText.length = 300 ∧
      recoveredMessage Mbedtls.transparent Heatshrink.decoder
          (SstApi.reference Mbedtls.transparent) true DashEnv.bare bothKeyed.2
          (steady (lineBytes denseText)) = some (denseText.take 256) ∧
      denseText.take 256 ≠ denseText := by
  have hcmd : ¬ ascii "CMD:" <+: denseText := by
    decide +kernel
  have hshort :
      (Heatshrink.encoded true (denseText.take encoderWindow)).length = 288 := by
    rw [Heatshrink.encoded, Heatshrink.length_encode, List.length_take,
      length_denseText]
    rfl
  refine ⟨by decide +kernel, length_denseText, ?_, ?_⟩
  · refine recoveredMessage_file Mbedtls.lawful_transparent
      Mbedtls.total_transparent heatshrinkLawful_reference inSession_bothKeyed hcmd
      (by rw [length_denseText]; decide) compressing DashEnv.bare
      (carries_steady _) ?_ ?_
    · refine ⟨by rw [length_denseText]; decide, rfl, ?_⟩
      rw [hshort, length_denseText]
      decide
    · rw [hshort]
      decide
  · intro h
    have hlen := congrArg List.length h
    rw [List.length_take, length_denseText] at hlen
    omega

/-! ## A message that is sent compressed -/

/-- Heatshrink's code, once there is no more to come. -/
def finalCode (finished : Bool) (xs : List UInt8) : List UInt8 :=
  if finished then Heatshrink.compressed xs else []

/-- An encoder that takes one window and makes that code of it. -/
def windowEncoder : HeatshrinkEncoder :=
  Streamer.buffered (fun xs => encoderWindow - xs.length) finalCode

theorem heatshrinkLawful_window :
    HeatshrinkLawful windowEncoder (Heatshrink.hsd 512) finalCode Heatshrink.decode
      (Streamer.BufferedRep _ _) (fun d _ xs ys => Heatshrink.HsdRep d xs ys) where
  encoder := Streamer.computes_buffered rfl (fun _ _ => List.prefix_rfl)
    fun _ => List.nil_prefix
  decoder := Heatshrink.computes_hsd 512
  progress := Heatshrink.progresses_hsd (by decide)
  window := fun _ => rfl
  round_trip := Heatshrink.decode_compressed

/-- Thirteen times the same words. -/
def repeatedText : List UInt8 :=
  (List.replicate 13 (ascii "light on; ")).flatten

/-- A text that is sent as a file arrives, and so does a short one that is not. -/
theorem message_recovered_iff_repeated :
    let lineOf msg := steady ((handleLine Mbedtls.transparent windowEncoder compressing msg
      bothKeyed.1).2.flatMap PicoOut.lifiBytes)
    let recovered msg := recoveredMessage Mbedtls.transparent (Heatshrink.hsd 512)
      (SstApi.reference Mbedtls.transparent) true DashEnv.bare bothKeyed.2 (lineOf msg)
    SentAsFile Heatshrink.compressed true repeatedText ∧
      recovered repeatedText = some repeatedText ∧
      recovered (ascii "hello") = some (ascii "hello") := by
  intro lineOf recovered
  have harrives {msg : List UInt8} (hcmd : ¬ ascii "CMD:" <+: msg)
      (hlen : msg.length < msgBufSize) :
      recovered msg = some msg ↔ Arrives Heatshrink.compressed true true msg :=
    message_recovered_iff Mbedtls.lawful_transparent Mbedtls.total_transparent
      heatshrinkLawful_window inSession_bothKeyed hcmd hlen true compressing DashEnv.bare (carries_steady _)
  have hfile : SentAsFile Heatshrink.compressed true repeatedText := by decide +kernel
  refine ⟨hfile, (harrives (by decide +kernel) (by decide +kernel)).mpr ?_,
    (harrives (by decide) (by decide)).mpr (by decide +kernel)⟩
  rw [Arrives, if_pos hfile]
  exact ⟨by decide +kernel, rfl⟩

end LifiAuth
