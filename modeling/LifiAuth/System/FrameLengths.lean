import LifiAuth.Pico.LineAssembly
import LifiAuth.System.Fidelity

/-!
# The lengths of transmitted frames

The input loop sends a line by itself once it has 8064 characters, but looks for that
only behind a byte that it read first.  Bytes that it takes over behind line ends can
make a line as long as its buffer, which is longer than what the receiver accepts in
one frame, unless the line is compressed.
-/

namespace LifiAuth

open Support

variable (m : Mbedtls) (hse : HeatshrinkEncoder)

/-! ## The sender with both of its inputs -/

/-- A byte of the USB port or its silence, a report of the parser of uart1, or a
restart. -/
inductive SenderInput where
  | usb (ev : UsbEvent)
  | uart (r : PicoReport)
  | boot

/-- One pass of the main loop.  A restart loses the line. -/
def senderStep (s : Pico × Console) (env : PicoEnv) :
    SenderInput → (Pico × Console) × List ConsoleOut
  | .usb ev => consoleStep m hse s env ev
  | .uart r =>
      (((handlePicoReport m env r s.1).1, s.2),
        (handlePicoReport m env r s.1).2.map .pico)
  | .boot =>
      (((picoBoot m env s.1.flash).1, .cleared),
        (picoBoot m env s.1.flash).2.map .pico)

def senderMain : Machine (Pico × Console) (PicoEnv × SenderInput) ConsoleOut where
  step s e := senderStep m hse s e.1 e.2

/-! ## Frames that are accepted -/

/-- The two bytes behind the preamble and the type. -/
def lengthField (frame : List UInt8) : ℕ :=
  (be16 (frame.getD 5 0) (frame.getD 6 0)).toNat

/-- How many bytes stand between the length field and the CRC. -/
def payloadLength (frame : List UInt8) : ℕ :=
  frame.length - (preamble.length + 1 + 2 + 2)

/-- The length field is true, and within the limits of `dash_receiver`. -/
structure AcceptableFrame (frame : List UInt8) : Prop where
  length : lengthField frame = payloadLength frame
  least : sstNonceSize + sstTagSize ≤ lengthField frame
  most : lengthField frame ≤ maxMsgLen

/-- An output that is no encrypted message, or an acceptable one. -/
def ConsoleOut.Acceptable : ConsoleOut → Prop
  | .pico o => o.isDataSent = true → AcceptableFrame o.lifiBytes
  | _ => True

/-- A ciphertext of the sender makes an acceptable frame exactly if it fits. -/
theorem acceptableFrame_sendData_iff (t : DataType) (nonce : Bytes 12)
    {ciphertext : List UInt8} (hlen : ciphertext.length ≤ msgBufSize) (tag : Bytes 16) :
    AcceptableFrame (sendData t nonce ciphertext tag) ↔
      ciphertext.length ≤ maxCtextLen := by
  have hfield : lengthField (sendData t nonce ciphertext tag) =
      sstNonceSize + ciphertext.length + sstTagSize :=
    be16Of_lenBytes (n := sstNonceSize + ciphertext.length + sstTagSize) (by
      have hbuf : msgBufSize + sstNonceSize + sstTagSize < 65536 := by decide
      omega)
  have hpayload : payloadLength (sendData t nonce ciphertext tag) =
      sstNonceSize + ciphertext.length + sstTagSize := by
    simp [payloadLength, sendData, sendChunks_eq_drop, sstNonceSize, sstTagSize]
    omega
  have hmax : maxCtextLen + sstNonceSize + sstTagSize = maxMsgLen := by decide
  constructor
  · intro h
    have hmost := h.most
    rw [hfield] at hmost
    omega
  · intro h
    exact ⟨by rw [hfield, hpayload], by rw [hfield]; omega, by rw [hfield]; omega⟩

/-! ## Lines that do not fit -/

/-- The line is longer than the ciphertext of a frame may be, and so is what the
encoder, if there is one, makes of it. -/
def TooLong (encoderAlloc : Bool) (line : List UInt8) : Prop :=
  maxCtextLen < line.length ∧
    (encoderAlloc = true → maxCtextLen < (compress hse line).length)

/-- There is a key, and what becomes of the line can be encrypted. -/
def CanSend (p : Pico) (encoderAlloc : Bool) (line : List UInt8) : Prop :=
  isKeyZeroed p.sessionKey = false ∧
    (m.sstEncryptGcm p.sessionKey (picoNonceGenerate p).1
      (Bytes.ofList (autoCompress hse encoderAlloc line).2)).isSome = true

/-- The event completes a line that is no command and too long, and can be sent. -/
def SendsTooLong (s : Pico × Console) (env : PicoEnv) (i : SenderInput) : Prop :=
  ∃ ev c, i = .usb ev ∧ edit s.2 ev = .complete c ∧ ¬ ascii "CMD:" <+: c.text ∧
    TooLong hse env.encoderAlloc c.text ∧ CanSend m hse s.1 env.encoderAlloc c.text

theorem tooLong_iff {encoderAlloc : Bool} {line : List UInt8} :
    TooLong hse encoderAlloc line ↔
      maxCtextLen < (autoCompress hse encoderAlloc line).2.length := by
  have hmax : maxCtextLen = 8164 := by decide
  have hbuf : msgBufSize = 8192 := rfl
  rw [TooLong, autoCompress]
  split
  · next hlong =>
      simp only [hlong.2, forall_true_left]
      split
      · next hsmaller =>
          exact ⟨fun h => h.2, fun h => ⟨h.trans hsmaller.1, h⟩⟩
      · next hsmaller =>
          refine ⟨fun h => h.1, fun h => ⟨h, ?_⟩⟩
          simp only at h
          omega
  · next hshort =>
      refine ⟨fun h => h.1, fun h => ⟨h, fun halloc => ?_⟩⟩
      exact absurd ⟨by simp only at h; omega, halloc⟩ hshort

/-! ## What is transmitted -/

section

variable {m hse} {env : PicoEnv} {p : Pico}

theorem acceptable_of_noData {out : List PicoOut}
    (h : ∀ o ∈ out, o.isDataSent = false) :
    ∀ o ∈ out.map ConsoleOut.pico, o.Acceptable := by
  refine List.forall_mem_map.mpr fun o ho hsent => ?_
  rw [h o ho] at hsent
  cases hsent

theorem noData_handleCommandLine (cmd : List UInt8) :
    ∀ o ∈ (handleCommandLine m env cmd p).2, o.isDataSent = false :=
  forall_mem_handleCommandLine (fun _ => rfl) (fun _ => rfl) cmd p

theorem noData_handlePicoReport (r : PicoReport) :
    ∀ o ∈ (handlePicoReport m env r p).2, o.isDataSent = false :=
  forall_mem_handlePicoReport (fun _ => rfl) (fun _ _ _ _ => rfl) (fun _ _ => rfl)
    (fun _ _ _ => rfl) r p

/-- What is encrypted is sent in an acceptable frame exactly if it fits. -/
theorem acceptable_encryptAndSend_iff (t : DataType) {payload : List UInt8}
    (hlen : payload.length ≤ msgBufSize) :
    (∀ o ∈ (encryptAndSend m t payload p).2, (ConsoleOut.pico o).Acceptable) ↔
      ¬ (maxCtextLen < payload.length ∧
        (m.sstEncryptGcm p.sessionKey (picoNonceGenerate p).1
          (Bytes.ofList payload)).isSome = true) := by
  have hcall (key : Bytes 16) (nonce : Bytes 12) :
      (ConsoleOut.pico (.gcmCall key nonce)).Acceptable := nofun
  rcases encryptAndSend_cases m t payload p with
    ⟨hnone, hout⟩ | ⟨ciphertext, tag, hsome, hout⟩
  · rw [hout, hnone]
    exact iff_of_true (List.forall_mem_singleton.mpr (hcall _ _)) (by simp)
  · have hclen := ciphertext.toList_length
    have hfits := acceptableFrame_sendData_iff t (picoNonceGenerate p).1
      (hclen.trans_le hlen) tag
    rw [hclen] at hfits
    rw [hout, hsome, Option.isSome_some, and_iff_left rfl, not_lt, ← hfits]
    constructor
    · intro h
      exact h _ (List.mem_cons_of_mem _ (List.mem_singleton_self _)) rfl
    · intro h
      refine List.forall_mem_cons.mpr ⟨hcall _ _, ?_⟩
      exact List.forall_mem_singleton.mpr fun _ => h

/-- A line of the input loop gives acceptable frames exactly if it is not too long, or
not sent. -/
theorem acceptable_handleMessageLine_iff {line : List UInt8}
    (hlen : line.length ≤ msgBufSize) :
    (∀ o ∈ (handleMessageLine m hse env line p).2, (ConsoleOut.pico o).Acceptable) ↔
      ¬ (TooLong hse env.encoderAlloc line ∧ CanSend m hse p env.encoderAlloc line) := by
  have hpayload := (length_autoCompress_le hse line env.encoderAlloc).trans hlen
  rw [tooLong_iff, CanSend]
  simp only [handleMessageLine]
  rw [if_neg (Nat.not_lt.mpr hpayload)]
  split
  · next hzeroed =>
      rw [hzeroed]
      simp
  · next hkey =>
      rw [Bool.not_eq_true] at hkey
      rw [acceptable_encryptAndSend_iff _ hpayload, hkey]
      simp

theorem acceptable_completeLine_iff {c : Console} (hlen : c.typed.length ≤ msgBufSize) :
    (∀ o ∈ (completeLine m hse env p c).2, o.Acceptable) ↔
      ¬ (¬ ascii "CMD:" <+: c.text ∧ TooLong hse env.encoderAlloc c.text ∧
        CanSend m hse p env.encoderAlloc c.text) := by
  have hline : (ConsoleOut.line c.typed).Acceptable := trivial
  have hsent : (ConsoleOut.sent c.typed).Acceptable := trivial
  have hout : (∀ o ∈ (completeLine m hse env p c).2, o.Acceptable) ↔
      ∀ o ∈ (handleLine m hse env c.text p).2, (ConsoleOut.pico o).Acceptable := by
    simp only [completeLine, Console.text]
    split
    · simp [hline]
    · split
      · simp [hline, hsent]
      · simp [hline]
  rw [hout, handleLine]
  split
  · next hcmd =>
      refine iff_of_true ?_ (by simp [hcmd])
      exact List.forall_mem_map.mp (acceptable_of_noData (noData_handleCommandLine _))
  · next hcmd =>
      have htext : c.text.length ≤ msgBufSize := by
        rwa [Console.text, List.length_map]
      rw [acceptable_handleMessageLine_iff htext]
      simp only [hcmd, not_false_eq_true, true_and]

/-- One step transmits an unacceptable frame exactly if it sends a line that is too
long. -/
theorem acceptable_senderStep_iff {s : Pico × Console}
    (hlen : ∀ c ev, edit s.2 ev = .complete c → c.typed.length ≤ msgBufSize)
    (i : SenderInput) :
    (∀ o ∈ (senderStep m hse s env i).2, o.Acceptable) ↔
      ¬ SendsTooLong m hse s env i := by
  cases i with
  | usb ev =>
      rw [senderStep, consoleStep]
      cases hedit : edit s.2 ev with
      | editing c =>
          refine iff_of_true (List.forall_mem_nil _) ?_
          rintro ⟨ev', c', hev, hcomplete, -⟩
          cases hev
          rw [hedit] at hcomplete
          cases hcomplete
      | complete c =>
          rw [acceptable_completeLine_iff (hlen c ev hedit), not_iff_not]
          constructor
          · intro h
            exact ⟨ev, c, rfl, hedit, h⟩
          · rintro ⟨ev', c', hev, hcomplete, h⟩
            cases hev
            rw [hedit] at hcomplete
            cases hcomplete
            exact h
  | uart r =>
      refine iff_of_true (acceptable_of_noData (noData_handlePicoReport r)) ?_
      rintro ⟨ev, c, hev, -⟩
      cases hev
  | boot =>
      refine iff_of_true (acceptable_of_noData (forall_mem_picoBoot (fun _ => rfl) _)) ?_
      rintro ⟨ev, c, hev, -⟩
      cases hev

end

/-! ## The buffer -/

/-- The console that a pass of the input loop ends with. -/
def Edited.console : Edited → Console
  | .editing c => c
  | .complete c => c

namespace Console

variable {c : Console}

theorem length_typed_put_lt (b : Marked) (h : c.typed.length < msgBufSize) :
    (c.put b).typed.length < msgBufSize := by
  rw [put]
  split
  · next hroom =>
      have hbuf : msgBufSize = 8192 := rfl
      rw [List.length_append, List.length_singleton]
      omega
  · exact h

theorem length_typed_burst_lt (lineEnd next : Marked) (h : c.typed.length < msgBufSize) :
    (c.burst lineEnd next).typed.length < msgBufSize := by
  have hfeed : (({ c with peeking := none } : Console).putLineFeed
      lineEnd).typed.length < msgBufSize := length_typed_put_lt _ h
  rw [burst]
  split
  · exact length_typed_put_lt _ hfeed
  · split
    · exact length_typed_put_lt _ hfeed
    · exact hfeed

/-- The loop keeps within its buffer. -/
theorem length_typed_edit_lt (ev : UsbEvent) (h : c.typed.length < msgBufSize) :
    (LifiAuth.edit c ev).console.typed.length < msgBufSize := by
  cases ev with
  | silence =>
      rw [LifiAuth.edit]
      split
      · exact h
      · exact h
  | byte b =>
      rw [LifiAuth.edit]
      split
      · exact length_typed_burst_lt _ _ h
      · split
        · exact h
        · split
          · exact Nat.lt_of_le_of_lt (List.dropLast_sublist _).length_le h
          · simp only
            split
            · split
              · exact length_typed_put_lt _ h
              · exact length_typed_put_lt _ h
            · split
              · exact h
              · exact h

theorem length_typed_of_complete {c' : Console} {ev : UsbEvent}
    (h : c.typed.length < msgBufSize) (hedit : LifiAuth.edit c ev = .complete c') :
    c'.typed.length ≤ msgBufSize := by
  have hconsole := length_typed_edit_lt ev h
  rw [hedit] at hconsole
  exact hconsole.le

end Console

section

variable {m hse}

/-- A bound on the line that editing keeps is kept. -/
theorem length_typed_senderStep {n : ℕ} (hn : 0 < n) {s : Pico × Console}
    (env : PicoEnv) (i : SenderInput) (h : s.2.typed.length < n)
    (hkept : ∀ ev c, i = .usb ev → edit s.2 ev = .editing c → c.typed.length < n) :
    (senderStep m hse s env i).1.2.typed.length < n := by
  cases i with
  | usb ev =>
      rw [senderStep, consoleStep]
      cases hedit : edit s.2 ev with
      | editing c => exact hkept ev c rfl hedit
      | complete c =>
          have hempty : (completeLine m hse env s.1 c).1.2.typed = [] := by
            simp only [completeLine]
            split
            · rfl
            · split
              · rfl
              · rw [Console.unsent]
                split
                · rfl
                · rfl
          simp only [hempty]
          exact hn
  | uart r => exact h
  | boot => exact hn

variable (m hse) in
theorem length_typed_run {s : Pico × Console} (h : s.2.typed.length < msgBufSize)
    (es : List (PicoEnv × SenderInput)) :
    ((senderMain m hse).run s es).2.typed.length < msgBufSize := by
  induction es generalizing s with
  | nil => exact h
  | cons e es ih =>
      refine ih (length_typed_senderStep (by decide) e.1 e.2 h fun ev c _ hedit => ?_)
      have hconsole := Console.length_typed_edit_lt ev h
      rw [hedit] at hconsole
      exact hconsole

end

/-! ## Runs -/

/-- Every encrypted message that is transmitted is acceptable exactly if no step sends
a line that is too long. -/
theorem sentFrames_acceptable_iff (p : Pico) (es : List (PicoEnv × SenderInput)) :
    (∀ o ∈ (senderMain m hse).trace (p, .cleared) es, o.Acceptable) ↔
      ∀ before e after, es = before ++ e :: after →
        ¬ SendsTooLong m hse ((senderMain m hse).run (p, .cleared) before) e.1 e.2 := by
  have hstep (before : List (PicoEnv × SenderInput)) (e : PicoEnv × SenderInput) :
      (∀ o ∈ ((senderMain m hse).step ((senderMain m hse).run (p, .cleared) before)
          e).2, o.Acceptable) ↔
        ¬ SendsTooLong m hse ((senderMain m hse).run (p, .cleared) before) e.1 e.2 := by
    have hstart : Console.cleared.typed.length < msgBufSize := by decide
    have hrun := length_typed_run m hse (s := (p, .cleared)) hstart before
    exact acceptable_senderStep_iff
      (fun c ev hedit => Console.length_typed_of_complete hrun hedit) e.2
  simp only [← hstep]
  constructor
  · intro h before e after hes o ho
    exact h o (Machine.mem_trace_iff.mpr ⟨before, e, after, hes, ho⟩)
  · intro h o ho
    obtain ⟨before, e, after, hes, hmem⟩ := Machine.mem_trace_iff.mp ho
    exact h before e after hes o hmem

/-! ## Short bursts -/

/-- A byte comes behind a line end only while the two leave the line too short to be
sent by itself. -/
def ShortBurst (c : Console) : SenderInput → Prop
  | .usb (.byte _) =>
      c.peeking.isSome = true → c.typed.length + 2 < msgBufSize - 128
  | _ => True

/-- The line is too short to be sent by itself, or was just sent. -/
def Edited.Short : Edited → Prop
  | .editing c => c.typed.length < msgBufSize - 128
  | .complete c => c.typed.length ≤ msgBufSize - 128

theorem short_edit {c : Console} {ev : UsbEvent} (hburst : ShortBurst c (.usb ev))
    (hshort : c.typed.length < msgBufSize - 128) : (edit c ev).Short := by
  cases ev with
  | silence =>
      rw [edit]
      split
      · exact hshort
      · exact hshort.le
  | byte b =>
      rw [edit]
      split
      · next lineEnd hpeek =>
          have hroom := hburst (by rw [hpeek]; rfl)
          exact Nat.lt_of_le_of_lt (Console.length_typed_burst lineEnd b c) hroom
      · split
        · exact hshort
        · split
          · exact Nat.lt_of_le_of_lt (List.dropLast_sublist _).length_le hshort
          · have hput := Console.length_typed_put b c
            have hlonger : (c.put b).typed.length ≤ msgBufSize - 128 := by omega
            simp only
            split
            · split
              · exact hlonger
              · next hroom => exact Nat.lt_of_not_le hroom
            · split
              · exact hshort.le
              · exact hshort

/-- With short bursts only, every encrypted message is acceptable. -/
theorem sentFrames_acceptable_of_shortBursts (p : Pico)
    (es : List (PicoEnv × SenderInput))
    (h : (senderMain m hse).Admissible (fun _ s e => ShortBurst s.2 e.2) []
      (p, .cleared) es) :
    ∀ o ∈ (senderMain m hse).trace (p, .cleared) es, o.Acceptable := by
  have hbuf : msgBufSize - 128 ≤ msgBufSize ∧ msgBufSize - 128 ≤ maxCtextLen := by decide
  have hstart : Console.cleared.typed.length < msgBufSize - 128 := by decide
  refine h.forall_mem_trace (P := fun s => s.2.typed.length < msgBufSize - 128) ?_ hstart
  intro _ s e _ hs hok
  have hshort {ev : UsbEvent} (hev : e.2 = .usb ev) : (edit s.2 ev).Short :=
    short_edit (hev ▸ hok) hs
  constructor
  · refine length_typed_senderStep (by decide) e.1 e.2 hs fun ev c hev hedit => ?_
    have hnext := hshort hev
    rw [hedit] at hnext
    exact hnext
  · have hlen {c : Console} {ev : UsbEvent} (hedit : edit s.2 ev = .complete c) :
        c.typed.length ≤ msgBufSize :=
      Console.length_typed_of_complete (Nat.lt_of_lt_of_le hs hbuf.1) hedit
    refine (acceptable_senderStep_iff (fun c ev => hlen) e.2).mpr ?_
    rintro ⟨ev, c, hev, hedit, -, ⟨hlong, -⟩, -⟩
    have hsent := hshort hev
    rw [hedit] at hsent
    rw [Console.text, List.length_map] at hlong
    exact absurd (hsent.trans hbuf.2) (Nat.not_le.mpr hlong)

/-! ## A line of newlines -/

/-- Events that complete no line only edit. -/
theorem runs_of_editsTo {env : PicoEnv} {p : Pico} {c c' : Console}
    {evs : List UsbEvent} (h : EditsTo c evs c') :
    (senderMain m hse).Runs (p, c) (evs.map fun ev => (env, .usb ev)) [] (p, c') := by
  induction h with
  | nil c => exact .nil _
  | @cons c c₁ c' ev evs hedit hrest ih =>
      have hstep : (senderMain m hse).step (p, c) (env, .usb ev) = ((p, c₁), []) :=
        consoleStep_of_editing hedit
      exact .cons hstep ih

/-- Events of the host while there is no memory for the encoder. -/
def withoutEncoder (evs : List UsbEvent) : List (PicoEnv × SenderInput) :=
  evs.map fun ev => (PicoEnv.salted, .usb ev)

/-- Newlines fill the buffer, and the last one is looked behind if their number is
odd. -/
theorem exists_console_of_newlines {n : ℕ} (hodd : Odd (n + 1))
    (hlen : n + 1 < msgBufSize) :
    ∃ c lineEnd, EditsTo .cleared (hostSends (List.replicate (n + 1) 10)) c ∧
      c.peeking = some lineEnd ∧ c.text = List.replicate n 10 := by
  obtain ⟨c, hedits, hheld, -, hpeeking⟩ := (Console.Assembles.fresh []).hostSends
    (List.replicate (n + 1) 10) (fun b hb => Or.inr (List.eq_of_mem_replicate hb))
    (by rwa [List.nil_append, List.length_replicate]) fun b hb hprint => by
      rw [List.eq_of_mem_replicate hb] at hprint
      exact absurd hprint (by decide)
  rw [List.nil_append, lineFeedsAtEnd_replicate] at hpeeking
  obtain ⟨lineEnd, hpeek⟩ := Option.isSome_iff_exists.mp (hpeeking.mpr hodd)
  refine ⟨c, lineEnd, hedits, hpeek, ?_⟩
  rw [List.nil_append, hpeek, List.replicate_succ'] at hheld
  exact (List.append_inj' hheld rfl).1

/-- After 8167 newlines and silence the sender transmits a frame that is longer than
what is accepted. -/
theorem newlines_unacceptable :
    ¬ ∀ o ∈ (senderMain .transparent Heatshrink.encoder).trace (bothKeyed.1, .cleared)
      (withoutEncoder (hostSends (List.replicate 8167 10) ++ [.silence])),
      o.Acceptable := by
  intro h
  obtain ⟨c, lineEnd, hedits, hpeek, htext⟩ :=
    exists_console_of_newlines (n := 8166) (by decide) (by decide)
  have hruns : (senderMain .transparent Heatshrink.encoder).Runs
      (bothKeyed.1, .cleared) (withoutEncoder (hostSends (List.replicate 8167 10))) []
      (bothKeyed.1, c) := runs_of_editsTo _ _ hedits
  have hedit : edit c .silence = .complete { c with peeking := none } := by
    rw [edit, hpeek]
  have hlen : c.typed.length = 8166 := by
    have := congrArg List.length htext
    rwa [Console.text, List.length_map, List.length_replicate] at this
  have hevents : withoutEncoder (hostSends (List.replicate 8167 10) ++ [.silence]) =
      withoutEncoder (hostSends (List.replicate 8167 10)) ++
        [(PicoEnv.salted, .usb .silence)] := List.map_append
  rw [hevents, (hruns.append (Machine.Runs.single _ _)).trace, List.nil_append] at h
  refine (acceptable_senderStep_iff ?_ _).mp h ⟨.silence, { c with peeking := none },
    rfl, hedit, ?_, ⟨?_, fun halloc => absurd halloc Bool.false_ne_true⟩,
    ⟨inSession_bothKeyed.usable, ?_⟩⟩
  · intro c' ev hcomplete
    exact Console.length_typed_of_complete (by rw [hlen]; decide) hcomplete
  · rw [show ({ c with peeking := none } : Console).text = c.text from rfl, htext,
      List.replicate_succ]
    exact fun hprefix => absurd (List.cons_prefix_cons.mp hprefix).1 (by decide)
  · rw [show ({ c with peeking := none } : Console).text = c.text from rfl, htext,
      List.length_replicate]
    decide
  · exact Mbedtls.total_transparent.gcm_encrypt _ _ _

end LifiAuth
