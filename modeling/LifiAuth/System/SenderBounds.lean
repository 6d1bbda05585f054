import LifiAuth.Support.Access
import LifiAuth.System.FrameLengths

/-!
# The buffers of the sender's main loop

What the main loop reads and writes in its four static buffers, statement by statement, and
how it counts `msg_len` and `comp_sz`.  The input loop leaves room for the terminator also
where it takes two characters at once, and the compressor is never given more room than
there is.
-/

namespace LifiAuth

open Support

variable (m : Mbedtls) (hse : HeatshrinkEncoder)

/-! ## The buffers -/

/-- The static buffers of `main`. -/
inductive SenderBuffer where
  | messageBuffer
  | ciphertext
  | compressedBuf
  | crcBuf

/-- As they are declared. -/
def SenderBuffer.size : SenderBuffer → ℕ
  | messageBuffer | ciphertext | compressedBuf => msgBufSize
  | crcBuf => 1 + 2 + 12 + msgBufSize + 16

abbrev SenderTouches := List (Touch SenderBuffer)

/-- `size_t` has 32 bits. -/
def sizeLimit : ℕ := 2 ^ 32

def SenderSafe (l : SenderTouches) : Prop :=
  Touch.AllSafe SenderBuffer.size sizeLimit l

def touch (buffer : SenderBuffer) (first count : ℕ) : Touch SenderBuffer :=
  .access ⟨buffer, first, count⟩

/-! ## The input loop -/

/-- `message_buffer[msg_len++] = c`, if there is room. -/
def putTouches (msgLen : ℕ) : SenderTouches :=
  if msgLen < msgBufSize - 1 then [touch .messageBuffer msgLen 1, .add msgLen 1] else []

/-- A pass of the input loop. -/
def editTouches (c : Console) : UsbEvent → SenderTouches
  | .silence =>
      match c.peeking with
      | none => []
      | some _ => [touch .messageBuffer c.typed.length 1]
  | .byte b =>
      match c.peeking with
      | some lineEnd =>
          let fed := ({ c with peeking := none } : Console).putLineFeed lineEnd
          putTouches c.typed.length ++
            if isPrintable b.byte || isLineEnd b.byte then putTouches fed.typed.length else []
      | none =>
          if isLineEnd b.byte then []
          else if isRubOut b.byte && !c.typed.isEmpty then [.sub c.typed.length 1]
          else
            let c' := if isPrintable b.byte then c.put b else c
            (if isPrintable b.byte then putTouches c.typed.length else []) ++
              -- the terminator of a line that is sent by itself
              if c'.typed.length ≥ msgBufSize - 128 then
                [touch .messageBuffer c'.typed.length 1]
              else []

/-! ## Commands -/

/-- The contents of `message_buffer` behind a complete line; zeros at its end are left
out. -/
def Console.cells (c : Console) : List UInt8 :=
  c.terminate.messageBuffer.map Marked.byte

/-- Reading the string at `first`. -/
def stringTouch (c : Console) (first : ℕ) : Touch SenderBuffer :=
  touch .messageBuffer first ((cstr (c.cells.drop first)).length + 1)

/-- What is done with a command. -/
def commandTouches (c : Console) : SenderTouches :=
  -- `while (*cmd_trimmed == ' ') cmd_trimmed++`
  let blanks := ((c.cells.drop 4).takeWhile (· == 32)).length
  [touch .messageBuffer 4 (blanks + 1), stringTouch c (4 + blanks)] ++
    (if ascii "send_id" <+: (c.text.drop 4).dropWhile (· == 32) then
      [touch .crcBuf 0 1, touch .crcBuf 1 1, touch .crcBuf 2 1, touch .crcBuf 3 sstKeyIdSize,
        touch .crcBuf 0 (3 + sstKeyIdSize)]
    else [stringTouch c 4]) ++
    [touch .messageBuffer 0 msgBufSize]

/-! ## Compression -/

/-- One call of `heatshrink_encoder_poll` with the rest of the buffer, which writes `p`
bytes. -/
def pollTouches (compSz p : ℕ) : SenderTouches :=
  [.sub msgBufSize compSz, touch .compressedBuf compSz (msgBufSize - compSz), .add compSz p]

/-- The poll loop, for some rounds. -/
def pollLoopTouches : ℕ → hse.State → ℕ → SenderTouches
  | 0, _, _ => []
  | rounds + 1, s, compSz =>
      let (more, values, s) := hse.poll s (msgBufSize - compSz)
      pollTouches compSz values.length ++
        if more ∧ compSz + values.length < msgBufSize then
          pollLoopTouches rounds s (compSz + values.length)
        else []

/-! ## Transmission -/

/-- The ciphertext loop from `offset` on. -/
def chunkTouches (msgLen offset : ℕ) : SenderTouches :=
  if offset < msgLen then
    let chunk := if msgLen - offset > chunkSize then chunkSize else msgLen - offset
    .sub msgLen offset :: touch .ciphertext offset chunk ::
      chunkTouches msgLen (offset + chunkSize)
  else []
  termination_by msgLen - offset
  decreasing_by
    have : 0 < chunkSize := by decide
    omega

/-- The frame of an encrypted message, and clearing the buffers. -/
def frameTouches (msgLen : ℕ) : SenderTouches :=
  [touch .crcBuf 0 1, touch .crcBuf 1 1, touch .crcBuf 2 1, touch .crcBuf 3 sstNonceSize] ++
    (Access.memcpy .crcBuf (3 + sstNonceSize) .ciphertext 0 msgLen).map .access ++
    [touch .crcBuf (3 + sstNonceSize + msgLen) sstTagSize,
      touch .crcBuf 0 (3 + sstNonceSize + msgLen + sstTagSize)] ++
    chunkTouches msgLen 0 ++
    [touch .ciphertext 0 msgBufSize, touch .messageBuffer 0 msgBufSize]

/-- The start of the main loop: `memset(ciphertext, 0, sizeof(ciphertext))`. -/
def nextTouches : SenderTouches :=
  [touch .ciphertext 0 msgBufSize]

/-- The checks, the encryption and the frame. -/
def transmitTouches (p : Pico) (payload : List UInt8) : SenderTouches :=
  (if payload.length > msgBufSize then []
  else if isKeyZeroed p.sessionKey then []
  else
    [touch .messageBuffer 0 payload.length, touch .ciphertext 0 payload.length] ++
      match m.sstEncryptGcm p.sessionKey (picoNonceGenerate p).1 (Bytes.ofList payload) with
      | none => []
      | some _ => frameTouches payload.length) ++
    nextTouches

/-- What is done with a message; the poll loop is watched for `rounds` rounds. -/
def messageTouches (rounds : ℕ) (env : PicoEnv) (p : Pico) (text : List UInt8) :
    SenderTouches :=
  if text.length > 128 ∧ env.encoderAlloc then
    let (_, s) := hse.sink hse.alloc text
    touch .messageBuffer 0 text.length :: pollLoopTouches hse rounds s 0 ++
      match hse.drainWithin msgBufSize rounds s [] with
      | none => []
      | some (out, s) =>
          let (more, s) := hse.finish s
          let last := if more then (hse.poll s (msgBufSize - out.length)).2.1 else []
          let compressed := out ++ last
          (if more then pollTouches out.length last.length else []) ++
            if compressed.length < text.length ∧ compressed.length < msgBufSize then
              (Access.memcpy .messageBuffer 0 .compressedBuf 0 compressed.length).map .access ++
                transmitTouches m p compressed
            else transmitTouches m p text
  else transmitTouches m p text

/-- What is done with a complete line. -/
def lineTouches (rounds : ℕ) (env : PicoEnv) (p : Pico) (c : Console) : SenderTouches :=
  -- `strncmp(message_buffer, "CMD:", 4)`
  touch .messageBuffer 0 4 ::
    if ascii "CMD:" <+: c.text then commandTouches c ++ nextTouches
    else messageTouches m hse rounds env p c.text

/-! ## The main loop -/

/-- One pass of the main loop; the handlers of uart1 have buffers of their own. -/
def senderTouches (rounds : ℕ) (s : Pico × Console) (env : PicoEnv) :
    SenderInput → SenderTouches
  | .usb ev =>
      editTouches s.2 ev ++
        match edit s.2 ev with
        | .editing _ => []
        | .complete c => lineTouches m hse rounds env s.1 c
  | .uart _ => []
  | .boot => nextTouches

/-- The main loop with what it touches for outputs. -/
def senderBuffers : Machine (Pico × Console) (ℕ × PicoEnv × SenderInput) (Touch SenderBuffer) where
  step s e :=
    ((senderStep m hse s e.2.1 e.2.2).1, senderTouches m hse e.1 s e.2.1 e.2.2)

/-! ## Editing -/

theorem safe_putTouches {msgLen : ℕ} (h : msgLen < msgBufSize) :
    SenderSafe (putTouches msgLen) := by
  have hbuf : msgBufSize = 8192 := rfl
  have hlimit : sizeLimit = 2 ^ 32 := rfl
  rw [putTouches]
  split
  · simp only [SenderSafe, touch, Touch.allSafe_access, Touch.allSafe_add, Touch.allSafe_nil,
      SenderBuffer.size, and_true]
    omega
  · exact Touch.allSafe_nil

/-- There is always room for the terminator. -/
theorem safe_editTouches {c : Console} (h : c.typed.length < msgBufSize) (ev : UsbEvent) :
    SenderSafe (editTouches c ev) := by
  have hend {n : ℕ} (hn : n < msgBufSize) : SenderSafe [touch .messageBuffer n 1] :=
    Touch.allSafe_access.mpr ⟨hn, Touch.allSafe_nil⟩
  rcases ev with b | _
  · rw [editTouches]
    split
    · next lineEnd hpeek =>
        have hfed : (({ c with peeking := none } : Console).putLineFeed
            lineEnd).typed.length < msgBufSize := Console.length_typed_put_lt _ h
        refine Touch.allSafe_append.mpr ⟨safe_putTouches h, ?_⟩
        split
        · exact safe_putTouches hfed
        · exact Touch.allSafe_nil
    · split
      · exact Touch.allSafe_nil
      · split
        · next hrub =>
            have hpos : 1 ≤ c.typed.length := by
              rw [Bool.and_eq_true, Bool.not_eq_true', List.isEmpty_eq_false_iff] at hrub
              exact List.length_pos_of_ne_nil hrub.2
            exact Touch.allSafe_sub.mpr ⟨hpos, Touch.allSafe_nil⟩
        · have hput : (if isPrintable b.byte = true then c.put b else c).typed.length <
              msgBufSize := by
            split
            · exact Console.length_typed_put_lt b h
            · exact h
          refine Touch.allSafe_append.mpr ⟨?_, ?_⟩
          · split
            · exact safe_putTouches h
            · exact Touch.allSafe_nil
          · generalize (if isPrintable b.byte = true then c.put b else c) = c' at hput ⊢
            split
            · exact hend hput
            · exact Touch.allSafe_nil
  · rw [editTouches]
    split
    · exact Touch.allSafe_nil
    · exact hend h

/-! ## Strings in the line -/

/-- The terminator stands behind the line. -/
theorem Console.drop_cells (c : Console) {i : ℕ} (hi : i ≤ c.typed.length) :
    c.cells.drop i = c.text.drop i ++ 0 :: c.behind.tail.map Marked.byte := by
  have hcells : c.cells = c.text ++ 0 :: c.behind.tail.map Marked.byte := by
    simp [Console.cells, Console.terminate, Console.messageBuffer, Console.text]
  have hlen : i ≤ c.text.length := by
    rwa [Console.text, List.length_map]
  rw [hcells, List.drop_append_of_le_length hlen]

/-- A string in the line ends there, and so does a run of blanks. -/
theorem length_run_cells_le (c : Console) {i : ℕ} (hi : i ≤ c.typed.length) {q : UInt8 → Bool}
    (hq : q 0 = false) : i + ((c.cells.drop i).takeWhile q).length ≤ c.typed.length := by
  have hrun := length_takeWhile_append_cons_le hq (c.text.drop i)
    (c.behind.tail.map Marked.byte)
  rw [c.drop_cells hi]
  rw [List.length_drop, Console.text, List.length_map] at hrun
  rw [Console.text]
  omega

theorem safe_commandTouches {c : Console} (hcmd : ascii "CMD:" <+: c.text)
    (h : c.typed.length < msgBufSize) : SenderSafe (commandTouches c) := by
  have hfour : 4 ≤ c.typed.length := by
    have hle := hcmd.length_le
    rwa [Console.text, List.length_map] at hle
  have hblanks := length_run_cells_le c hfour (q := (· == 32)) rfl
  have hstring {i : ℕ} (hi : i ≤ c.typed.length) :
      i + ((cstr (c.cells.drop i)).length + 1) ≤ msgBufSize := by
    have hrun := length_run_cells_le c hi (q := (· ≠ 0)) rfl
    rw [cstr]
    omega
  have hbuf : msgBufSize = 8192 := rfl
  have hid : sstKeyIdSize = 8 := rfl
  rw [SenderSafe, commandTouches, Touch.allSafe_append, Touch.allSafe_append]
  refine ⟨⟨?_, ?_⟩, ?_⟩
  · refine Touch.allSafe_access.mpr ⟨?_, Touch.allSafe_access.mpr ⟨hstring hblanks,
      Touch.allSafe_nil⟩⟩
    change 4 + (_ + 1) ≤ msgBufSize
    omega
  · split
    · simp only [touch, Touch.allSafe_access, Touch.allSafe_nil, SenderBuffer.size, and_true]
      omega
    · exact Touch.allSafe_access.mpr ⟨hstring hfour, Touch.allSafe_nil⟩
  · exact Touch.allSafe_access.mpr ⟨Nat.le_of_eq (Nat.zero_add _), Touch.allSafe_nil⟩

/-! ## Compression -/

section

variable {m hse} (hpoll : ∀ s n, (hse.poll s n).2.1.length ≤ n)

theorem safe_pollTouches {compSz p : ℕ} (hsize : compSz ≤ msgBufSize)
    (hp : p ≤ msgBufSize - compSz) : SenderSafe (pollTouches compSz p) := by
  have hbuf : msgBufSize = 8192 := rfl
  have hlimit : sizeLimit = 2 ^ 32 := rfl
  simp only [SenderSafe, pollTouches, touch, Touch.allSafe_sub, Touch.allSafe_access,
    Touch.allSafe_add, Touch.allSafe_nil, SenderBuffer.size, and_true]
  omega

include hpoll in
/-- The loop is only continued with room, and a round takes no more than there is. -/
theorem safe_pollLoopTouches (rounds : ℕ) (s : hse.State) {compSz : ℕ}
    (hsize : compSz ≤ msgBufSize) : SenderSafe (pollLoopTouches hse rounds s compSz) := by
  induction rounds generalizing s compSz with
  | zero => exact Touch.allSafe_nil
  | succ rounds ih =>
      have hround := hpoll s (msgBufSize - compSz)
      rw [pollLoopTouches]
      refine Touch.allSafe_append.mpr ⟨safe_pollTouches hsize hround, ?_⟩
      split
      · next hmore => exact ih _ hmore.2.le
      · exact Touch.allSafe_nil

include hpoll in
theorem length_drainWithin_le (rounds : ℕ) {s s' : hse.State} {out out' : List UInt8}
    (hsize : out.length ≤ msgBufSize)
    (h : hse.drainWithin msgBufSize rounds s out = some (out', s')) :
    out'.length ≤ msgBufSize := by
  induction rounds generalizing s out with
  | zero => cases h
  | succ rounds ih =>
      have hround := hpoll s (msgBufSize - out.length)
      have hlen : (out ++ (hse.poll s (msgBufSize - out.length)).2.1).length ≤ msgBufSize := by
        rw [List.length_append]
        omega
      rw [Streamer.drainWithin] at h
      simp only at h
      split at h
      · exact ih hlen h
      · rw [← (Prod.mk.inj (Option.some.inj h)).1]
        exact hlen

/-! ## Transmission -/

theorem safe_chunkTouches {msgLen : ℕ} (h : msgLen ≤ msgBufSize) (offset : ℕ) :
    SenderSafe (chunkTouches msgLen offset) := by
  fun_induction chunkTouches msgLen offset with
  | case1 offset hlt chunk ih =>
      have hchunk : offset + chunk ≤ msgLen := by
        by_cases hfull : msgLen - offset > chunkSize
        · have hsize : chunk = chunkSize := if_pos hfull
          omega
        · have hrest : chunk = msgLen - offset := if_neg hfull
          omega
      refine Touch.allSafe_sub.mpr ⟨hlt.le, Touch.allSafe_access.mpr ⟨?_, ih⟩⟩
      exact hchunk.trans h
  | case2 offset hge => exact Touch.allSafe_nil

theorem safe_frameTouches {msgLen : ℕ} (h : msgLen ≤ msgBufSize) :
    SenderSafe (frameTouches msgLen) := by
  have hbuf : msgBufSize = 8192 := rfl
  have hnonce : sstNonceSize = 12 := rfl
  have htag : sstTagSize = 16 := rfl
  have hchunks := safe_chunkTouches h 0
  rw [SenderSafe] at hchunks ⊢
  simp only [frameTouches, touch, Touch.allSafe_append, Touch.allSafe_access,
    Touch.allSafe_map_access, Access.allIn_memcpy, Touch.allSafe_nil, SenderBuffer.size,
    hchunks, and_true]
  omega

theorem safe_nextTouches : SenderSafe nextTouches :=
  Touch.allSafe_access.mpr ⟨Nat.le_of_eq (Nat.zero_add _), Touch.allSafe_nil⟩

theorem safe_transmitTouches (p : Pico) (payload : List UInt8) :
    SenderSafe (transmitTouches m p payload) := by
  rw [transmitTouches]
  refine Touch.allSafe_append.mpr ⟨?_, safe_nextTouches⟩
  split
  · exact Touch.allSafe_nil
  · next hfits =>
      have hlen : payload.length ≤ msgBufSize := Nat.le_of_not_lt hfits
      split
      · exact Touch.allSafe_nil
      · refine Touch.allSafe_append.mpr ⟨?_, ?_⟩
        · refine Touch.allSafe_access.mpr ⟨?_, Touch.allSafe_access.mpr ⟨?_, Touch.allSafe_nil⟩⟩
          · exact (Nat.zero_add _).trans_le hlen
          · exact (Nat.zero_add _).trans_le hlen
        · split
          · exact Touch.allSafe_nil
          · exact safe_frameTouches hlen

include hpoll in
theorem safe_messageTouches (rounds : ℕ) (env : PicoEnv) (p : Pico) {text : List UInt8}
    (h : text.length ≤ msgBufSize) : SenderSafe (messageTouches m hse rounds env p text) := by
  have hrest (compressed : List UInt8) : SenderSafe
      (if compressed.length < text.length ∧ compressed.length < msgBufSize then
        (Access.memcpy .messageBuffer 0 .compressedBuf 0 compressed.length).map .access ++
          transmitTouches m p compressed
      else transmitTouches m p text) := by
    split
    · next hsmaller =>
        have hcopy := (Nat.zero_add _).trans_le hsmaller.2.le
        refine Touch.allSafe_append.mpr ⟨?_, safe_transmitTouches p compressed⟩
        exact Touch.allSafe_map_access.mpr (Access.allIn_memcpy.mpr ⟨hcopy, hcopy⟩)
    · exact safe_transmitTouches p text
  rw [messageTouches]
  split
  · refine Touch.allSafe_append.mpr ⟨Touch.allSafe_access.mpr
      ⟨(Nat.zero_add _).trans_le h, ?_⟩, ?_⟩
    · exact safe_pollLoopTouches hpoll rounds _ (Nat.zero_le _)
    · split
      · exact Touch.allSafe_nil
      · next out s hdrained =>
          have hout := length_drainWithin_le hpoll rounds (Nat.zero_le _) hdrained
          refine Touch.allSafe_append.mpr ⟨?_, hrest _⟩
          split
          · exact safe_pollTouches hout (hpoll _ _)
          · exact Touch.allSafe_nil
  · exact safe_transmitTouches p text

/-! ## Runs -/

include hpoll in
theorem safe_lineTouches (rounds : ℕ) (env : PicoEnv) (p : Pico) {c : Console}
    (h : c.typed.length < msgBufSize) : SenderSafe (lineTouches m hse rounds env p c) := by
  refine Touch.allSafe_access.mpr ⟨by decide, ?_⟩
  split
  · next hcmd => exact Touch.allSafe_append.mpr ⟨safe_commandTouches hcmd h, safe_nextTouches⟩
  · refine safe_messageTouches hpoll rounds env p ?_
    rw [Console.text, List.length_map]
    exact h.le

include hpoll in
theorem safe_senderTouches (rounds : ℕ) {s : Pico × Console} (env : PicoEnv)
    (h : s.2.typed.length < msgBufSize) (i : SenderInput) :
    SenderSafe (senderTouches m hse rounds s env i) := by
  rcases i with ev | r | _
  · refine Touch.allSafe_append.mpr ⟨safe_editTouches h ev, ?_⟩
    have hconsole := Console.length_typed_edit_lt ev h
    split
    · exact Touch.allSafe_nil
    · next c hedit =>
        rw [hedit] at hconsole
        exact safe_lineTouches hpoll rounds env s.1 hconsole
  · exact Touch.allSafe_nil
  · exact safe_nextTouches

end

/-- Whatever comes from the USB port and whatever the compressor returns within its
contract, the main loop stays within its buffers, and its counters do not wrap. -/
theorem sender_in_bounds (hpoll : ∀ s n, (hse.poll s n).2.1.length ≤ n) (p : Pico)
    (es : List (ℕ × PicoEnv × SenderInput)) :
    SenderSafe ((senderBuffers m hse).trace (p, .cleared) es) := by
  have hstart : Console.cleared.typed.length < msgBufSize := by decide
  have hpast : SenderSafe ((senderBuffers m hse).trace (p, .cleared) es) ∧
      ((senderBuffers m hse).run (p, .cleared) es).2.typed.length < msgBufSize := by
    refine Machine.past_run
      (P := fun t (s : Pico × Console) => SenderSafe t ∧ s.2.typed.length < msgBufSize)
      (fun t s e h => ?_) ⟨Touch.allSafe_nil, hstart⟩ es
    obtain ⟨ht, hlen⟩ := h
    refine ⟨Touch.allSafe_append.mpr ⟨ht, safe_senderTouches hpoll e.1 e.2.1 hlen e.2.2⟩, ?_⟩
    refine length_typed_senderStep (by decide) e.2.1 e.2.2 hlen fun ev c _ hedit => ?_
    have hconsole := Console.length_typed_edit_lt ev hlen
    rw [hedit] at hconsole
    exact hconsole
  exact hpast.1

/-- The presses of a line that is long enough to be compressed.  No two bytes come again
behind each other, so all of them are literals. -/
def longLineKeys : List UsbEvent :=
  ((List.range 95).map fun i => .byte ⟨UInt8.ofNat (32 + i), true⟩) ++
    ((List.range 34).map fun i => .byte ⟨UInt8.ofNat (32 + 2 * i), true⟩) ++
    [.byte ⟨13, true⟩, .silence]

/-- The line, typed to a Pico with memory for the encoder. -/
def longLine : List (ℕ × PicoEnv × SenderInput) :=
  longLineKeys.map fun ev =>
    (2, { PicoEnv.salted with encoderAlloc := true }, .usb ev)

theorem sender_in_bounds_longLine :
    SenderSafe ((senderBuffers .transparent Heatshrink.encoder).trace (bothKeyed.1, .cleared)
      longLine) :=
  sender_in_bounds .transparent Heatshrink.encoder Heatshrink.computes_encoder.poll_le
    bothKeyed.1 longLine

end LifiAuth
