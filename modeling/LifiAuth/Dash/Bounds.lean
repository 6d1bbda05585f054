import LifiAuth.Dash.Accesses
import LifiAuth.Dash.ParserSound

/-!
# The frame handlers stay in bounds

All accesses are in bounds but one: the copy of the peer id, which takes eight bytes
of the payload of a `KEY_ID_ONLY` frame however short it is.
-/

namespace LifiAuth

open Support Access

/-! ## Reading a frame -/

theorem allIn_keyIdCrc {payloadLen : ℕ} (hlen : payloadLen ≤ 64) :
    AllIn FrameArray.size (keyIdCrc payloadLen) := by
  simp [keyIdCrc, FrameArray.size]
  omega

theorem allIn_keyIdReads (line : List RxEvent) :
    AllIn FrameArray.size (keyIdReads line) := by
  rw [keyIdReads]
  refine allIn_cons.mpr ⟨le_rfl, ?_⟩
  split
  · exact allIn_nil
  · refine allIn_cons.mpr ⟨by decide, allIn_cons.mpr ⟨le_rfl, ?_⟩⟩
    split
    · exact allIn_nil
    · next hlen =>
        refine allIn_cons.mpr ⟨(Nat.zero_add _).le, ?_⟩
        split
        · exact allIn_nil
        · refine allIn_cons.mpr ⟨le_rfl, ?_⟩
          split
          · exact allIn_nil
          · exact allIn_keyIdCrc (Nat.le_of_not_lt hlen)

theorem allIn_sstHs2Crc : AllIn FrameArray.size (sstHs2Crc sstHs2PayloadSize) := by
  simp [sstHs2Crc, FrameArray.size, sstHs2PayloadSize]

theorem allIn_sstHs2Reads (line : List RxEvent) :
    AllIn FrameArray.size (sstHs2Reads line) := by
  rw [sstHs2Reads]
  refine allIn_cons.mpr ⟨le_rfl, ?_⟩
  split
  · exact allIn_nil
  · refine allIn_cons.mpr ⟨by decide, allIn_cons.mpr ⟨le_rfl, ?_⟩⟩
    split
    · exact allIn_nil
    · next hlen =>
        have hlen := not_not.mp hlen
        refine allIn_cons.mpr ⟨?_, ?_⟩
        · rw [hlen]
          exact le_rfl
        split
        · exact allIn_nil
        · refine allIn_cons.mpr ⟨le_rfl, ?_⟩
          split
          · exact allIn_nil
          · rw [hlen]
            exact allIn_sstHs2Crc

theorem allIn_dataCrc {ctextLen : ℕ} (hlen : ctextLen ≤ maxMsgLen) (crcFail : Bool) :
    AllIn FrameArray.size (dataCrc ctextLen crcFail) := by
  have hdump : AllIn FrameArray.size (if crcFail = true then
      [⟨FrameArray.crcBuf, 0, 3 + sstNonceSize + ctextLen + sstTagSize⟩] else []) := by
    split
    · simp [FrameArray.size]
      omega
    · exact allIn_nil
  simp [dataCrc, FrameArray.size, hdump]
  omega

theorem allIn_dataReads (t : DataType) (line : List RxEvent) :
    AllIn FrameArray.size (dataReads t line) := by
  rw [dataReads]
  refine allIn_cons.mpr ⟨le_rfl, ?_⟩
  split
  · exact allIn_nil
  · refine allIn_cons.mpr ⟨by decide, allIn_cons.mpr ⟨le_rfl, ?_⟩⟩
    split
    · exact allIn_nil
    · next hlen =>
        refine allIn_cons.mpr ⟨le_rfl, allIn_cons.mpr ⟨(Nat.zero_add _).le,
          allIn_cons.mpr ⟨le_rfl, allIn_cons.mpr ⟨le_rfl, ?_⟩⟩⟩⟩
        split
        · exact allIn_dataCrc (by omega) _
        · exact allIn_nil

theorem allIn_frameReads (byte : UInt8) (line : List RxEvent) :
    AllIn FrameArray.size (frameReads byte line) := by
  rw [frameReads]
  split
  · exact allIn_keyIdReads line
  split
  · exact allIn_sstHs2Reads line
  split
  · exact allIn_dataReads .encrypted line
  split
  · exact allIn_dataReads .file line
  · exact allIn_nil

/-! ## Handling a frame -/

variable {m : Mbedtls} {api : SstApi} {hsd : HeatshrinkDecoder}

theorem allIn_keypanelAccesses : AllIn FrameArray.size keypanelAccesses := by
  simp [keypanelAccesses, FrameArray.size, sessionKeySize, sstMacKeySize]

theorem allIn_handshake1Accesses (env : DashEnv) (d : Dash) :
    AllIn FrameArray.size (handshake1Accesses api env d) := by
  rw [handshake1Accesses]
  refine allIn_cons.mpr ⟨le_rfl, ?_⟩
  split
  · exact allIn_nil
  · split
    · exact allIn_nil
    · simp [FrameArray.size]

theorem allIn_foundKeyAccesses (env : DashEnv) (d : Dash) :
    AllIn FrameArray.size (foundKeyAccesses api env d) := by
  have hhandshake : AllIn FrameArray.size
      (if d.fdOpen ∧ d.state = .idle then handshake1Accesses api env d else []) := by
    split
    · exact allIn_handshake1Accesses env d
    · exact allIn_nil
  have hcurrent : AllIn FrameArray.size
      (hexDump .currentKeyIdHex (.keyId .foundKey) sstKeyIdSize) :=
    allIn_hexDump le_rfl le_rfl
  have hreported : AllIn FrameArray.size
      (hexDump .keyIdHex (.keyId .foundKey) sstKeyIdSize) :=
    allIn_hexDump le_rfl le_rfl
  simp [foundKeyAccesses, hcurrent, hreported, hhandshake, allIn_keypanelAccesses,
    FrameArray.size, sstMacKeySize]

/-- Only the copy of the peer id can leave its array. -/
theorem allIn_keyIdOnlyAccesses (env : DashEnv) (payload : List UInt8) (d : Dash) :
    AllIn FrameArray.size (keyIdOnlyAccesses api env payload d) ↔
      sstKeyIdSize ≤ payload.length := by
  have hhex : AllIn FrameArray.size (appendHex (.hexStr payload.length) .tmp
      (.payload payload.length) 0 0 payload.length) :=
    allIn_appendHex (by decide) (Nat.zero_add _).le (by simp [FrameArray.size])
  have hdebug : AllIn FrameArray.size
      (appendHex .debugKeyId .buf .lastLifiId 0 0 sstKeyIdSize) :=
    allIn_appendHex le_rfl le_rfl le_rfl
  have hfound : AllIn FrameArray.size
      ((env.keyById (env.peerId payload)).elim [] fun found =>
        foundKeyAccesses api env ((d.noteId env payload).adopt found)) := by
    cases env.keyById (env.peerId payload) with
    | none => exact allIn_nil
    | some found => exact allIn_foundKeyAccesses env _
  simp [keyIdOnlyAccesses, hhex, hdebug, hfound, allIn_keypanelAccesses,
    FrameArray.size]

theorem allIn_handshake3Accesses (hs3 : Option (List UInt8)) :
    AllIn FrameArray.size (handshake3Accesses hs3) := by
  rw [handshake3Accesses.eq_def]
  split
  · exact allIn_nil
  split
  · simp [FrameArray.size]
  · exact allIn_nil

theorem allIn_sstHs2Accesses (env : DashEnv) (hs2 : Bytes 80) (d : Dash) :
    AllIn FrameArray.size (sstHs2Accesses api env hs2 d) := by
  rw [sstHs2Accesses]
  split
  · exact allIn_nil
  · simp [allIn_handshake3Accesses, allIn_keypanelAccesses, FrameArray.size]

theorem allIn_windowSeenAccesses : AllIn FrameArray.size (windowSeenAccesses 64) := by
  rw [windowSeenAccesses, allIn_flatMap]
  intro i hi
  have hlt := List.mem_range.mp hi
  simp [FrameArray.size, sstNonceSize]
  omega

theorem allIn_windowAddAccesses {idx : ℕ} (hidx : idx < 64) :
    AllIn FrameArray.size (windowAddAccesses idx) := by
  simp [windowAddAccesses, FrameArray.size, sstNonceSize]
  omega

theorem allIn_newKeyForcedAccesses (env : DashEnv) :
    AllIn FrameArray.size (newKeyForcedAccesses env) := by
  rw [newKeyForcedAccesses]
  split
  · exact allIn_nil
  · exact allIn_nil
  · simp [FrameArray.size, sessionKeySize, sstKeySize, sstMacKeySize]

theorem allIn_listedIdAccesses (keyList : KeyList) :
    AllIn FrameArray.size (listedIdAccesses keyList) := by
  rw [listedIdAccesses.eq_def]
  split
  · simp [FrameArray.size]
  · exact allIn_nil

theorem allIn_ackAccesses (d : Dash) : AllIn FrameArray.size (ackAccesses d) := by
  simp [ackAccesses, allIn_listedIdAccesses, allIn_keypanelAccesses, FrameArray.size]

theorem length_cstr_le (buf : List UInt8) : (cstr buf).length ≤ buf.length :=
  (List.takeWhile_prefix _).length_le

theorem allIn_messageAccesses (env : DashEnv) (decrypted : List UInt8) (d : Dash) :
    AllIn FrameArray.size (messageAccesses api env decrypted d) := by
  have hcompared : 0 + ((cstr decrypted).length + 1) ≤
      FrameArray.size (.decrypted decrypted.length) := by
    rw [Nat.zero_add]
    exact Nat.succ_le_succ (length_cstr_le decrypted)
  rw [messageAccesses]
  refine allIn_cons.mpr ⟨hcompared, allIn_cons.mpr ⟨hcompared, ?_⟩⟩
  split
  · exact allIn_nil
  refine allIn_cons.mpr ⟨hcompared, ?_⟩
  split
  · exact allIn_newKeyForcedAccesses env
  refine allIn_cons.mpr ⟨hcompared, ?_⟩
  split
  · exact allIn_nil
  rw [allIn_flatten, List.forall_mem_cons, List.forall_mem_singleton]
  refine ⟨?_, ?_⟩
  · split
    · exact allIn_cons.mpr ⟨hcompared, allIn_nil⟩
    · exact allIn_nil
  split
  · exact allIn_ackAccesses d
  refine allIn_cons.mpr ⟨hcompared, ?_⟩
  split
  · exact allIn_handshake1Accesses env d
  · exact allIn_nil

/-! ## Decompressing -/

section File

variable (hpoll : ∀ s n, (hsd.poll s n).2.1.length ≤ n)
  (hsink : ∀ s data, (hsd.sink s data).1.getD 0 ≤ data.length)

include hpoll in
/-- The loop writes to the buffer only, and never past its end. -/
theorem allIn_pollLoopAccesses (rounds : ℕ) (s : hsd.State) {totalDecomp : ℕ}
    (htotal : totalDecomp ≤ decompressedSize) :
    AllIn FrameArray.size (pollLoopAccesses hsd rounds s totalDecomp).1 ∧
      ∀ r ∈ (pollLoopAccesses hsd rounds s totalDecomp).2, r.2 ≤ decompressedSize := by
  induction rounds generalizing s totalDecomp with
  | zero => exact ⟨allIn_nil, fun r hr => absurd hr (Option.not_mem_none r)⟩
  | succ rounds ih =>
      have hwritten : totalDecomp +
          (hsd.poll s (decompressedSize - totalDecomp)).2.1.length ≤ decompressedSize := by
        have hle := hpoll s (decompressedSize - totalDecomp)
        omega
      rw [pollLoopAccesses]
      simp only
      split
      · obtain ⟨hrest, hend⟩ :=
          ih (hsd.poll s (decompressedSize - totalDecomp)).2.2 hwritten
        exact ⟨allIn_cons.mpr ⟨hwritten, hrest⟩, hend⟩
      · refine ⟨allIn_cons.mpr ⟨hwritten, allIn_nil⟩, ?_⟩
        intro r hr
        obtain rfl := Option.some.inj hr
        exact hwritten

include hpoll hsink in
theorem allIn_sinkLoopAccesses (decrypted : List UInt8) (rounds : ℕ) (s : hsd.State)
    (totalSunk : ℕ) {totalDecomp : ℕ} (htotal : totalDecomp ≤ decompressedSize) :
    AllIn FrameArray.size
        (sinkLoopAccesses hsd decrypted rounds s totalSunk totalDecomp).1 ∧
      ∀ r ∈ (sinkLoopAccesses hsd decrypted rounds s totalSunk totalDecomp).2,
        r.2 ≤ decompressedSize := by
  induction rounds generalizing s totalSunk totalDecomp with
  | zero => exact ⟨allIn_nil, fun r hr => absurd hr (Option.not_mem_none r)⟩
  | succ rounds ih =>
      rw [sinkLoopAccesses]
      split
      · next hlt =>
          have hsunk : totalSunk + (hsd.sink s (decrypted.drop totalSunk)).1.getD 0 ≤
              decrypted.length + 1 := by
            have hle := hsink s (decrypted.drop totalSunk)
            rw [List.length_drop] at hle
            omega
          obtain ⟨hpolled, hend⟩ := allIn_pollLoopAccesses hpoll (rounds + 1)
            (hsd.sink s (decrypted.drop totalSunk)).2 htotal
          simp only
          split
          · exact ⟨allIn_cons.mpr ⟨hsunk, hpolled⟩,
              fun r hr => absurd hr (Option.not_mem_none r)⟩
          · next s' totalDecomp' hsome =>
              have htotal' := hend _ hsome
              split
              · refine ⟨allIn_cons.mpr ⟨hsunk, hpolled⟩, ?_⟩
                intro r hr
                obtain rfl := Option.some.inj hr
                exact htotal'
              · obtain ⟨hrest, hend'⟩ := ih s' _ htotal'
                exact ⟨allIn_append.mpr ⟨allIn_cons.mpr ⟨hsunk, hpolled⟩, hrest⟩, hend'⟩
      · refine ⟨allIn_nil, ?_⟩
        intro r hr
        obtain rfl := Option.some.inj hr
        exact htotal

theorem allIn_fileWriteAccesses (fileOpen : Bool) {totalDecomp : ℕ}
    (htotal : totalDecomp ≤ decompressedSize) :
    AllIn FrameArray.size (fileWriteAccesses fileOpen totalDecomp) := by
  have hlog : AllIn FrameArray.size (if 0 < totalDecomp ∧ totalDecomp < 500 then
        [⟨.decompressed, 0, totalDecomp + 1⟩]
      else if 500 ≤ totalDecomp then [⟨.decompressed, 0, 100⟩] else []) := by
    rw [decompressedSize] at htotal
    split
    · simp [FrameArray.size, decompressedSize]
      omega
    split
    · simp [FrameArray.size, decompressedSize]
    · exact allIn_nil
  have hwrite : AllIn FrameArray.size (if fileOpen ∧ 0 < totalDecomp then
      [⟨.decompressed, 0, totalDecomp⟩] else []) := by
    split
    · simp [FrameArray.size, htotal]
    · exact allIn_nil
  have hend : (if totalDecomp < decompressedSize then totalDecomp
      else decompressedSize - 1) + 1 ≤ decompressedSize := by
    rw [decompressedSize]
    split <;> omega
  simp [fileWriteAccesses, hlog, hwrite, FrameArray.size]
  exact hend

include hpoll hsink in
theorem allIn_fileAccesses (rounds : ℕ) (fileOpen : Bool) (decrypted : List UInt8) :
    AllIn FrameArray.size (fileAccesses hsd rounds fileOpen decrypted) := by
  obtain ⟨hfed, hend⟩ := allIn_sinkLoopAccesses hpoll hsink decrypted rounds hsd.alloc 0
    (Nat.zero_le decompressedSize)
  rw [fileAccesses]
  refine allIn_append.mpr ⟨hfed, ?_⟩
  split
  · exact allIn_nil
  · next s totalDecomp hsome =>
      obtain ⟨hdrained, hend'⟩ := allIn_pollLoopAccesses hpoll rounds (hsd.finish s).2
        (hend _ hsome)
      refine allIn_append.mpr ⟨hdrained, ?_⟩
      split
      · exact allIn_nil
      · next hsome' => exact allIn_fileWriteAccesses fileOpen (hend' _ hsome')

theorem allIn_signalAccesses (ctextLen : ℕ) :
    AllIn FrameArray.size (signalAccesses ctextLen) := by
  have hkeyId : AllIn FrameArray.size
      (hexDump .eventKeyIdHex (.keyId .sKey) sstKeyIdSize) :=
    allIn_hexDump le_rfl le_rfl
  have hraw : AllIn FrameArray.size
      (hexDump .rawPreview (.ciphertext ctextLen) (min ctextLen 32)) :=
    allIn_hexDump (Nat.min_le_left _ _) (by simp only [FrameArray.size]; omega)
  have hsanitised : AllIn FrameArray.size ((List.range (min ctextLen 64)).map
      fun i => ⟨FrameArray.payloadPreview, i, 1⟩) := by
    intro a ha
    obtain ⟨i, hi, rfl⟩ := List.mem_map.mp ha
    have hlt := List.mem_range.mp hi
    simp only [InBounds, FrameArray.size]
    omega
  simp [signalAccesses, hkeyId, hraw, hsanitised, FrameArray.size]

include hpoll hsink in
theorem allIn_payloadAccesses (p : PassEnv) (t : DataType) (decrypted : List UInt8)
    (d : Dash) : AllIn FrameArray.size (payloadAccesses api hsd p t decrypted d) := by
  cases t with
  | encrypted => exact allIn_messageAccesses p.env decrypted d
  | file =>
      rw [payloadAccesses]
      split
      · exact allIn_fileAccesses hpoll hsink p.rounds p.fileOpen decrypted
      · exact allIn_nil

include hpoll hsink in
theorem allIn_decryptAccesses (p : PassEnv) (t : DataType) (nonce : Bytes 12)
    (ciphertext : Ctext) (tag : Bytes 16) (d : Dash) :
    AllIn FrameArray.size (decryptAccesses m api hsd p t nonce ciphertext tag d) := by
  simp only [decryptAccesses, allIn_cons, FrameArray.size]
  refine ⟨by decide, le_rfl, (Nat.zero_add _).le, le_rfl, by omega, ?_⟩
  split
  · exact allIn_nil
  · simp [allIn_payloadAccesses hpoll hsink, allIn_signalAccesses, FrameArray.size]

include hpoll hsink in
theorem allIn_dataAccesses (p : PassEnv) (t : DataType) (nonce : Bytes 12)
    (ciphertext : Ctext) (tag : Bytes 16) (d : Dash) :
    AllIn FrameArray.size (dataAccesses m api hsd p t nonce ciphertext tag d) := by
  have hidx : d.rwin.idx < 64 := Nat.lt_of_lt_of_le d.rwin.idx_lt d.rwin.cap_le
  rw [dataAccesses, allIn_flatten, List.forall_mem_cons, List.forall_mem_singleton]
  refine ⟨allIn_windowSeenAccesses, ?_⟩
  split
  · exact allIn_nil
  rw [allIn_flatten, List.forall_mem_cons, List.forall_mem_singleton]
  refine ⟨allIn_windowAddAccesses hidx, ?_⟩
  split
  · exact allIn_decryptAccesses hpoll hsink p t nonce ciphertext tag _
  · exact allIn_nil

end File

/-! ## Short key ids -/

/-- Behind the type byte of a `KEY_ID_ONLY` frame the line brings, without a timeout,
a payload shorter than a key id and the CRC that goes with it. -/
def ShortKeyId (line : List RxEvent) : Prop :=
  ∃ window rest payload body, line = window ++ rest ∧ Carries window body ∧
    FrameBody msgTypeKeyIdOnly payload body ∧ payload.length < sstKeyIdSize

/-- The next byte is the type of such a frame. -/
def Uart.BringsShortKeyId (u : Uart) : Prop :=
  u.uartState = 4 ∧ ∃ line, u.line = .byte msgTypeKeyIdOnly :: line ∧ ShortKeyId line

/-- Such a frame passes all checks. -/
theorem shortKeyId_iff {line : List RxEvent} :
    ShortKeyId line ↔ ∃ payload h,
      (readKeyIdOnly line).1 = .frame (.keyIdOnly payload h) ∧
        payload.length < sstKeyIdSize := by
  constructor
  · rintro ⟨window, rest, payload, body, rfl, hwindow, ⟨len, crc, hlen, hcrc, rfl⟩,
      hshort⟩
    have hshort' : payload.length < 8 := hshort
    rw [List.append_assoc] at hwindow
    obtain ⟨w₁, hread₁, h₁⟩ := readExact_append_of_carries len hwindow rest
    obtain ⟨w₂, hread₂, h₂⟩ := readExact_append_of_carries
      (⟨payload, hlen.symm⟩ : Bytes (be16Of len).toNat) h₁ rest
    rw [← List.append_nil crc.toList] at h₂
    obtain ⟨w₃, hread₃, -⟩ := readExact_append_of_carries crc h₂ rest
    refine ⟨payload, by omega, ?_, hshort⟩
    have haccepts : decide ((be16Of len).toNat ≤ 64) = true :=
      decide_eq_true (by omega)
    simp only [readKeyIdOnly, readShort, hread₁]
    rw [dif_pos haccepts]
    simp only [hread₂, hread₃, hcrc]
    exact congrArg Prod.fst (if_neg (not_not_intro rfl))
  · rintro ⟨payload, h, hread, hshort⟩
    obtain ⟨payload', hok, window, body, hframe, hline, hwindow, hbody⟩ :=
      readShort_sound (Prod.ext hread rfl)
    obtain rfl := (Frame.keyIdOnly.inj hframe).symm
    exact ⟨window, _, payload', body, hline, hwindow, hbody, hshort⟩

theorem type_of_readFrame {b : UInt8} {line : List RxEvent} {f : Frame}
    (h : (readFrame b line).1 = .frame f) : f.type = b := by
  obtain ⟨window, body, -, -, -, body', -, hbytes⟩ := readFrame_sound (Prod.ext h rfl)
  exact (List.cons.inj (List.append_cancel_left hbytes)).1.symm

/-- One pass stays in bounds unless it meets a key id that is too short. -/
theorem allIn_passAccesses_iff (hpoll : ∀ s n, (hsd.poll s n).2.1.length ≤ n)
    (hsink : ∀ s data, (hsd.sink s data).1.getD 0 ≤ data.length) (p : PassEnv)
    (u : Uart) (d : Dash) :
    AllIn FrameArray.size (passAccesses m api hsd p u d) ↔ ¬ u.BringsShortKeyId := by
  obtain ⟨k, line⟩ := u
  rw [passAccesses]
  split
  · next b line hstate hline =>
      simp only at hstate hline
      subst hstate hline
      have hbrings : Uart.BringsShortKeyId ⟨4, .byte b :: line⟩ ↔
          ∃ payload h, (readFrame b line).1 = .frame (.keyIdOnly payload h) ∧
            payload.length < sstKeyIdSize := by
        constructor
        · rintro ⟨-, line', hline, hshort⟩
          obtain ⟨hb, rfl⟩ := List.cons.inj hline
          obtain rfl := RxEvent.byte.inj hb
          exact shortKeyId_iff.mp hshort
        · rintro ⟨payload, h, hread, hshort⟩
          obtain rfl : msgTypeKeyIdOnly = b := type_of_readFrame hread
          exact ⟨rfl, line, rfl, shortKeyId_iff.mpr ⟨payload, h, hread, hshort⟩⟩
      rw [allIn_append, and_iff_right (allIn_frameReads b line), hbrings]
      split
      · next f hread =>
          cases f with
          | keyIdOnly payload h =>
              refine (allIn_keyIdOnlyAccesses p.env payload d.counted).trans ?_
              simp only [hread, UartReport.frame.injEq, Frame.keyIdOnly.injEq]
              simp [h]
          | sstHs2 hs2 =>
              refine iff_of_true (allIn_sstHs2Accesses p.env hs2 d.counted) ?_
              rintro ⟨payload, h, hframe, -⟩
              cases hread.symm.trans hframe
          | data t nonce ciphertext tag =>
              refine iff_of_true
                (allIn_dataAccesses hpoll hsink p t nonce ciphertext tag d.counted) ?_
              rintro ⟨payload, h, hframe, -⟩
              cases hread.symm.trans hframe
      · next hother =>
          refine iff_of_true allIn_nil ?_
          rintro ⟨payload, h, hframe, -⟩
          exact hother _ hframe
  · next hother =>
      refine iff_of_true allIn_nil ?_
      rintro ⟨hstate, line', hline, -⟩
      exact hother _ _ hstate hline

theorem hsd_poll_le (s : (Heatshrink.hsd 512).State) (n : ℕ) :
    ((Heatshrink.hsd 512).poll s n).2.1.length ≤ n :=
  (Heatshrink.computes_hsd 512).poll_le s n

theorem hsd_sink_le (s : (Heatshrink.hsd 512).State) (data : List UInt8) :
    ((Heatshrink.hsd 512).sink s data).1.getD 0 ≤ data.length :=
  Nat.min_le_right _ _

/-- A pass of a run that stays in bounds does. -/
theorem allIn_passAccesses_of_run {start : Uart × Dash}
    {events before after : List (PassEnv × LoopEvent)} {p : PassEnv}
    (h : ∀ a ∈ (frameLoop m api hsd).trace start events, a.InBounds FrameArray.size)
    (hevents : events = before ++ (p, .pass) :: after) :
    AllIn FrameArray.size
      (passAccesses m api hsd p ((frameLoop m api hsd).run start before).1
        ((frameLoop m api hsd).run start before).2) := by
  intro a ha
  exact h a (Machine.mem_trace_iff.mpr ⟨before, (p, .pass), after, hevents, ha⟩)

variable (m api) in
/-- A run stays in bounds exactly if it meets no `KEY_ID_ONLY` frame whose payload is
shorter than a key id. -/
theorem frameLoop_inBounds_iff (start : Uart × Dash)
    (events : List (PassEnv × LoopEvent)) :
    (∀ a ∈ (frameLoop m api (Heatshrink.hsd 512)).trace start events,
        a.InBounds FrameArray.size) ↔
      ∀ before p after, events = before ++ (p, .pass) :: after →
        ¬ ((frameLoop m api (Heatshrink.hsd 512)).run start before).1.BringsShortKeyId := by
  have hpass (p : PassEnv) (u : Uart) (d : Dash) :
      AllIn FrameArray.size (passAccesses m api (Heatshrink.hsd 512) p u d) ↔
        ¬ u.BringsShortKeyId :=
    allIn_passAccesses_iff hsd_poll_le hsd_sink_le p u d
  constructor
  · intro h before p after hevents
    exact (hpass p _ _).mp (allIn_passAccesses_of_run h hevents)
  · intro h a ha
    obtain ⟨before, ⟨p, e⟩, after, hevents, ha⟩ := Machine.mem_trace_iff.mp ha
    cases e with
    | pass => exact (hpass p _ _).mpr (h before p after hevents) a ha
    | key key => cases ha
    | timeout => cases ha

/-! ## A payload of one byte -/

/-- `AB CD EF 12 07 00 01 2A` and the CRC. -/
def shortKeyIdLine : List RxEvent :=
  steady (preamble ++ msgTypeKeyIdOnly ::
    ([0, 1, 42] ++ (crcBytes [msgTypeKeyIdOnly, 0, 1, 42]).toList))

def PassEnv.bare : PassEnv where
  env := DashEnv.bare
  decoderAlloc := true
  fileOpen := true
  rounds := 0

variable (m api hsd) in
/-- Four passes read the preamble. -/
theorem frameLoop_run_preamble (p : PassEnv) (d : Dash) (bs : List UInt8) :
    (frameLoop m api hsd).run (⟨0, steady (preamble ++ bs)⟩, d)
      (List.replicate 4 (p, .pass)) = (⟨4, steady bs⟩, d) := rfl

/-- Its five passes copy eight bytes of the one. -/
theorem frameLoop_leaves_payload :
    ¬ ∀ a ∈ (frameLoop .transparent .failing (Heatshrink.hsd 512)).trace
        (⟨0, shortKeyIdLine⟩,
          Dash.start true none (List.Vector.replicate 64 (Bytes.zero 12)))
        (List.replicate 5 (.bare, .pass)), a.InBounds FrameArray.size := by
  intro h
  have hrun := frameLoop_run_preamble .transparent .failing (Heatshrink.hsd 512) .bare
    (Dash.start true none (List.Vector.replicate 64 (Bytes.zero 12)))
    (msgTypeKeyIdOnly :: ([0, 1, 42] ++
      (crcBytes [msgTypeKeyIdOnly, 0, 1, 42]).toList))
  have hevents : List.replicate 5 (PassEnv.bare, LoopEvent.pass) =
      List.replicate 4 (.bare, .pass) ++ (.bare, .pass) :: [] := rfl
  have hpass := allIn_passAccesses_of_run h hevents
  rw [shortKeyIdLine, hrun, allIn_passAccesses_iff hsd_poll_le hsd_sink_le] at hpass
  refine hpass ⟨rfl, _, rfl, _, [], [42], _, (List.append_nil _).symm,
    carries_steady _, ⟨⟨[0, 1], rfl⟩, crcBytes [msgTypeKeyIdOnly, 0, 1, 42], ?_, ?_, ?_⟩,
    by decide⟩
  · decide
  · exact be16Of_be16Bytes _
  · rfl

end LifiAuth
