import LifiAuth.Dash.FrameRoundTrip

/-!
# The parser of dash_receiver hands on only what was on the line

Whatever comes over the line and wherever reads time out, every frame that passes its
checks was there in one piece, preamble included, and the pieces of successive frames
follow one another.
-/

namespace LifiAuth

open Support

/-- The payload lengths that the branch of a type accepts. -/
def AcceptedLength (type : UInt8) (len : ℕ) : Prop :=
  (type = msgTypeKeyIdOnly ∧ len ≤ 64) ∨
    (type = msgTypeSstHs2 ∧ len = sstHs2PayloadSize) ∨
    ((type = msgTypeEncrypted ∨ type = msgTypeFile) ∧
      sstNonceSize + sstTagSize ≤ len ∧ len ≤ maxMsgLen)

/-- `L1 L0 payload C1 C0`: what follows the type of a frame with this payload. -/
def FrameBody (type : UInt8) (payload body : List UInt8) : Prop :=
  ∃ len crc : Bytes 2, (be16Of len).toNat = payload.length ∧
    be16Of crc = crc16Ccitt ([type] ++ len.toList ++ payload) ∧
    body = len.toList ++ payload ++ crc.toList

/-- `AB CD EF 12 T L1 L0 payload C1 C0` with an accepted type and length. -/
def IsFrame (frame : UInt8 × List UInt8) (bytes : List UInt8) : Prop :=
  AcceptedLength frame.1 frame.2.length ∧
    ∃ body, FrameBody frame.1 frame.2 body ∧ bytes = preamble ++ frame.1 :: body

/-! ## Reading one frame -/

theorem suffix_readShort (type : UInt8) (accepts : ℕ → Bool)
    (mk : (payload : List UInt8) → accepts payload.length = true → Frame)
    (line : List RxEvent) : (readShort type accepts mk line).2 <:+ line := by
  have hlen := suffix_readExact 2 line
  rw [readShort]
  split
  · next hread => rwa [hread] at hlen
  · next len line₁ hread =>
      rw [hread] at hlen
      simp only
      split
      · have hpayload := suffix_readExact (be16Of len).toNat line₁
        split
        · next hread =>
            rw [hread] at hpayload
            exact hpayload.trans hlen
        · next line₂ hread =>
            rw [hread] at hpayload
            have hcrc := suffix_readExact 2 line₂
            split
            · next hread =>
                rw [hread] at hcrc
                exact hcrc.trans (hpayload.trans hlen)
            · next hread =>
                rw [hread] at hcrc
                split
                · exact hcrc.trans (hpayload.trans hlen)
                · exact hcrc.trans (hpayload.trans hlen)
      · exact hlen

theorem suffix_readData (t : DataType) (line : List RxEvent) :
    (readData t line).2 <:+ line := by
  have hlen := suffix_readExact 2 line
  rw [readData]
  split
  · next hread => rwa [hread] at hlen
  · next len line₁ hread =>
      rw [hread] at hlen
      have hreads (n : ℕ) : (readExact 2 (readExact 16 (readExact n
          (readExact 12 line₁).2).2).2).2 <:+ line :=
        (suffix_readExact 2 _).trans ((suffix_readExact 16 _).trans
          ((suffix_readExact n _).trans ((suffix_readExact 12 line₁).trans hlen)))
      simp only
      split
      · exact hlen
      · split
        · split
          · exact hreads _
          · exact hreads _
        · exact hreads _

theorem suffix_tapRead (n : ℕ) (line : List RxEvent) : (tapRead n line).2 <:+ line := by
  induction n generalizing line with
  | zero => exact List.suffix_refl line
  | succ n ih =>
      have hread := suffix_readExact 1 line
      rw [tapRead]
      split
      · next h => rwa [h] at hread
      · next h =>
          rw [h] at hread
          exact (ih _).trans hread

/-- Whatever becomes of a frame, its reads put nothing back. -/
theorem suffix_readFrame (b : UInt8) (line : List RxEvent) :
    (readFrame b line).2 <:+ line := by
  rw [readFrame]
  split
  · exact suffix_readShort _ _ _ line
  · split
    · exact suffix_readShort _ _ _ line
    · split
      · exact suffix_readData _ line
      · split
        · exact suffix_readData _ line
        · exact suffix_tapRead 15 line

/-- A frame read in one piece was on the line without a timeout. -/
theorem readShort_sound {type : UInt8} {accepts : ℕ → Bool}
    {mk : (payload : List UInt8) → accepts payload.length = true → Frame}
    {line line' : List RxEvent} {f : Frame}
    (h : readShort type accepts mk line = (.frame f, line')) :
    ∃ payload hok window body, f = mk payload hok ∧ line = window ++ line' ∧
      Carries window body ∧ FrameBody type payload body := by
  rw [readShort] at h
  split at h
  · cases (Prod.mk.inj h).1
  · next len line₁ hlen =>
      simp only at h
      split at h
      · next hok =>
          split at h
          · cases (Prod.mk.inj h).1
          · next payload line₂ hpayload =>
              split at h
              · cases (Prod.mk.inj h).1
              · next crc line₃ hcrc =>
                  split at h
                  · cases (Prod.mk.inj h).1
                  · next hsum =>
                      obtain ⟨hreport, rfl⟩ := Prod.mk.inj h
                      obtain rfl := UartReport.frame.inj hreport
                      obtain ⟨w₁, rfl, h₁⟩ := carries_of_readExact hlen
                      obtain ⟨w₂, rfl, h₂⟩ := carries_of_readExact hpayload
                      obtain ⟨w₃, rfl, h₃⟩ := carries_of_readExact hcrc
                      refine ⟨payload.toList, _, w₁ ++ w₂ ++ w₃, _, rfl, ?_,
                        (h₁.append h₂).append h₃, len, crc,
                        payload.toList_length.symm, ?_, rfl⟩
                      · rw [List.append_assoc, List.append_assoc]
                      · exact (not_not.mp hsum).symm
      · cases (Prod.mk.inj h).1

theorem readData_sound {t : DataType} {line line' : List RxEvent} {f : Frame}
    (h : readData t line = (.frame f, line')) :
    f.type = t.byte ∧ sstNonceSize + sstTagSize ≤ f.payload.length ∧
      f.payload.length ≤ maxMsgLen ∧ ∃ window body, line = window ++ line' ∧
        Carries window body ∧ FrameBody t.byte f.payload body := by
  rw [readData] at h
  split at h
  · cases (Prod.mk.inj h).1
  · next len line₁ hlen =>
      simp only at h
      split at h
      · cases (Prod.mk.inj h).1
      · next hbounds =>
          split at h
          · next nonce ciphertext tag crc hnonce hcipher htag hcrc =>
              split at h
              · cases (Prod.mk.inj h).1
              · next hsum =>
                  obtain ⟨hreport, rfl⟩ := Prod.mk.inj h
                  obtain rfl := UartReport.frame.inj hreport
                  obtain ⟨w₁, rfl, h₁⟩ := carries_of_readExact hlen
                  obtain ⟨w₂, hline₁, h₂⟩ := carries_of_readExact (Prod.ext hnonce rfl)
                  obtain ⟨w₃, hline₂, h₃⟩ := carries_of_readExact (Prod.ext hcipher rfl)
                  obtain ⟨w₄, hline₃, h₄⟩ := carries_of_readExact (Prod.ext htag rfl)
                  obtain ⟨w₅, hline₄, h₅⟩ := carries_of_readExact (Prod.ext hcrc rfl)
                  have hpayload : (Frame.data t nonce ⟨ciphertext.toList, by
                      rw [ciphertext.toList_length]
                      simp only [maxCtextLen]
                      omega⟩ tag).payload.length = (be16Of len).toNat := by
                    simp only [Frame.payload, List.length_append,
                      List.Vector.toList_length]
                    simp only [sstNonceSize, sstTagSize] at hbounds ⊢
                    omega
                  refine ⟨rfl, ?_, ?_, w₁ ++ (w₂ ++ (w₃ ++ (w₄ ++ w₅))), _, ?_,
                    h₁.append (h₂.append (h₃.append (h₄.append h₅))), len, crc,
                    hpayload.symm, ?_, ?_⟩
                  · omega
                  · omega
                  · simp only [List.append_assoc]
                    rw [← hline₄, ← hline₃, ← hline₂, ← hline₁]
                  · rw [← not_not.mp hsum]
                    simp only [Frame.payload, List.append_assoc]
                  · simp only [Frame.payload, List.append_assoc]
          · cases (Prod.mk.inj h).1

/-- Every frame that is read was on the line without a timeout. -/
theorem readFrame_sound {b : UInt8} {line line' : List RxEvent} {f : Frame}
    (h : readFrame b line = (.frame f, line')) :
    ∃ window body, line = window ++ line' ∧ Carries window body ∧
      IsFrame (f.type, f.payload) (preamble ++ b :: body) := by
  rw [readFrame] at h
  split at h
  · next hb =>
      obtain ⟨payload, hok, window, body, rfl, hline, hwindow, hbody⟩ :=
        readShort_sound h
      exact ⟨window, body, hline, hwindow, Or.inl ⟨rfl, of_decide_eq_true hok⟩,
        body, hbody, by rw [hb]; rfl⟩
  · split at h
    · next hb =>
        obtain ⟨payload, hok, window, body, rfl, hline, hwindow, hbody⟩ :=
          readShort_sound h
        exact ⟨window, body, hline, hwindow,
          Or.inr (Or.inl ⟨rfl, of_decide_eq_true hok⟩), body, hbody, by rw [hb]; rfl⟩
    · have hdata (t : DataType) (hb : b = t.byte) (h : readData t line = (.frame f, line')) :
          ∃ window body, line = window ++ line' ∧ Carries window body ∧
            IsFrame (f.type, f.payload) (preamble ++ b :: body) := by
        obtain ⟨htype, hmin, hmax, window, body, hline, hwindow, hbody⟩ :=
          readData_sound h
        refine ⟨window, body, hline, hwindow, Or.inr (Or.inr ⟨?_, hmin, hmax⟩),
          body, htype ▸ hbody, by rw [hb, htype]⟩
        rw [htype]
        cases t with
        | encrypted => exact Or.inl rfl
        | file => exact Or.inr rfl
      split at h
      · next hb => exact hdata .encrypted hb h
      · split at h
        · next hb => exact hdata .file hb h
        · cases (Prod.mk.inj h).1

/-! ## The whole line -/

theorem handed_of_hunting {r : UartReport} (h : r.hunting = true) : r.handed = none := by
  cases r with
  | frame f => cases h
  | _ => rfl

/-- In state four the preamble is followed by a whole frame, or what is read is
passed over. -/
theorem stretches_frame (b : UInt8) (line : List RxEvent)
    {frames : List (UInt8 × List UInt8)}
    (h : Stretches IsFrame (receivedBytes (readFrame b line).2) frames) :
    Stretches IsFrame (preamble ++ b :: receivedBytes line)
      ((readFrame b line).1.handed.toList ++ frames) := by
  by_cases hframe : ∃ f, (readFrame b line).1 = .frame f
  · obtain ⟨f, hread⟩ := hframe
    obtain ⟨window, body, hline, hwindow, hbytes⟩ :=
      readFrame_sound (Prod.ext hread rfl)
    have hstream : preamble ++ b :: receivedBytes line =
        (preamble ++ b :: body) ++ receivedBytes (readFrame b line).2 := by
      rw [← hwindow.receivedBytes_eq, List.append_assoc, List.cons_append,
        ← receivedBytes_append, ← hline]
    rw [hread, hstream]
    exact .cons hbytes h
  · have hnone : (readFrame b line).1.handed = none := by
      cases hread : (readFrame b line).1 with
      | frame f => exact absurd ⟨f, hread⟩ hframe
      | _ => rfl
    obtain ⟨window, hline⟩ := suffix_readFrame b line
    have hstream : preamble ++ b :: receivedBytes line =
        (preamble ++ b :: receivedBytes window) ++
          receivedBytes (readFrame b line).2 := by
      rw [List.append_assoc, List.cons_append, ← receivedBytes_append, hline]
    rw [hnone, hstream]
    exact .skip _ h

/-- Behind the bytes of the preamble that are already matched, the frames that will
be handed on are on the line. -/
theorem stretches_uartRun (n : ℕ) {u : Uart} (hu : u.uartState ≤ preamble.length) :
    Stretches IsFrame (preamble.take u.uartState ++ receivedBytes u.line)
      ((uartRun n u).1.filterMap UartReport.handed) := by
  induction n generalizing u with
  | zero => exact .nil _
  | succ n ih =>
      obtain ⟨k, line⟩ := u
      have hrun : (uartRun (n + 1) ⟨k, line⟩).1 = (uartIter ⟨k, line⟩).1 ::
          (uartRun n (uartIter ⟨k, line⟩).2).1 := rfl
      rw [hrun, List.filterMap_cons]
      cases line with
      | nil => exact ih (u := ⟨k, []⟩) hu
      | cons e line =>
          cases e with
          | idle => exact ih (u := ⟨k, line⟩) hu
          | timeout => exact ih (u := ⟨k, line⟩) hu
          | byte b =>
              rcases Nat.lt_or_eq_of_le (show k ≤ preamble.length from hu) with hk | hk
              · obtain ⟨r, hstep, hr⟩ := uartByte_hunt hk b line
                have hiter : uartIter ⟨k, .byte b :: line⟩ =
                    (r, ⟨huntStep preamble k b, line⟩) := hstep
                rw [hiter, handed_of_hunting hr]
                obtain ⟨gap, hgap⟩ :=
                  take_huntStep_suffix (List.suffix_refl (preamble.take k)) b
                have hrest := (ih (u := ⟨huntStep preamble k b, line⟩)
                  huntStep_le_length).skip gap
                rw [← List.append_assoc, hgap, List.append_assoc] at hrest
                exact hrest
              · subst hk
                have hframe := stretches_frame b line
                  (ih (u := ⟨0, (readFrame b line).2⟩) (Nat.zero_le _))
                have hiter : uartIter ⟨preamble.length, .byte b :: line⟩ =
                    ((readFrame b line).1, ⟨0, (readFrame b line).2⟩) := rfl
                rw [hiter, List.take_length]
                cases hhanded : (readFrame b line).1.handed with
                | none =>
                    rw [hhanded] at hframe
                    exact hframe
                | some frame =>
                    rw [hhanded] at hframe
                    exact hframe

/-- Whatever comes over the line and wherever reads time out: the frames that pass
their CRC check, with type and payload, are found on the line one after another. -/
theorem dash_parser_sound (line : List RxEvent) (n : ℕ) :
    Stretches IsFrame (receivedBytes line)
      ((uartRun n ⟨0, line⟩).1.filterMap UartReport.handed) :=
  stretches_uartRun n (u := ⟨0, line⟩) (Nat.zero_le _)

end LifiAuth
