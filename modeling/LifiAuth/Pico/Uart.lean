import LifiAuth.Protocol.Constants
import LifiAuth.Protocol.Serial

/-!
# The byte parser of the sender

The `challenge_state` machine that drains uart1 inside the input loop.  Unlike the
receiver's parser it has no checksum, and two of its error paths throw away
whatever has already arrived.
-/

namespace LifiAuth

/-- What one byte of the drain loop led to. -/
inductive PicoReport where
  | quiet
  | lengthTimeout (type : UInt8)
  | badLength (type : UInt8) (len : UInt16)
  | payloadTimeout (type : UInt8)
  | hs1 (payload : Bytes 72)
  | hs3 (payload : Bytes 80)
  | key (keyId : Bytes 8) (key : Bytes 16) (macKey : Bytes 32)
  | unknownType (type : UInt8)
  deriving DecidableEq

/-- `challenge_state` and what is still to come on uart1. -/
structure PicoUart where
  challengeState : ℕ
  line : List RxEvent

def RxEvent.isByte : RxEvent → Bool
  | .byte _ => true
  | _ => false

/-- `while (uart_is_readable(UART_ID)) (void)uart_getc(UART_ID);` -/
def flushRx (line : List RxEvent) : List RxEvent :=
  line.dropWhile RxEvent.isByte

/-- The reads of the two handshake messages; `onBadHeader` is what happens to the
line when the length does not come or is wrong. -/
def readHandshake (type : UInt8) (size : ℕ)
    (onBadHeader : List RxEvent → List RxEvent) (mk : Bytes size → PicoReport)
    (line : List RxEvent) : PicoReport × List RxEvent :=
  match readExact 2 line with
  | (none, line) => (.lengthTimeout type, onBadHeader line)
  | (some len, line) =>
      if (be16Of len).toNat ≠ size then
        (.badLength type (be16Of len), onBadHeader line)
      else
        match readExact size line with
        | (none, line) => (.payloadTimeout type, line)
        | (some payload, line) => (mk payload, line)

/-- The `MSG_TYPE_SST_HS1` branch. -/
def readHs1 : List RxEvent → PicoReport × List RxEvent :=
  readHandshake msgTypeSstHs1 72 flushRx .hs1

/-- The `MSG_TYPE_SST_HS3` branch. -/
def readHs3 : List RxEvent → PicoReport × List RxEvent :=
  readHandshake msgTypeSstHs3 80 id .hs3

/-- The `MSG_TYPE_KEY` branch; the length is read but not looked at. -/
def readKey (line : List RxEvent) : PicoReport × List RxEvent :=
  match readExact 2 line with
  | (none, line) => (.payloadTimeout msgTypeKey, flushRx line)
  | (some _, line) =>
      match readExact 8 line with
      | (none, line) => (.payloadTimeout msgTypeKey, flushRx line)
      | (some newId, line) =>
          match readExact 16 line with
          | (none, line) => (.payloadTimeout msgTypeKey, flushRx line)
          | (some newKey, line) =>
              match readExact 32 line with
              | (none, line) => (.payloadTimeout msgTypeKey, flushRx line)
              | (some newMacKey, line) => (.key newId newKey newMacKey, line)

/-- State four: `byte` is the message type. -/
def picoReadFrame (byte : UInt8) (line : List RxEvent) :
    PicoReport × List RxEvent :=
  if byte = msgTypeSstHs1 then readHs1 line
  else if byte = msgTypeSstHs3 then readHs3 line
  else if byte = msgTypeKey then readKey line
  else (.unknownType byte, line)

/-- The `switch` of the drain loop. -/
def picoByte (challengeState : ℕ) (byte : UInt8) (line : List RxEvent) :
    PicoReport × PicoUart :=
  match challengeState with
  | 0 => (.quiet, ⟨if byte = preambleByte1 then 1 else 0, line⟩)
  | 1 =>
      (.quiet, ⟨if byte = preambleByte2 then 2
        else if byte = preambleByte1 then 1 else 0, line⟩)
  | 2 =>
      (.quiet, ⟨if byte = preambleByte3 then 3
        else if byte = preambleByte1 then 1 else 0, line⟩)
  | 3 =>
      (.quiet, ⟨if byte = preambleByte4 then 4
        else if byte = preambleByte1 then 1 else 0, line⟩)
  | 4 => ((picoReadFrame byte line).1, ⟨0, (picoReadFrame byte line).2⟩)
  | n => (.quiet, ⟨n, line⟩)

/-- One look at uart1. -/
def picoUartIter (u : PicoUart) : PicoReport × PicoUart :=
  match u.line with
  | [] => (.quiet, u)
  | .byte b :: line => picoByte u.challengeState b line
  | .idle :: line => (.quiet, ⟨u.challengeState, line⟩)
  | .timeout :: line => (.quiet, ⟨u.challengeState, line⟩)

/-- A KEY frame that comes without a timeout is read whole. -/
theorem readKey_of_carries (len : Bytes 2) (newId : Bytes 8) (newKey : Bytes 16)
    (newMacKey : Bytes 32) {line : List RxEvent} {rest : List UInt8}
    (h : Carries line (len.toList ++ (newId.toList ++
      (newKey.toList ++ (newMacKey.toList ++ rest))))) :
    ∃ line', readKey line = (.key newId newKey newMacKey, line') ∧
      Carries line' rest ∧ line'.length ≤ line.length := by
  obtain ⟨line₁, hlen, h, hle₁⟩ := readExact_of_carries len h
  obtain ⟨line₂, hid, h, hle₂⟩ := readExact_of_carries newId h
  obtain ⟨line₃, hkey, h, hle₃⟩ := readExact_of_carries newKey h
  obtain ⟨line₄, hmac, h, hle₄⟩ := readExact_of_carries newMacKey h
  refine ⟨line₄, ?_, h, hle₄.trans (hle₃.trans (hle₂.trans hle₁))⟩
  simp only [readKey, hlen, hid, hkey, hmac]

/-! ## The bytes that are left -/

/-- The bytes that are still to come. -/
def pendingBytes (line : List RxEvent) : ℕ :=
  line.countP RxEvent.isByte

theorem pendingBytes_of_carries {line : List RxEvent} {bs : List UInt8}
    (h : Carries line bs) : pendingBytes line = bs.length := by
  induction h with
  | nil => rfl
  | byte b h ih =>
      rw [pendingBytes, List.countP_cons_of_pos rfl]
      exact congrArg (· + 1) ih
  | idle h ih =>
      rw [pendingBytes, List.countP_cons_of_neg (by simp [RxEvent.isByte])]
      exact ih

theorem pendingBytes_le_of_suffix {line line' : List RxEvent} (h : line' <:+ line) :
    pendingBytes line' ≤ pendingBytes line :=
  h.sublist.countP_le

/-- A read that succeeds takes its bytes from the line. -/
theorem pendingBytes_readExact {n : ℕ} {line line' : List RxEvent} {b : Bytes n}
    (h : readExact n line = (some b, line')) :
    n + pendingBytes line' = pendingBytes line := by
  obtain ⟨taken, rfl, hcarries⟩ := carries_of_readExact h
  have htaken : pendingBytes taken = n := by
    rw [pendingBytes_of_carries hcarries, b.toList_length]
  have happend : pendingBytes (taken ++ line') =
      pendingBytes taken + pendingBytes line' := List.countP_append
  rw [happend, htaken]

theorem suffix_readHandshake (type : UInt8) (size : ℕ)
    {onBadHeader : List RxEvent → List RxEvent} (mk : Bytes size → PicoReport)
    (hbad : ∀ line, onBadHeader line <:+ line) (line : List RxEvent) :
    (readHandshake type size onBadHeader mk line).2 <:+ line := by
  have hlen := suffix_readExact 2 line
  rw [readHandshake]
  split
  · next line' hread =>
      rw [hread] at hlen
      exact (hbad line').trans hlen
  · next len line' hread =>
      rw [hread] at hlen
      split
      · exact (hbad line').trans hlen
      · have hpayload := suffix_readExact size line'
        split
        · next hread' =>
            rw [hread'] at hpayload
            exact hpayload.trans hlen
        · next hread' =>
            rw [hread'] at hpayload
            exact hpayload.trans hlen

theorem suffix_flushRx (line : List RxEvent) : flushRx line <:+ line :=
  List.dropWhile_suffix _

theorem suffix_readKey (line : List RxEvent) : (readKey line).2 <:+ line := by
  have hlen := suffix_readExact 2 line
  rw [readKey]
  split
  · next line₁ hread =>
      rw [hread] at hlen
      exact (suffix_flushRx line₁).trans hlen
  · next line₁ hread =>
      rw [hread] at hlen
      have hid := suffix_readExact 8 line₁
      split
      · next line₂ hread =>
          rw [hread] at hid
          exact (suffix_flushRx line₂).trans (hid.trans hlen)
      · next line₂ hread =>
          rw [hread] at hid
          have hkey := suffix_readExact 16 line₂
          split
          · next line₃ hread =>
              rw [hread] at hkey
              exact (suffix_flushRx line₃).trans (hkey.trans (hid.trans hlen))
          · next line₃ hread =>
              rw [hread] at hkey
              have hmac := suffix_readExact 32 line₃
              split
              · next line₄ hread =>
                  rw [hread] at hmac
                  exact (suffix_flushRx line₄).trans
                    (hmac.trans (hkey.trans (hid.trans hlen)))
              · next line₄ hread =>
                  rw [hread] at hmac
                  exact hmac.trans (hkey.trans (hid.trans hlen))

theorem suffix_picoReadFrame (byte : UInt8) (line : List RxEvent) :
    (picoReadFrame byte line).2 <:+ line := by
  rw [picoReadFrame]
  split
  · exact suffix_readHandshake _ _ _ suffix_flushRx line
  · split
    · exact suffix_readHandshake _ _ _ List.suffix_refl line
    · split
      · exact suffix_readKey line
      · exact List.suffix_refl line

/-- A look never puts anything back. -/
theorem suffix_picoUartIter (u : PicoUart) : (picoUartIter u).2.line <:+ u.line := by
  obtain ⟨k, line⟩ := u
  cases line with
  | nil => exact List.suffix_refl []
  | cons e line =>
      cases e with
      | idle => exact List.suffix_cons _ line
      | timeout => exact List.suffix_cons _ line
      | byte b =>
          have hcases : (picoByte k b line).2.line = line ∨
              (picoByte k b line).2.line = (picoReadFrame b line).2 := by
            unfold picoByte
            split
            all_goals simp
          have hbyte : (picoByte k b line).2.line <:+ line := by
            rcases hcases with heq | heq
            · rw [heq]
            · rw [heq]
              exact suffix_picoReadFrame b line
          exact hbyte.trans (List.suffix_cons _ line)

/-- The four reads of a KEY frame. -/
theorem readKey_eq_key {line line' : List RxEvent} {id : Bytes 8} {key : Bytes 16}
    {macKey : Bytes 32} (h : readKey line = (.key id key macKey, line')) :
    ∃ len line₁ line₂ line₃, readExact 2 line = (some len, line₁) ∧
      readExact 8 line₁ = (some id, line₂) ∧
      readExact 16 line₂ = (some key, line₃) ∧
      readExact 32 line₃ = (some macKey, line') := by
  rw [readKey] at h
  split at h
  · cases (Prod.mk.inj h).1
  · next len line₁ hlen =>
      split at h
      · cases (Prod.mk.inj h).1
      · next newId line₂ hid =>
          split at h
          · cases (Prod.mk.inj h).1
          · next newKey line₃ hkey =>
              split at h
              · cases (Prod.mk.inj h).1
              · next newMacKey line₄ hmac =>
                  obtain ⟨hreport, rfl⟩ := Prod.mk.inj h
                  obtain ⟨rfl, rfl, rfl⟩ := PicoReport.key.inj hreport
                  exact ⟨len, line₁, line₂, line₃, hlen, hid, hkey, hmac⟩

theorem readHandshake_ne_key (type : UInt8) (size : ℕ)
    (onBadHeader : List RxEvent → List RxEvent) (mk : Bytes size → PicoReport)
    {id : Bytes 8} {key : Bytes 16} {macKey : Bytes 32}
    (hmk : ∀ payload, mk payload ≠ .key id key macKey) (line : List RxEvent) :
    (readHandshake type size onBadHeader mk line).1 ≠ .key id key macKey := by
  rw [readHandshake]
  split
  · exact PicoReport.noConfusion
  · split
    · exact PicoReport.noConfusion
    · split
      · exact PicoReport.noConfusion
      · exact hmk _

theorem type_of_key {b : UInt8} {line : List RxEvent} {id : Bytes 8}
    {key : Bytes 16} {macKey : Bytes 32}
    (h : (picoReadFrame b line).1 = .key id key macKey) : b = msgTypeKey := by
  rw [picoReadFrame] at h
  split at h
  · exact absurd h (readHandshake_ne_key _ _ _ _ (fun _ => PicoReport.noConfusion) line)
  · split at h
    · exact absurd h
        (readHandshake_ne_key _ _ _ _ (fun _ => PicoReport.noConfusion) line)
    · split at h
      · next hkey => exact hkey
      · cases h

/-- A KEY frame is only reported where a whole one is on the line. -/
theorem pendingBytes_of_key {u : PicoUart} {id : Bytes 8} {key : Bytes 16}
    {macKey : Bytes 32} (h : (picoUartIter u).1 = .key id key macKey) :
    58 < pendingBytes u.line := by
  obtain ⟨k, line⟩ := u
  cases line with
  | nil => cases h
  | cons e line =>
      cases e with
      | idle => cases h
      | timeout => cases h
      | byte b =>
          have hframe : (picoReadFrame b line).1 = .key id key macKey := by
            have hbyte : (picoByte k b line).1 = .key id key macKey := h
            unfold picoByte at hbyte
            split at hbyte
            all_goals first
              | exact hbyte
              | cases hbyte
          have hread : (readKey line).1 = .key id key macKey := by
            rw [type_of_key hframe] at hframe
            exact hframe
          have hkeyRead : readKey line = (.key id key macKey, (readKey line).2) :=
            Prod.ext hread rfl
          obtain ⟨len, line₁, line₂, line₃, hlen, hid, hkey, hmac⟩ :=
            readKey_eq_key hkeyRead
          have hlen := pendingBytes_readExact hlen
          have hid := pendingBytes_readExact hid
          have hkey := pendingBytes_readExact hkey
          have hmac := pendingBytes_readExact hmac
          have hcons : pendingBytes (.byte b :: line) = pendingBytes line + 1 :=
            List.countP_cons_of_pos rfl
          simp only [hcons]
          omega

end LifiAuth
