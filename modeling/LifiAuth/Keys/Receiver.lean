import LifiAuth.System.KeyDelivery
import LifiAuth.System.KeyUpdate

/-!
# keys_receiver

The program that only fetches keys and writes them to the Pico: its startup, its key
presses, and what the Pico makes of the frames.  Its KEY frames carry the cipher key
buffer of `SESSION_KEY_SIZE` bytes, where the Pico reads `SST_KEY_SIZE` bytes.
-/

namespace LifiAuth

open Support

/-- The variables of `main` in `keys_receiver.c`. -/
structure KeysReceiver where
  fdOpen : Bool
  sKey : SessionKey
  keyValid : Bool
  keyList : KeyList
  currentKeyIdx : ℕ
  keysConsumed : ℕ

inductive KeysPress where
  | n
  | one
  | f
  | r

/-- A KEY frame was written for the `active` key. -/
structure KeysOut where
  active : SessionKey
  bytes : List UInt8
  deriving DecidableEq

/-! ## Startup and key presses -/

/-- `SESSION_KEY_ID_SIZE + SESSION_KEY_SIZE + 32`. -/
def keysFrameLen : ℕ := sstKeyIdSize + sessionKeySize + sstMacKeySize

/-- The four writes of a KEY frame. -/
def keysFrameParts (k : SessionKey) : List (List UInt8) :=
  [txHeader msgTypeKey keysFrameLen, k.keyId.toList, k.cipherKey.toList,
    k.macKey.toList]

/-- A complete KEY frame. -/
def keysFrame (k : SessionKey) : List UInt8 :=
  (keysFrameParts k).flatten

/-- The writes, if the serial port is open. -/
def KeysReceiver.sendKey (env : DashEnv) (d : KeysReceiver) : List KeysOut :=
  if d.fdOpen then [⟨d.sKey, (writeChain env.writes 0 (keysFrameParts d.sKey)).1⟩]
  else []

/-- The part of `main` before its loop, with the first answer of
`get_session_key`. -/
def keysStart (env : DashEnv) (fdOpen : Bool) : KeysReceiver × List KeysOut :=
  let keyList := env.sessionKeys.getD []
  let d : KeysReceiver :=
    { fdOpen := fdOpen
      sKey := keyList.headD SessionKey.zero
      keyValid := keyList.length > 0
      keyList := some keyList
      currentKeyIdx := 0
      keysConsumed := 0 }
  (d, if d.keyValid then d.sendKey env else [])

/-- The keys that change the state or write a frame. -/
def keysPress (d : KeysReceiver) (env : DashEnv) :
    KeysPress → KeysReceiver × List KeysOut
  | .n =>
      match d.keyList with
      | some keys =>
          if keys.length > 1 then
            let idx := (d.currentKeyIdx + 1) % keys.length
            ({ d with
              currentKeyIdx := idx
              sKey := keys.getD idx SessionKey.zero }, [])
          else (d, [])
      | none => (d, [])
  | .one => (d, if d.keyValid then d.sendKey env else [])
  | .f =>
      match env.sessionKeys with
      | none | some [] => (d, [])
      | some (k :: keys) =>
          let d := { d with
            keyList := some (k :: keys)
            sKey := k
            keyValid := true
            keysConsumed := d.keysConsumed + 1 }
          (d, d.sendKey env)
  | .r => ({ d with fdOpen := env.reopens }, [])

/-! ## The bytes of a frame -/

theorem sendKey_bytes {env : DashEnv} (hwrites : ∀ i, env.writes i = none)
    {d : KeysReceiver} {o : KeysOut} (ho : o ∈ d.sendKey env) :
    o.bytes = keysFrame o.active := by
  rw [KeysReceiver.sendKey] at ho
  split at ho
  · rw [List.mem_singleton.mp ho]
    exact congrArg Prod.fst (writeChain_of_writes hwrites 0 _)
  · cases ho

/-- Wherever a KEY frame is written without a failure, it is the same frame. -/
theorem keysFrame_of_written {env : DashEnv} (hwrites : ∀ i, env.writes i = none)
    {fdOpen : Bool} {d : KeysReceiver} {press : KeysPress} {o : KeysOut}
    (ho : o ∈ (keysStart env fdOpen).2 ∨ o ∈ (keysPress d env press).2) :
    o.bytes = keysFrame o.active := by
  rcases ho with ho | ho
  · simp only [keysStart] at ho
    split at ho
    · exact sendKey_bytes hwrites ho
    · cases ho
  · cases press with
    | n =>
        simp only [keysPress] at ho
        split at ho
        · split at ho
          · cases ho
          · cases ho
        · cases ho
    | one =>
        simp only [keysPress] at ho
        split at ho
        · exact sendKey_bytes hwrites ho
        · cases ho
    | f =>
        simp only [keysPress] at ho
        split at ho
        · cases ho
        · cases ho
        · exact sendKey_bytes hwrites ho
    | r => cases ho

/-- What the Pico reads as the MAC key: the second half of the cipher key buffer and
the first half of the MAC key. -/
def misreadMacKey (k : SessionKey) : Bytes 32 :=
  ⟨k.cipherKey.toList.drop 16 ++ k.macKey.toList.take 16, by simp⟩

@[simp] theorem toList_misreadMacKey (k : SessionKey) :
    (misreadMacKey k).toList =
      k.cipherKey.toList.drop 16 ++ k.macKey.toList.take 16 := rfl

theorem keysFrame_eq (k : SessionKey) :
    keysFrame k = preamble ++ msgTypeKey :: ((lenBytes keysFrameLen).toList ++
      (k.keyId.toList ++ (k.aesKey.toList ++ ((misreadMacKey k).toList ++
        k.macKey.toList.drop 16)))) := by
  have hcipher : k.cipherKey.toList = k.aesKey.toList ++
      k.cipherKey.toList.drop 16 := by
    rw [SessionKey.aesKey, aesKeyOf, Bytes.toList_slice, List.drop_zero,
      List.take_append_drop]
  have hmac : k.macKey.toList = k.macKey.toList.take 16 ++
      k.macKey.toList.drop 16 := (List.take_append_drop ..).symm
  calc keysFrame k
      = preamble ++ msgTypeKey :: ((lenBytes keysFrameLen).toList ++
          (k.keyId.toList ++ (k.cipherKey.toList ++ k.macKey.toList))) := by
        simp [keysFrame, keysFrameParts, txHeader]
    _ = _ := by
        conv_lhs => rw [hcipher, hmac]
        simp only [toList_misreadMacKey, List.append_assoc]

/-! ## What the Pico makes of it -/

section

variable {m : Mbedtls}

/-- Where less than a KEY frame is on uart1, draining it leaves the keys alone. -/
theorem installed_run_lifiDrain {p : Pico} {u : PicoUart}
    (hu : pendingBytes u.line ≤ 58) (envs : List PicoEnv) :
    ((lifiDrain m).run (p, u) envs).1.installed = p.installed := by
  induction envs generalizing p u with
  | nil => rfl
  | cons env envs ih =>
      have hkeeps : keepsKeys (.uart (picoUartIter u).1) = true := by
        cases hreport : (picoUartIter u).1 with
        | key id key macKey =>
            have hpending := pendingBytes_of_key hreport
            omega
        | _ => rfl
      have hstep := (installed_of_keepsKeys m HeatshrinkEncoder.idle p env _ hkeeps).1
      have hsuffix := pendingBytes_le_of_suffix (suffix_picoUartIter u)
      exact (ih (hsuffix.trans hu)).trans hstep

/-- The Pico takes the line as one KEY frame with the keys of `k` and leaves nothing
of it. -/
def TakesWholeFrame (u : PicoUart) (k : SessionKey) : Prop :=
  ∃ n line, FirstKey u k.keyId k.aesKey k.macKey n line ∧ Carries line []

/-- The frame as the Pico takes it. -/
theorem firstKey_keysFrame {k : ℕ} (hk : k ≤ 3) {key : SessionKey}
    {line : List RxEvent} (hline : Carries line (keysFrame key)) :
    ∃ n line', FirstKey ⟨k, line⟩ key.keyId key.aesKey (misreadMacKey key) n line' ∧
      Carries line' (key.macKey.toList.drop 16) ∧
      n + 1 + line'.length ≤ line.length := by
  rw [keysFrame_eq] at hline
  exact firstKey_of_carries hk _ _ _ _ hline

theorem misreadMacKey_eq_iff (k : SessionKey) :
    misreadMacKey k = k.macKey ↔
      k.cipherKey.toList.drop 16 = k.macKey.toList.take 16 ∧
        k.macKey.toList.take 16 = k.macKey.toList.drop 16 := by
  have hiff : misreadMacKey k = k.macKey ↔
      k.cipherKey.toList.drop 16 ++ k.macKey.toList.take 16 =
        k.macKey.toList.take 16 ++ k.macKey.toList.drop 16 := by
    rw [List.take_append_drop, ← toList_misreadMacKey]
    exact ⟨congrArg _, Bytes.ext_toList⟩
  rw [hiff]
  constructor
  · intro h
    exact List.append_inj h (by simp)
  · rintro ⟨hfirst, hsecond⟩
    rw [hfirst, ← hsecond]

/-- Wherever keys_receiver writes a KEY frame, a hunting Pico does not take it
whole; and its three keys come out right only if the second half of the cipher key
buffer and both halves of the MAC key are the same. -/
theorem keysFrame_misread (p : Pico) {env : DashEnv}
    (hwrites : ∀ i, env.writes i = none) {fdOpen : Bool} {d : KeysReceiver}
    {press : KeysPress} {o : KeysOut}
    (ho : o ∈ (keysStart env fdOpen).2 ∨ o ∈ (keysPress d env press).2)
    {k : ℕ} (hk : k ≤ 3) {line : List RxEvent} (hline : Carries line o.bytes)
    {envs : List PicoEnv} (henvs : line.length ≤ envs.length) :
    ¬ TakesWholeFrame ⟨k, line⟩ o.active ∧
      (((lifiDrain m).run (p, ⟨k, line⟩) envs).1.installed =
          (o.active.keyId, o.active.aesKey, o.active.macKey) ↔
        o.active.cipherKey.toList.drop 16 = o.active.macKey.toList.take 16 ∧
          o.active.macKey.toList.take 16 = o.active.macKey.toList.drop 16) := by
  rw [keysFrame_of_written hwrites ho] at hline
  obtain ⟨n, line', hfirst, hrest, hlen⟩ := firstKey_keysFrame hk hline
  have hpending := pendingBytes_of_carries hrest
  rw [List.length_drop, List.Vector.toList_length] at hpending
  constructor
  · rintro ⟨n', line'', hwhole, hempty⟩
    obtain ⟨-, rfl⟩ := hfirst.unique hwhole
    rw [pendingBytes_of_carries hempty] at hpending
    simp at hpending
  · obtain ⟨env', -, hrun⟩ :=
      run_lifiDrain_firstKey (m := m) p hfirst
        (Nat.lt_of_lt_of_le (Nat.lt_of_lt_of_le (by omega) hlen) henvs)
    have hkeys := (keys_handleKeyFrame (m := m) env' o.active.keyId o.active.aesKey
      (misreadMacKey o.active) p).1
    have hinstalled : ((lifiDrain m).run (p, ⟨k, line⟩) envs).1.installed =
        (o.active.keyId, o.active.aesKey, misreadMacKey o.active) := by
      rw [hrun, installed_run_lifiDrain (by simp only [hpending]; omega)]
      exact hkeys
    rw [hinstalled, ← misreadMacKey_eq_iff]
    simp

end

/-- A key of which the two programs read different things. -/
def pressedKey : SessionKey where
  keyId := List.Vector.replicate 8 1
  cipherKey := List.Vector.replicate 32 2
  macKey := List.Vector.replicate 32 3

def withPressedKey : KeysReceiver where
  fdOpen := true
  sKey := pressedKey
  keyValid := true
  keyList := some [pressedKey]
  currentKeyIdx := 0
  keysConsumed := 0

/-- The bytes after key `1`, back to back. -/
def pressedLine : List RxEvent :=
  (keysPress withPressedKey .bare .one).2.flatMap fun o => steady o.bytes

/-- The Pico takes half of the cipher key buffer for the MAC key. -/
theorem keysFrame_wrong_macKey :
    let p := ((lifiDrain .transparent).run (Pico.off Flash.erased, ⟨0, pressedLine⟩)
      (List.replicate 79 .salted)).1
    pressedLine.length = 79 ∧
      (p.sessionKeyId, p.sessionKey) = (pressedKey.keyId, pressedKey.aesKey) ∧
      p.sessionMacKey ≠ pressedKey.macKey := by
  decide +kernel

theorem keysFrame_misread_pressedKey :
    ¬ TakesWholeFrame ⟨0, steady (keysFrame pressedKey)⟩ pressedKey := by
  let o : KeysOut := ⟨pressedKey, keysFrame pressedKey⟩
  have ho : o ∈ (keysStart .bare true).2 ∨
      o ∈ (keysPress withPressedKey .bare .one).2 := by
    decide +kernel
  have hlen : (steady o.bytes).length ≤
      (List.replicate 79 (PicoEnv.salted)).length := by
    decide +kernel
  exact (keysFrame_misread (m := .transparent) (Pico.off Flash.erased)
    (fun _ => rfl) ho (Nat.zero_le 3) (carries_steady o.bytes) hlen).1

end LifiAuth
