import LifiAuth.Pico.State

/-!
# Commands of the sender

`handle_commands` of `src/cmd_handler.c`, the key wait it uses and the reading of
a key in hexadecimal.  The Boolean is what the source returns: whether the session
key changed.
-/

namespace LifiAuth

/-! ## Waiting for a key -/

/-- `receive_new_key_with_timeout` on what arrives until its deadline; `first` is
set when the first preamble byte has just been read. -/
def receiveNewKeyWithTimeout :
    Bool → List RxEvent → Option (Bytes 8 × Bytes 16)
  | _, [] => none
  | _, .timeout :: _ => none
  | first, .idle :: line => receiveNewKeyWithTimeout first line
  | false, .byte b :: line =>
      receiveNewKeyWithTimeout (b == preambleByte1) line
  | true, .byte b :: line =>
      if b = preambleByte2 then
        match readExact 8 line with
        | (none, _) => none
        | (some id, line) => ((readExact 16 line).1).map fun key => (id, key)
      else receiveNewKeyWithTimeout false line

/-! ## Reading a key -/

/-- `strtoul(s, &end, 16)` cut to a byte; `none` unless `end` is the end of the
string. -/
def strtoulByte (s : List UInt8) : Option UInt8 :=
  let t := s.dropWhile isSpace
  let neg := t.head? == some 45
  let t := if t.head? == some 45 || t.head? == some 43 then t.tail else t
  let t :=
    match t with
    | 48 :: x :: d :: t' =>
        if (x = 120 ∨ x = 88) ∧ (hexValue d).isSome then d :: t' else t
    | _ => t
  match t with
  | [] => none
  | _ =>
      (t.mapM hexValue).map fun digits =>
        let value := UInt8.ofNat (digits.foldl (fun acc d => 16 * acc + d) 0)
        if neg then 0 - value else value

/-- The loop over the pairs of characters. -/
def parseHexBytes : (n : ℕ) → List UInt8 → Option (Bytes n)
  | 0, _ => some List.Vector.nil
  | n + 1, a :: b :: s =>
      match strtoulByte [a, b], parseHexBytes n s with
      | some v, some vs => some (v ::ᵥ vs)
      | _, _ => none
  | _ + 1, _ => none

/-! ## Effects on the key -/

variable (m : Mbedtls)

/-- `keyram_clear` and a zeroed session key. -/
def Pico.dropKey (p : Pico) : Pico :=
  { p with keyram := p.keyram.clear, sessionKey := Bytes.zero 16 }

/-- A key copied to the key RAM and to the session key. -/
def Pico.loadKey (id : Bytes 8) (key : Bytes 16) (p : Pico) : Pico :=
  { p with keyram := p.keyram.setWithId id key, sessionKey := key }

def Pico.storeSlotIndex (p : Pico) : Pico :=
  { p with flash := storeLastUsedSlot p.flash p.currentSlot }

/-- `clear slot A` and `clear slot B`. -/
def clearSlot (s : Slot) (p : Pico) : Bool × Pico :=
  let p := { p with flash := picoClearSlotVerify p.flash s }
  if p.currentSlot = s then (true, p.dropKey) else (false, p)

/-- `switch slot` and the `use slot` commands: an empty slot is a zero key. -/
def activateSlot (s : Slot) (p : Pico) : Bool × Pico :=
  let p := { p with currentSlot := s }
  match picoReadKeyPairFromSlot m p.flash s with
  | some (id, key) => (true, (p.loadKey id key).storeSlotIndex)
  | none => (true, p.dropKey.storeSlotIndex)

/-- A new key is written to the current slot and activated. -/
def installKey (id : Bytes 8) (key : Bytes 16) (p : Pico) : Bool × Pico :=
  let p := { p with flash := picoWriteKeyToSlot m p.flash p.currentSlot id key }
  (true, p.storeSlotIndex.loadKey id key)

/-- `new key -f`, and `new key` on an empty slot. -/
def waitForKey (env : PicoEnv) (p : Pico) : Bool × Pico :=
  match receiveNewKeyWithTimeout false env.wait with
  | none => (false, p)
  | some (id, key) => installKey m id key p

/-- The id given to keys typed by hand. -/
def manualKeyId : Bytes 8 :=
  ⟨[0xAA, 0xBB, 0xCC, 0xDD, 0xEE, 0xFF, 0x00, 0x01], rfl⟩

/-- `key <hex>`. -/
def setManualKey (arg : List UInt8) (p : Pico) : Bool × Pico :=
  let hexStr := arg.dropWhile (· == 32)
  if hexStr.length < 2 * sstKeySize then (false, p)
  else
    match parseHexBytes 16 hexStr with
    | none => (false, p)
    | some key => installKey m manualKeyId key p

/-- `handle_commands`; `cmd` is the text after `CMD:`.  The commands that only
print, set the LED mask or are unknown leave the state alone. -/
def handleCommands (env : PicoEnv) (cmd : List UInt8) (p : Pico) : Bool × Pico :=
  if cmd = ascii " clear slot A" then clearSlot .A p
  else if cmd = ascii " clear slot B" then clearSlot .B p
  else if cmd = ascii " clear slot *" then
    (true, { p with
      flash := picoClearSlotVerify (picoClearSlotVerify p.flash .A) .B }.dropKey)
  else if cmd = ascii " switch slot" then activateSlot m p.currentSlot.other p
  else if cmd = ascii " use slot A" then
    if p.currentSlot = .A then (false, p) else activateSlot m .A p
  else if cmd = ascii " use slot B" then
    if p.currentSlot = .B then (false, p) else activateSlot m .B p
  else if cmd = ascii " new key -f" then waitForKey m env p
  else if cmd = ascii " new key" then
    if (picoReadKeyPairFromSlot m p.flash p.currentSlot).isSome then (false, p)
    else waitForKey m env p
  else if cmd = ascii " reboot" then (false, { p with rebootPending := true })
  else if ascii " key " <+: cmd then setManualKey m (cmd.drop 5) p
  else (false, p)

/-! ## What a command can touch -/

/-- `p'` differs from `p` at most in the key, its copies and the slot; a pending
reboot stays pending. -/
def CommandFrame (p p' : Pico) : Prop :=
  ∃ key slot ram flash pending, p' =
    { p with
      sessionKey := key
      currentSlot := slot
      keyram := ram
      flash := flash
      rebootPending := pending } ∧ (p.rebootPending = true → pending = true)

theorem CommandFrame.refl (p : Pico) : CommandFrame p p :=
  ⟨p.sessionKey, p.currentSlot, p.keyram, p.flash, p.rebootPending, rfl, id⟩

theorem commandFrame_clearSlot (s : Slot) (p : Pico) :
    CommandFrame p (clearSlot s p).2 := by
  simp only [clearSlot]
  split
  · exact ⟨_, _, _, _, _, rfl, id⟩
  · exact ⟨_, _, _, _, _, rfl, id⟩

theorem commandFrame_activateSlot (s : Slot) (p : Pico) :
    CommandFrame p (activateSlot m s p).2 := by
  simp only [activateSlot]
  split
  · exact ⟨_, _, _, _, _, rfl, id⟩
  · exact ⟨_, _, _, _, _, rfl, id⟩

theorem commandFrame_installKey (id : Bytes 8) (key : Bytes 16) (p : Pico) :
    CommandFrame p (installKey m id key p).2 :=
  ⟨_, _, _, _, _, rfl, fun h => h⟩

theorem commandFrame_waitForKey (env : PicoEnv) (p : Pico) :
    CommandFrame p (waitForKey m env p).2 := by
  simp only [waitForKey]
  split
  · exact CommandFrame.refl p
  · exact commandFrame_installKey m _ _ p

theorem commandFrame_setManualKey (arg : List UInt8) (p : Pico) :
    CommandFrame p (setManualKey m arg p).2 := by
  simp only [setManualKey]
  split
  · exact CommandFrame.refl p
  · split
    · exact CommandFrame.refl p
    · exact commandFrame_installKey m _ _ p

theorem CommandFrame.ite {p : Pico} {r r' : Bool × Pico} {c : Prop} [Decidable c]
    (h : CommandFrame p r.2) (h' : CommandFrame p r'.2) :
    CommandFrame p (if c then r else r').2 := by
  split
  · exact h
  · exact h'

theorem commandFrame_handleCommands (env : PicoEnv) (cmd : List UInt8)
    (p : Pico) : CommandFrame p (handleCommands m env cmd p).2 := by
  rw [handleCommands]
  apply CommandFrame.ite
  · exact commandFrame_clearSlot .A p
  apply CommandFrame.ite
  · exact commandFrame_clearSlot .B p
  apply CommandFrame.ite
  · exact ⟨_, _, _, _, _, rfl, id⟩
  apply CommandFrame.ite
  · exact commandFrame_activateSlot m _ p
  apply CommandFrame.ite
  · exact .ite (.refl p) (commandFrame_activateSlot m .A p)
  apply CommandFrame.ite
  · exact .ite (.refl p) (commandFrame_activateSlot m .B p)
  apply CommandFrame.ite
  · exact commandFrame_waitForKey m env p
  apply CommandFrame.ite
  · exact .ite (.refl p) (commandFrame_waitForKey m env p)
  apply CommandFrame.ite
  · exact ⟨_, _, _, _, _, rfl, fun _ => rfl⟩
  apply CommandFrame.ite
  · exact commandFrame_setManualKey m _ p
  · exact .refl p

end LifiAuth
