import LifiAuth.Pico.KeyStore

/-!
# What the result of a command promises

The main loop decides by the result of `handle_commands` alone what it reloads.
`false` promises that no key was touched, `true` that the key in use and its copy in
RAM are those of the current slot.
-/

namespace LifiAuth

variable (m : Mbedtls)

/-- The key in use and its copy are the key of the current slot; an empty slot is a
zero key and no copy. -/
def Pico.HoldsSlotKey (p : Pico) : Prop :=
  match picoReadKeyPairFromSlot m p.flash p.currentSlot with
  | some (_, key) =>
      p.sessionKey = key ∧ p.keyram.key = key ∧ p.keyram.valid = true
  | none =>
      p.sessionKey = Bytes.zero 16 ∧ p.keyram.key = Bytes.zero 16 ∧
        p.keyram.valid = false

/-- No key in use and no slot was touched. -/
structure KeyUntouched (p p' : Pico) : Prop where
  sessionKey : p'.sessionKey = p.sessionKey
  keyramKey : p'.keyram.key = p.keyram.key
  keyramValid : p'.keyram.valid = p.keyram.valid
  currentSlot : p'.currentSlot = p.currentSlot

/-- What a caller may conclude from the result of a command. -/
structure CommandContract (p : Pico) (r : Bool × Pico) : Prop where
  unchanged : r.1 = false → KeyUntouched p r.2
  reloaded : r.1 = true → r.2.HoldsSlotKey m

section

variable {m} {p : Pico}

theorem holdsSlotKey_of_some (id : Bytes 8) (key : Bytes 16)
    (hread : picoReadKeyPairFromSlot m p.flash p.currentSlot = some (id, key))
    (hkey : p.sessionKey = key) (hram : p.keyram = ⟨id, key, true⟩) :
    p.HoldsSlotKey m := by
  rw [Pico.HoldsSlotKey, hread, hram]
  exact ⟨hkey, rfl, rfl⟩

/-- An empty slot and a dropped key. -/
theorem holdsSlotKey_dropKey
    (hread : picoReadKeyPairFromSlot m p.flash p.currentSlot = none) :
    p.dropKey.HoldsSlotKey m := by
  have hread' : picoReadKeyPairFromSlot m p.dropKey.flash p.dropKey.currentSlot =
      none := hread
  rw [Pico.HoldsSlotKey, hread']
  exact ⟨rfl, rfl, rfl⟩

/-- The index sector plays no part. -/
theorem holdsSlotKey_storeSlotIndex (h : p.HoldsSlotKey m) :
    p.storeSlotIndex.HoldsSlotKey m := by
  rw [Pico.HoldsSlotKey, Pico.storeSlotIndex, picoReadKeyPairFromSlot_storeIndex]
  exact h

namespace CommandContract

theorem of_false {p' : Pico} (h : KeyUntouched p p') :
    CommandContract m p (false, p') where
  unchanged _ := h
  reloaded h' := absurd h' Bool.false_ne_true

theorem of_true {p' : Pico} (h : p'.HoldsSlotKey m) :
    CommandContract m p (true, p') where
  unchanged h' := absurd h'.symm Bool.false_ne_true
  reloaded _ := h

theorem refl (p : Pico) : CommandContract m p (false, p) :=
  of_false ⟨rfl, rfl, rfl, rfl⟩

theorem ite {r r' : Bool × Pico} {c : Prop} [Decidable c]
    (h : CommandContract m p r) (h' : CommandContract m p r') :
    CommandContract m p (if c then r else r') := by
  split
  · exact h
  · exact h'

end CommandContract

/-! ## The commands -/

theorem commandContract_clearSlot (s : Slot) (p : Pico) :
    CommandContract m p (clearSlot s p) := by
  simp only [clearSlot]
  split
  · next hs =>
    have hempty : picoReadKeyPairFromSlot m (picoClearSlotVerify p.flash s)
        p.currentSlot = none := by
      rw [picoReadKeyPairFromSlot_clear, hs, Function.update_self]
    exact .of_true (holdsSlotKey_dropKey hempty)
  · exact .of_false ⟨rfl, rfl, rfl, rfl⟩

theorem commandContract_clearAll (p : Pico) :
    CommandContract m p (true, { p with
      flash := picoClearSlotVerify (picoClearSlotVerify p.flash .A) .B }.dropKey) := by
  refine .of_true (holdsSlotKey_dropKey ?_)
  rw [picoReadKeyPairFromSlot_clear, picoReadKeyPairFromSlot_clear]
  cases p.currentSlot with
  | A => rfl
  | B => rfl

theorem commandContract_activateSlot (s : Slot) (p : Pico) :
    CommandContract m p (activateSlot m s p) := by
  cases hread : picoReadKeyPairFromSlot m p.flash s with
  | none =>
      simp only [activateSlot, hread]
      exact .of_true (holdsSlotKey_storeSlotIndex (holdsSlotKey_dropKey hread))
  | some pair =>
      obtain ⟨id, key⟩ := pair
      simp only [activateSlot, hread]
      refine .of_true (holdsSlotKey_storeSlotIndex ?_)
      exact holdsSlotKey_of_some id key hread rfl rfl

theorem commandContract_installKey (id : Bytes 8) (key : Bytes 16) (p : Pico) :
    CommandContract m p (installKey m id key p) := by
  refine .of_true (holdsSlotKey_of_some id key ?_ rfl rfl)
  simp only [Pico.loadKey, Pico.storeSlotIndex, picoReadKeyPairFromSlot_storeIndex,
    picoReadKeyPairFromSlot_writeKey, Function.update_self]

theorem commandContract_waitForKey (env : PicoEnv) (p : Pico) :
    CommandContract m p (waitForKey m env p) := by
  rw [waitForKey]
  split
  · exact .refl p
  · exact commandContract_installKey _ _ p

theorem commandContract_setManualKey (arg : List UInt8) (p : Pico) :
    CommandContract m p (setManualKey m arg p) := by
  simp only [setManualKey]
  split
  · exact .refl p
  · split
    · exact .refl p
    · exact commandContract_installKey _ _ p

end

/-- For every command, the result says what happened to the keys. -/
theorem commandContract_handleCommands (env : PicoEnv) (cmd : List UInt8) (p : Pico) :
    CommandContract m p (handleCommands m env cmd p) := by
  rw [handleCommands]
  apply CommandContract.ite
  · exact commandContract_clearSlot .A p
  apply CommandContract.ite
  · exact commandContract_clearSlot .B p
  apply CommandContract.ite
  · exact commandContract_clearAll p
  apply CommandContract.ite
  · exact commandContract_activateSlot _ p
  apply CommandContract.ite
  · exact .ite (.refl p) (commandContract_activateSlot .A p)
  apply CommandContract.ite
  · exact .ite (.refl p) (commandContract_activateSlot .B p)
  apply CommandContract.ite
  · exact commandContract_waitForKey env p
  apply CommandContract.ite
  · exact .ite (.refl p) (commandContract_waitForKey env p)
  apply CommandContract.ite
  · exact .of_false ⟨rfl, rfl, rfl, rfl⟩
  apply CommandContract.ite
  · exact commandContract_setManualKey _ p
  · exact .refl p

end LifiAuth
