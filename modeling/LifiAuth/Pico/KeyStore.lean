import LifiAuth.Pico.Handlers

/-!
# The sender as a key store

Of a sender, only five things matter to its keys: the key id, the key and the MAC
key in use, the current slot, and the pair that each slot holds.  Every event of the
sender is one operation on these.
-/

namespace LifiAuth

open Support

/-! ## The store -/

/-- A key id and the key it names. -/
abbrev KeyPair := Bytes 8 × Bytes 16

structure KeyStore where
  keyId : Bytes 8
  key : Bytes 16
  macKey : Bytes 32
  slot : Slot
  stored : Slot → Option KeyPair

inductive KeyOp where
  | keep
  | clear (s : Slot)
  | clearAll
  | switch
  | use (s : Slot)
  /-- A pair for the current slot, `forced` or only if that slot is empty. -/
  | install (forced : Bool) (pair : KeyPair)
  /-- A KEY frame. -/
  | deliver (pair : KeyPair) (macKey : Bytes 32)
  | restart

namespace KeyStore

def erase (s : Slot) (k : KeyStore) : KeyStore :=
  { k with stored := Function.update k.stored s none }

@[simp] theorem stored_erase (s : Slot) (k : KeyStore) :
    (k.erase s).stored = Function.update k.stored s none := rfl

/-- The slot `s` becomes the current one.  An empty slot means a zero key, but the
key id stays. -/
def activate (s : Slot) (k : KeyStore) : KeyStore :=
  match k.stored s with
  | some pair => { k with slot := s, keyId := pair.1, key := pair.2 }
  | none => { k with slot := s, key := Bytes.zero 16 }

def install (pair : KeyPair) (k : KeyStore) : KeyStore :=
  { k with
    keyId := pair.1
    key := pair.2
    stored := Function.update k.stored k.slot (some pair) }

@[simp] theorem stored_install (pair : KeyPair) (k : KeyStore) :
    (k.install pair).stored = Function.update k.stored k.slot (some pair) := rfl

/-- The pair of the current slot, where there is one. -/
def reload (k : KeyStore) : KeyStore :=
  match k.stored k.slot with
  | some pair => { k with keyId := pair.1, key := pair.2 }
  | none => k

/-- What starting up reads: slot B comes first, but slot A is the current one. -/
def restart (k : KeyStore) : KeyStore :=
  let pair := ((k.stored .B).or (k.stored .A)).getD (Bytes.zero 8, Bytes.zero 16)
  { k with keyId := pair.1, key := pair.2, macKey := Bytes.zero 32, slot := .A }

def apply (k : KeyStore) : KeyOp → KeyStore
  | .keep => k
  | .clear s => if k.slot = s then (k.erase s).activate s else k.erase s
  | .clearAll => ((k.erase .A).erase .B).activate k.slot
  | .switch => k.activate k.slot.other
  | .use s => if k.slot = s then k else k.activate s
  | .install forced pair =>
      if forced = false ∧ (k.stored k.slot).isSome then k else k.install pair
  | .deliver pair macKey => { k.install pair with macKey := macKey }
  | .restart => k.restart

end KeyStore

/-- The store as a machine. -/
def keyStore : Machine KeyStore KeyOp Empty where
  step k op := (k.apply op, [])

/-! ## What an event does to the store -/

variable (m : Mbedtls) (hse : HeatshrinkEncoder)

/-- The store in a sender. -/
def Pico.keyStore (p : Pico) : KeyStore where
  keyId := p.sessionKeyId
  key := p.sessionKey
  macKey := p.sessionMacKey
  slot := p.currentSlot
  stored := picoReadKeyPairFromSlot m p.flash

/-- The key of `key <hex>`, if it is one. -/
def manualKey (arg : List UInt8) : Option (Bytes 16) :=
  let hexStr := arg.dropWhile (· == 32)
  if hexStr.length < 2 * sstKeySize then none else parseHexBytes 16 hexStr

/-- Installing what was read, if anything was. -/
def KeyOp.ofRead (forced : Bool) : Option KeyPair → KeyOp
  | some pair => install forced pair
  | none => keep

/-- The operation of a command line; `cmd` is the text after `CMD:`. -/
def commandOp (env : PicoEnv) (cmd : List UInt8) : KeyOp :=
  if ascii "send_id" <+: cmd.dropWhile (· == 32) then .keep
  else if cmd = ascii " clear slot A" then .clear .A
  else if cmd = ascii " clear slot B" then .clear .B
  else if cmd = ascii " clear slot *" then .clearAll
  else if cmd = ascii " switch slot" then .switch
  else if cmd = ascii " use slot A" then .use .A
  else if cmd = ascii " use slot B" then .use .B
  else if cmd = ascii " new key -f" then
    .ofRead true (receiveNewKeyWithTimeout false env.wait)
  else if cmd = ascii " new key" then
    .ofRead false (receiveNewKeyWithTimeout false env.wait)
  else if cmd = ascii " reboot" then .keep
  else if ascii " key " <+: cmd then
    .ofRead true ((manualKey (cmd.drop 5)).map fun key => (manualKeyId, key))
  else .keep

/-- A command is no KEY frame and no restart. -/
theorem commandOp_induction {Q : KeyOp → Prop} (keep : Q .keep)
    (clear : ∀ s, Q (.clear s)) (clearAll : Q .clearAll) (switch : Q .switch)
    (use : ∀ s, Q (.use s)) (install : ∀ forced pair, Q (.install forced pair))
    (env : PicoEnv) (cmd : List UInt8) : Q (commandOp env cmd) := by
  have hite {c : Prop} [Decidable c] {op op' : KeyOp} (h : Q op) (h' : Q op') :
      Q (if c then op else op') := by
    split
    · exact h
    · exact h'
  have hread (forced : Bool) (read : Option KeyPair) : Q (.ofRead forced read) := by
    cases read with
    | none => exact keep
    | some pair => exact install forced pair
  rw [commandOp]
  repeat' apply hite
  all_goals first
    | exact hread _ _
    | apply_assumption

/-- The operation of an event. -/
def keyOp (env : PicoEnv) : PicoEvent → KeyOp
  | .uart (.key newId newKey newMacKey) => .deliver (newId, newKey) newMacKey
  | .uart _ => .keep
  | .line text =>
      if ascii "CMD:" <+: text then commandOp env (text.drop 4) else .keep
  | .boot => .restart

/-! ## Slots -/

section

variable {m}

/-- An erased sector does not hold the magic of a key block. -/
theorem readKeyFromSlot_erased : readKeyFromSlot m erasedSector = none := by
  have hmagic : (KeyFlashBlock.ofSector erasedSector).magic.toList ≠
      flashKeyMagic := by
    decide +kernel
  have hvalid : validateFlashBlock m (KeyFlashBlock.ofSector erasedSector) =
      false := by
    rw [validateFlashBlock, Bool.and_eq_false_iff]
    exact Or.inl (beq_eq_false_iff_ne.mpr hmagic)
  rw [readKeyFromSlot]
  simp only [hvalid, Bool.false_eq_true, if_false]

theorem Flash.slot_setSlot_of_ne {f : Flash} {s t : Slot} (h : t ≠ s)
    (sector : Sector) : (f.setSlot s sector).slot t = f.slot t := by
  cases s <;> cases t <;> first | rfl | exact absurd rfl h

@[simp] theorem picoReadKeyPairFromSlot_writeKey (f : Flash) (s : Slot)
    (id : Bytes 8) (key : Bytes 16) :
    picoReadKeyPairFromSlot m (picoWriteKeyToSlot m f s id key) =
      Function.update (picoReadKeyPairFromSlot m f) s (some (id, key)) := by
  funext t
  by_cases h : t = s
  · rw [h, Function.update_self, picoReadKeyPairFromSlot_write]
  · rw [Function.update_of_ne h, picoReadKeyPairFromSlot, picoWriteKeyToSlot,
      Flash.slot_setSlot_of_ne h]
    rfl

@[simp] theorem picoReadKeyPairFromSlot_clear (f : Flash) (s : Slot) :
    picoReadKeyPairFromSlot m (picoClearSlotVerify f s) =
      Function.update (picoReadKeyPairFromSlot m f) s none := by
  funext t
  by_cases h : t = s
  · rw [h, Function.update_self, picoReadKeyPairFromSlot, picoClearSlotVerify,
      Flash.slot_setSlot, readKeyFromSlot_erased]
  · rw [Function.update_of_ne h, picoReadKeyPairFromSlot, picoClearSlotVerify,
      Flash.slot_setSlot_of_ne h]
    rfl

/-- The index sector holds no key. -/
@[simp] theorem picoReadKeyPairFromSlot_storeIndex (f : Flash) (s : Slot) :
    picoReadKeyPairFromSlot m (storeLastUsedSlot f s) =
      picoReadKeyPairFromSlot m f := by
  funext t
  cases t <;> rfl

end

/-! ## Handlers -/

section

variable {m}

@[simp] theorem keyStore_picoNonceInit (env : PicoEnv) (p : Pico) :
    (picoNonceInit env p).1.keyStore m = p.keyStore m := by
  rw [picoNonceInit]
  split
  · rfl
  · rfl

/-- What the main loop does with the result of a command. -/
def afterCommand (m : Mbedtls) (env : PicoEnv) (r : Bool × Pico) : Pico :=
  if r.1 then ((picoNonceOnKeyChange env r.2).1).reload m else r.2

theorem keyStore_reload (p : Pico) :
    (p.reload m).keyStore m = (p.keyStore m).reload := by
  cases hread : picoReadKeyPairFromSlot m p.flash p.currentSlot with
  | none => simp only [Pico.reload, KeyStore.reload, Pico.keyStore, hread]
  | some pair => simp only [Pico.reload, KeyStore.reload, Pico.keyStore, hread]

theorem keyStore_afterCommand (env : PicoEnv) (r : Bool × Pico) :
    (afterCommand m env r).keyStore m =
      if r.1 then (r.2.keyStore m).reload else r.2.keyStore m := by
  rw [afterCommand]
  split
  · rw [keyStore_reload, picoNonceOnKeyChange, keyStore_picoNonceInit]
  · rfl

@[simp] theorem keyStore_storeSlotIndex (p : Pico) :
    p.storeSlotIndex.keyStore m = p.keyStore m := by
  simp only [Pico.keyStore, Pico.storeSlotIndex,
    picoReadKeyPairFromSlot_storeIndex]

theorem keyStore_clear (p : Pico) (s : Slot) :
    ({ p with flash := picoClearSlotVerify p.flash s } : Pico).keyStore m =
      (p.keyStore m).erase s := by
  simp only [Pico.keyStore, KeyStore.erase, picoReadKeyPairFromSlot_clear]

/-- An empty slot keeps the key id through the reload. -/
theorem reload_eq_activate {k : KeyStore} {s : Slot} (h : k.stored s = none) :
    ({ k with slot := s, key := Bytes.zero 16 } : KeyStore).reload =
      k.activate s := by
  simp only [KeyStore.reload, KeyStore.activate, h]

theorem keyStore_clearSlot (env : PicoEnv) (s : Slot) (p : Pico) :
    (afterCommand m env (clearSlot s p)).keyStore m =
      (p.keyStore m).apply (.clear s) := by
  have hempty : ((p.keyStore m).erase s).stored s = none :=
    Function.update_self ..
  rw [keyStore_afterCommand, clearSlot, KeyStore.apply]
  by_cases hs : p.currentSlot = s
  · have hslot : (p.keyStore m).slot = s := hs
    simp only [if_pos hs, if_pos hslot]
    rw [← reload_eq_activate hempty, ← keyStore_clear, ← hs]
    rfl
  · have hslot : ¬ (p.keyStore m).slot = s := hs
    simp only [if_neg hs, if_neg hslot]
    exact keyStore_clear p s

theorem keyStore_clearAll (env : PicoEnv) (p : Pico) :
    (afterCommand m env (true, { p with
      flash := picoClearSlotVerify (picoClearSlotVerify p.flash .A) .B }.dropKey)
      ).keyStore m = (p.keyStore m).apply .clearAll := by
  have hempty : (((p.keyStore m).erase .A).erase .B).stored (p.keyStore m).slot =
      none := by
    simp only [KeyStore.erase]
    cases (p.keyStore m).slot <;> rfl
  rw [keyStore_afterCommand, if_pos rfl, KeyStore.apply,
    ← reload_eq_activate hempty]
  simp only [Pico.keyStore, Pico.dropKey, KeyStore.erase,
    picoReadKeyPairFromSlot_clear]

theorem keyStore_activateSlot (env : PicoEnv) (s : Slot) (p : Pico) :
    (afterCommand m env (activateSlot m s p)).keyStore m =
      (p.keyStore m).activate s := by
  rw [keyStore_afterCommand]
  cases hread : picoReadKeyPairFromSlot m p.flash s with
  | none =>
      have hstored : (p.keyStore m).stored s = none := hread
      simp only [activateSlot, hread, if_true, keyStore_storeSlotIndex]
      exact reload_eq_activate hstored
  | some pair =>
      have hstored : (p.keyStore m).stored s = some pair := hread
      simp only [activateSlot, hread, if_true, keyStore_storeSlotIndex,
        KeyStore.activate, hstored]
      simp only [Pico.keyStore, Pico.loadKey, KeyStore.reload, hread]

theorem keyStore_installKey (env : PicoEnv) (pair : KeyPair) (p : Pico) :
    (afterCommand m env (installKey m pair.1 pair.2 p)).keyStore m =
      (p.keyStore m).install pair := by
  rw [keyStore_afterCommand]
  simp only [installKey, if_true, Pico.keyStore, Pico.loadKey,
    Pico.storeSlotIndex, KeyStore.reload, KeyStore.install,
    picoReadKeyPairFromSlot_storeIndex, picoReadKeyPairFromSlot_writeKey,
    Function.update_self]

theorem keyStore_waitForKey (env : PicoEnv) (p : Pico) :
    (afterCommand m env (waitForKey m env p)).keyStore m =
      (p.keyStore m).apply
        (.ofRead true (receiveNewKeyWithTimeout false env.wait)) := by
  rw [waitForKey]
  split
  · next hread => rw [hread]; rfl
  · next id key hread =>
      rw [hread]
      exact keyStore_installKey env (id, key) p

theorem keyStore_setManualKey (env : PicoEnv) (arg : List UInt8) (p : Pico) :
    (afterCommand m env (setManualKey m arg p)).keyStore m =
      (p.keyStore m).apply
        (.ofRead true ((manualKey arg).map fun key => (manualKeyId, key))) := by
  simp only [setManualKey, manualKey]
  split
  · rfl
  · split
    · next hread => rw [hread]; rfl
    · next key hread =>
        rw [hread]
        exact keyStore_installKey env (manualKeyId, key) p

/-- `new key` reads nothing while the current slot is occupied. -/
theorem keyStore_newKey (env : PicoEnv) (p : Pico) :
    (afterCommand m env
      (if (picoReadKeyPairFromSlot m p.flash p.currentSlot).isSome then (false, p)
        else waitForKey m env p)).keyStore m =
      (p.keyStore m).apply
        (.ofRead false (receiveNewKeyWithTimeout false env.wait)) := by
  cases hread : receiveNewKeyWithTimeout false env.wait with
  | none =>
      have hwait : waitForKey m env p = (false, p) := by
        rw [waitForKey, hread]
      rw [hwait, ite_self]
      rfl
  | some pair =>
      by_cases hslot : (picoReadKeyPairFromSlot m p.flash p.currentSlot).isSome
      · have hstored : ((p.keyStore m).stored (p.keyStore m).slot).isSome := hslot
        rw [if_pos hslot, KeyOp.ofRead, KeyStore.apply, if_pos ⟨rfl, hstored⟩]
        rfl
      · have hstored : ¬ ((p.keyStore m).stored (p.keyStore m).slot).isSome :=
          hslot
        rw [if_neg hslot, keyStore_waitForKey, hread, KeyOp.ofRead, KeyOp.ofRead,
          KeyStore.apply, KeyStore.apply, if_neg (by simp),
          if_neg fun h => hstored h.2]

/-- A command and an operation do the same to the keys. -/
def CommandMatches (m : Mbedtls) (env : PicoEnv) (p : Pico) (r : Bool × Pico)
    (op : KeyOp) : Prop :=
  (afterCommand m env r).keyStore m = (p.keyStore m).apply op

theorem CommandMatches.ite {env : PicoEnv} {p : Pico} {r r' : Bool × Pico}
    {op op' : KeyOp} {c : Prop} [Decidable c] (h : CommandMatches m env p r op)
    (h' : CommandMatches m env p r' op') :
    CommandMatches m env p (if c then r else r') (if c then op else op') := by
  by_cases hc : c
  · rw [if_pos hc, if_pos hc]
    exact h
  · rw [if_neg hc, if_neg hc]
    exact h'

theorem commandMatches_useSlot (env : PicoEnv) (s : Slot) (p : Pico) :
    CommandMatches m env p
      (if p.currentSlot = s then (false, p) else activateSlot m s p) (.use s) := by
  by_cases hs : p.currentSlot = s
  · have hslot : (p.keyStore m).slot = s := hs
    rw [CommandMatches, if_pos hs, KeyStore.apply, if_pos hslot]
    rfl
  · have hslot : ¬ (p.keyStore m).slot = s := hs
    rw [CommandMatches, if_neg hs, KeyStore.apply, if_neg hslot]
    exact keyStore_activateSlot env s p

/-- Every command is the operation it is read as. -/
theorem commandMatches_handleCommands (env : PicoEnv) (cmd : List UInt8) (p : Pico)
    (hsend : ¬ ascii "send_id" <+: cmd.dropWhile (· == 32)) :
    CommandMatches m env p (handleCommands m env cmd p) (commandOp env cmd) := by
  rw [handleCommands, commandOp, if_neg hsend]
  apply CommandMatches.ite
  · exact keyStore_clearSlot env .A p
  apply CommandMatches.ite
  · exact keyStore_clearSlot env .B p
  apply CommandMatches.ite
  · exact keyStore_clearAll env p
  apply CommandMatches.ite
  · exact keyStore_activateSlot env p.currentSlot.other p
  apply CommandMatches.ite
  · exact commandMatches_useSlot env .A p
  apply CommandMatches.ite
  · exact commandMatches_useSlot env .B p
  apply CommandMatches.ite
  · exact keyStore_waitForKey env p
  apply CommandMatches.ite
  · exact keyStore_newKey env p
  apply CommandMatches.ite
  · rfl
  apply CommandMatches.ite
  · exact keyStore_setManualKey env (cmd.drop 5) p
  · rfl

end

/-! ## Events -/

theorem keyStore_handleCommandLine (env : PicoEnv) (cmd : List UInt8) (p : Pico) :
    (handleCommandLine m env cmd p).1.keyStore m =
      (p.keyStore m).apply (commandOp env cmd) := by
  by_cases hsend : ascii "send_id" <+: cmd.dropWhile (· == 32)
  · rw [handleCommandLine, if_pos hsend, commandOp, if_pos hsend]
    rfl
  · have hline : (handleCommandLine m env cmd p).1 =
        afterCommand m env (handleCommands m env cmd p) := by
      rw [handleCommandLine, if_neg hsend, afterCommand]
      simp only
      split
      · rfl
      · rfl
    rw [hline]
    exact commandMatches_handleCommands env cmd p hsend

theorem keyStore_handleMessageLine (env : PicoEnv) (msg : List UInt8) (p : Pico) :
    (handleMessageLine m hse env msg p).1.keyStore m = p.keyStore m := by
  rcases handleMessageLine_cases m hse env msg p with hdrop | ⟨t, payload, hsend⟩
  · rw [hdrop]
  · rw [hsend, encryptAndSend_fst]
    rfl

theorem keyStore_handleKeyFrame (env : PicoEnv) (pair : KeyPair)
    (newMacKey : Bytes 32) (p : Pico) :
    (handleKeyFrame m env pair.1 pair.2 newMacKey p).1.keyStore m =
      (p.keyStore m).apply (.deliver pair newMacKey) := by
  simp only [handleKeyFrame, picoNonceOnKeyChange, keyStore_picoNonceInit]
  simp only [installKey, Pico.keyStore, Pico.loadKey, Pico.storeSlotIndex,
    KeyStore.apply, KeyStore.install, picoReadKeyPairFromSlot_storeIndex,
    picoReadKeyPairFromSlot_writeKey]

theorem keyStore_picoBoot (env : PicoEnv) (p : Pico) :
    (picoBoot m env p.flash).1.keyStore m = (p.keyStore m).restart := by
  have hload : loadSessionKey m p.flash =
      (picoReadKeyPairFromSlot m p.flash .B).or
        (picoReadKeyPairFromSlot m p.flash .A) := by
    rw [loadSessionKey]
    cases picoReadKeyPairFromSlot m p.flash .B with
    | none => rfl
    | some pair => rfl
  simp only [picoBoot, picoNonceInit, KeyStore.restart, Pico.keyStore]
  rw [← hload]
  cases env.salt with
  | none =>
      cases loadSessionKey m p.flash with
      | none => rfl
      | some pair => rfl
  | some salt =>
      cases loadSessionKey m p.flash with
      | none => rfl
      | some pair => rfl

/-- Seen as a key store, every step of the sender is one operation. -/
theorem keyStore_picoStep (p : Pico) (e : PicoEnv × PicoEvent) :
    (picoStep m hse p e.1 e.2).1.keyStore m =
      (p.keyStore m).apply (keyOp e.1 e.2) := by
  obtain ⟨env, ev⟩ := e
  cases ev with
  | uart r =>
      cases r with
      | key newId newKey newMacKey =>
          exact keyStore_handleKeyFrame m env (newId, newKey) newMacKey p
      | hs1 payload =>
          simp only [picoStep, handlePicoReport]
          rcases handleHs1_cases m env payload p with hdrop | ⟨_, _, -, -, hanswer⟩
          · rw [hdrop]
            rfl
          · rw [hanswer]
            rfl
      | hs3 payload =>
          simp only [picoStep, handlePicoReport]
          rcases handleHs3_cases m payload p with hforgot | ⟨_, -, -, haccept⟩
          · rw [hforgot]
            rfl
          · rw [haccept]
            rfl
      | _ => rfl
  | line text =>
      simp only [picoStep, handleLine, keyOp]
      split
      · exact keyStore_handleCommandLine m env _ p
      · exact keyStore_handleMessageLine m hse env text p
  | boot => exact keyStore_picoBoot m env p

/-- So is every run. -/
theorem keyStore_run (p : Pico) (es : List (PicoEnv × PicoEvent)) :
    ((lifiSender m hse).run p es).keyStore m =
      keyStore.run (p.keyStore m) (es.map fun e => keyOp e.1 e.2) :=
  Machine.abs_run (Pico.keyStore m)
    (fun p e => keyStore_picoStep m hse p e) p es

end LifiAuth
