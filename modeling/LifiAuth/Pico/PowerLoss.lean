import LifiAuth.Pico.KeyStore
import LifiAuth.Pico.NonceUnique

/-!
# Power loss during a key update

A new key is written over the one of the current slot: the sector is erased and
programmed, and after it the sector of the slot index.  Power may fail before,
between or during these steps.
-/

namespace LifiAuth

variable (m : Mbedtls)

/-! ## Steps on the flash -/

/-- The sectors of a `Flash`. -/
inductive SectorName where
  | slot (s : Slot)
  | index
  deriving DecidableEq

namespace Flash

def sector (f : Flash) : SectorName → Sector
  | .slot s => f.slot s
  | .index => f.index

def setSector (f : Flash) (name : SectorName) (sector : Sector) : Flash :=
  match name with
  | .slot s => f.setSlot s sector
  | .index => { f with index := sector }

@[simp] theorem sector_setSector (f : Flash) (name : SectorName) (sector : Sector) :
    (f.setSector name sector).sector name = sector := by
  cases name with
  | slot s => exact f.slot_setSlot s sector
  | index => rfl

end Flash

/-- One call of `flash_range_erase` or `flash_range_program`. -/
inductive FlashOp where
  | erase (name : SectorName)
  | program (name : SectorName) (page : Bytes 256)

namespace FlashOp

def name : FlashOp → SectorName
  | erase name | program name _ => name

/-- What the step leaves in its sector. -/
def result (f : Flash) : FlashOp → Sector
  | erase _ => erasedSector
  | program name page => programPage (f.sector name) page

def apply (f : Flash) (op : FlashOp) : Flash :=
  f.setSector op.name (op.result f)

/-- `torn` may be in the sector after an interrupted step: any bytes, but not the
valid block of a pair that was neither there nor being written. -/
def Tears (f : Flash) (op : FlashOp) (torn : Sector) : Prop :=
  ∀ pair, readKeyFromSlot m torn = some pair →
    readKeyFromSlot m (f.sector op.name) = some pair ∨
      readKeyFromSlot m (op.result f) = some pair

end FlashOp

/-- The flash after all of the steps. -/
def runOps (ops : List FlashOp) (f : Flash) : Flash :=
  ops.foldl FlashOp.apply f

/-- Power fails somewhere in the steps and leaves the flash `f'`. -/
inductive PowerLoss : Flash → List FlashOp → Flash → Prop where
  | before {f : Flash} {ops : List FlashOp} : PowerLoss f ops f
  | during {f : Flash} {op : FlashOp} {ops : List FlashOp} (torn : Sector) :
      op.Tears m f torn → PowerLoss f (op :: ops) (f.setSector op.name torn)
  | after {f f' : Flash} {op : FlashOp} {ops : List FlashOp} :
      PowerLoss (op.apply f) ops f' → PowerLoss f (op :: ops) f'

/-! ## The steps of a key update -/

/-- The steps of `write_key_to_slot`. -/
def writeKeyOps (s : Slot) (id : Bytes 8) (key : Bytes 16) : List FlashOp :=
  [.erase (.slot s), .program (.slot s) (keyPage m id key)]

/-- `slot_index_page_t` of a slot. -/
def indexPage (s : Slot) : Bytes 256 :=
  s.index ::ᵥ 0xA5 ::ᵥ Bytes.zero 254

/-- The steps of `store_last_used_slot`. -/
def storeIndexOps (s : Slot) : List FlashOp :=
  [.erase .index, .program .index (indexPage s)]

/-- The steps of a KEY frame and of `new key -f`. -/
def keyUpdateOps (s : Slot) (id : Bytes 8) (key : Bytes 16) : List FlashOp :=
  writeKeyOps m s id key ++ storeIndexOps s

section

variable {m}

theorem runOps_writeKeyOps (f : Flash) (s : Slot) (id : Bytes 8) (key : Bytes 16) :
    runOps (writeKeyOps m s id key) f = picoWriteKeyToSlot m f s id key := by
  cases s with
  | A => rfl
  | B => rfl

theorem runOps_storeIndexOps (f : Flash) (s : Slot) :
    runOps (storeIndexOps s) f = storeLastUsedSlot f s := rfl

theorem runOps_keyUpdateOps (f : Flash) (s : Slot) (id : Bytes 8) (key : Bytes 16) :
    runOps (keyUpdateOps m s id key) f =
      storeLastUsedSlot (picoWriteKeyToSlot m f s id key) s := by
  have happend : runOps (keyUpdateOps m s id key) f =
      runOps (storeIndexOps s) (runOps (writeKeyOps m s id key) f) :=
    List.foldl_append ..
  rw [happend, runOps_writeKeyOps, runOps_storeIndexOps]

/-- A KEY frame takes these steps. -/
theorem flash_handleKeyFrame (env : PicoEnv) (id : Bytes 8) (key : Bytes 16)
    (macKey : Bytes 32) (p : Pico) :
    (handleKeyFrame m env id key macKey p).1.flash =
      runOps (keyUpdateOps m p.currentSlot id key) p.flash := by
  rw [runOps_keyUpdateOps]
  simp only [handleKeyFrame, picoNonceOnKeyChange, picoNonceInit]
  split
  · rfl
  · rfl

/-- So does `new key -f`, once it has received the key. -/
theorem flash_newKeyForced {env : PicoEnv} {id : Bytes 8} {key : Bytes 16}
    (hread : receiveNewKeyWithTimeout false env.wait = some (id, key)) (p : Pico) :
    (handleCommands m env (ascii " new key -f") p).2.flash =
      runOps (keyUpdateOps m p.currentSlot id key) p.flash := by
  have hcmd : handleCommands m env (ascii " new key -f") p = waitForKey m env p := by
    rw [handleCommands, if_neg (by decide), if_neg (by decide),
      if_neg (by decide), if_neg (by decide), if_neg (by decide),
      if_neg (by decide), if_pos rfl]
  rw [hcmd, runOps_keyUpdateOps, waitForKey, hread]
  rfl

/-! ## What is left after a power loss -/

theorem PowerLoss.nil {f f' : Flash} (h : PowerLoss m f [] f') : f' = f := by
  cases h with
  | before => rfl

theorem PowerLoss.cons {f f' : Flash} {op : FlashOp} {ops : List FlashOp}
    (h : PowerLoss m f (op :: ops) f') :
    f' = f ∨ (∃ torn, op.Tears m f torn ∧ f' = f.setSector op.name torn) ∨
      PowerLoss m (op.apply f) ops f' := by
  cases h with
  | before => exact Or.inl rfl
  | during torn htorn => exact Or.inr (Or.inl ⟨torn, htorn, rfl⟩)
  | after h => exact Or.inr (Or.inr h)

/-- Where each step and each of its interruptions keep a property, a power loss
does. -/
theorem PowerLoss.invariant {P : Flash → Prop} {ops : List FlashOp}
    (hdone : ∀ f, ∀ op ∈ ops, P f → P (op.apply f))
    (htorn : ∀ f torn, ∀ op ∈ ops, P f → op.Tears m f torn →
      P (f.setSector op.name torn))
    {f f' : Flash} (h : PowerLoss m f ops f') (hf : P f) : P f' := by
  induction ops generalizing f with
  | nil => exact h.nil ▸ hf
  | cons op ops ih =>
      obtain ⟨hop, hops⟩ := List.forall_mem_cons.mp fun op h f => hdone f op h
      obtain ⟨hop', hops'⟩ := List.forall_mem_cons.mp fun op h f t => htorn f t op h
      rcases h.cons with rfl | ⟨torn, ht, rfl⟩ | h
      · exact hf
      · exact hop' f torn hf ht
      · exact ih (fun f op h => hops op h f) (fun f t op h => hops' op h f t) h
          (hop f hf)

/-! ## The pairs in the slots -/

theorem picoReadKeyPairFromSlot_setSector_index (f : Flash) (sector : Sector) :
    picoReadKeyPairFromSlot m (f.setSector .index sector) =
      picoReadKeyPairFromSlot m f := by
  funext s
  cases s with
  | A => rfl
  | B => rfl

theorem picoReadKeyPairFromSlot_setSector_self (f : Flash) (s : Slot)
    (sector : Sector) :
    picoReadKeyPairFromSlot m (f.setSector (.slot s) sector) s =
      readKeyFromSlot m sector :=
  congrArg (readKeyFromSlot m) (f.slot_setSlot s sector)

theorem picoReadKeyPairFromSlot_setSector_other (f : Flash) (s : Slot)
    (sector : Sector) :
    picoReadKeyPairFromSlot m (f.setSector (.slot s) sector) s.other =
      picoReadKeyPairFromSlot m f s.other :=
  congrArg (readKeyFromSlot m) (f.slot_setSlot_other s sector)

/-- What `load_session_key` needs to return the `old` or the `new` pair whatever
becomes of slot `s`. -/
structure Redundant (m : Mbedtls) (s : Slot) (old new : KeyPair) (f : Flash) :
    Prop where
  other : picoReadKeyPairFromSlot m f s.other = some old ∨
    picoReadKeyPairFromSlot m f s.other = some new
  self : ∀ pair, picoReadKeyPairFromSlot m f s = some pair →
    pair = old ∨ pair = new

/-- With nothing in slot `s`, `load_session_key` returns what the other one holds. -/
theorem loadSessionKey_of_none {f : Flash} {s : Slot}
    (h : picoReadKeyPairFromSlot m f s = none) :
    loadSessionKey m f = picoReadKeyPairFromSlot m f s.other := by
  cases s with
  | A =>
      rw [loadSessionKey, h]
      cases hB : picoReadKeyPairFromSlot m f .B with
      | none => exact hB.symm
      | some pair => exact hB.symm
  | B =>
      rw [loadSessionKey, h]
      rfl

theorem Redundant.loadSessionKey {s : Slot} {old new : KeyPair} {f : Flash}
    (h : Redundant m s old new f) :
    ∃ pair, loadSessionKey m f = some pair ∧ (pair = old ∨ pair = new) := by
  obtain ⟨pair, hother, hpair⟩ : ∃ pair,
      picoReadKeyPairFromSlot m f s.other = some pair ∧
        (pair = old ∨ pair = new) := by
    rcases h.other with hold | hnew
    · exact ⟨old, hold, Or.inl rfl⟩
    · exact ⟨new, hnew, Or.inr rfl⟩
  cases s with
  | A =>
      have hB : picoReadKeyPairFromSlot m f .B = some pair := hother
      exact ⟨pair, by simp only [LifiAuth.loadSessionKey, hB], hpair⟩
  | B =>
      have hA : picoReadKeyPairFromSlot m f .A = some pair := hother
      cases hB : picoReadKeyPairFromSlot m f .B with
      | some pair' =>
          exact ⟨pair', by simp only [LifiAuth.loadSessionKey, hB], h.self pair' hB⟩
      | none => exact ⟨pair, by simp only [LifiAuth.loadSessionKey, hA, hB], hpair⟩

/-- A sector that holds at most one of the two pairs is as good as any. -/
theorem Redundant.setSector {s : Slot} {old new : KeyPair} {f : Flash}
    (h : Redundant m s old new f) {sector : Sector}
    (hsector : ∀ pair, readKeyFromSlot m sector = some pair →
      pair = old ∨ pair = new) :
    Redundant m s old new (f.setSector (.slot s) sector) := by
  constructor
  · rw [picoReadKeyPairFromSlot_setSector_other]
    exact h.other
  · rw [picoReadKeyPairFromSlot_setSector_self]
    exact hsector

theorem Redundant.setIndex {s : Slot} {old new : KeyPair} {f : Flash}
    (h : Redundant m s old new f) (sector : Sector) :
    Redundant m s old new (f.setSector .index sector) := by
  constructor
  · rw [picoReadKeyPairFromSlot_setSector_index]
    exact h.other
  · rw [picoReadKeyPairFromSlot_setSector_index]
    exact h.self

theorem readKeyFromSlot_keyPage (new : KeyPair) :
    readKeyFromSlot m (programPage erasedSector (keyPage m new.1 new.2)) =
      some new := by
  have hwrite := picoReadKeyPairFromSlot_write m Flash.erased .A new.1 new.2
  rwa [picoReadKeyPairFromSlot, picoWriteKeyToSlot, Flash.slot_setSlot] at hwrite

/-- The page is programmed into an erased sector. -/
theorem result_program_erased (f : Flash) (s : Slot) (page : Bytes 256) :
    (FlashOp.program (.slot s) page).result
        ((FlashOp.erase (.slot s)).apply f) =
      programPage erasedSector page :=
  congrArg (programPage · page) (Flash.sector_setSector f (.slot s) erasedSector)

/-- The index sector does not matter. -/
theorem Redundant.storeIndex {s : Slot} {old new : KeyPair} {f f' : Flash}
    (h : Redundant m s old new f) (hloss : PowerLoss m f (storeIndexOps s) f') :
    Redundant m s old new f' := by
  have hname : ∀ op ∈ storeIndexOps s, op.name = .index := by
    simp [storeIndexOps, FlashOp.name]
  refine hloss.invariant (P := Redundant m s old new) ?_ ?_ h
  · intro f op hop hf
    rw [FlashOp.apply, hname op hop]
    exact hf.setIndex _
  · intro f torn op hop hf _
    rw [hname op hop]
    exact hf.setIndex torn

/-- Whatever the power loss interrupts, the current slot holds the old pair, the
new pair or nothing, and the other slot keeps its pair. -/
theorem Redundant.keyUpdate {s : Slot} {old new : KeyPair} {f f' : Flash}
    (h : Redundant m s old new f)
    (hloss : PowerLoss m f (keyUpdateOps m s new.1 new.2) f') :
    Redundant m s old new f' := by
  have hnone : ∀ pair, readKeyFromSlot m erasedSector = some pair →
      pair = old ∨ pair = new := by
    intro pair hpair
    rw [readKeyFromSlot_erased] at hpair
    cases hpair
  have hnew : ∀ pair, readKeyFromSlot m
      ((FlashOp.program (.slot s) (keyPage m new.1 new.2)).result
        ((FlashOp.erase (.slot s)).apply f)) = some pair →
        pair = old ∨ pair = new := by
    intro pair hpair
    rw [result_program_erased, readKeyFromSlot_keyPage] at hpair
    exact Or.inr (Option.some.inj hpair).symm
  have herased := h.setSector hnone
  rcases hloss.cons with rfl | ⟨torn, htorn, rfl⟩ | hloss
  · exact h
  · apply h.setSector
    intro pair hpair
    rcases htorn pair hpair with hbefore | hafter
    · exact h.self pair hbefore
    · exact hnone pair hafter
  rcases hloss.cons with rfl | ⟨torn, htorn, rfl⟩ | hloss
  · exact herased
  · apply herased.setSector
    intro pair hpair
    rcases htorn pair hpair with hbefore | hafter
    · exact herased.self pair hbefore
    · exact hnew pair hafter
  exact (herased.setSector hnew).storeIndex hloss

/-- A key update survives every power loss exactly if the slot that is not current
holds the old or the new pair beforehand. -/
theorem keyUpdate_survives_iff {p : Pico} {old : KeyPair}
    (hold : picoReadKeyPairFromSlot m p.flash p.currentSlot = some old)
    (new : KeyPair) :
    (∀ f', PowerLoss m p.flash (keyUpdateOps m p.currentSlot new.1 new.2) f' →
        ∃ pair, loadSessionKey m f' = some pair ∧ (pair = old ∨ pair = new)) ↔
      (picoReadKeyPairFromSlot m p.flash p.currentSlot.other = some old ∨
        picoReadKeyPairFromSlot m p.flash p.currentSlot.other = some new) := by
  constructor
  · intro h
    -- power fails between erasing and programming
    obtain ⟨pair, hload, hpair⟩ := h _ (.after .before)
    have hself : picoReadKeyPairFromSlot m
        ((FlashOp.erase (.slot p.currentSlot)).apply p.flash) p.currentSlot =
          none := by
      rw [FlashOp.apply, FlashOp.name,
        picoReadKeyPairFromSlot_setSector_self]
      exact readKeyFromSlot_erased
    have hother := loadSessionKey_of_none hself
    rw [FlashOp.apply, FlashOp.name, picoReadKeyPairFromSlot_setSector_other]
      at hother
    have hread : picoReadKeyPairFromSlot m p.flash p.currentSlot.other =
        some pair := hother.symm.trans hload
    rcases hpair with rfl | rfl
    · exact Or.inl hread
    · exact Or.inr hread
  · intro hother f' hloss
    have hself : ∀ pair, picoReadKeyPairFromSlot m p.flash p.currentSlot =
        some pair → pair = old ∨ pair = new := by
      intro pair hpair
      exact Or.inl (Option.some.inj (hpair.symm.trans hold))
    exact (Redundant.keyUpdate ⟨hother, hself⟩ hloss).loadSessionKey

end

/-- A sender with a key in slot A and nothing in slot B. -/
def oneKey : Pico :=
  Pico.off (picoWriteKeyToSlot .transparent Flash.erased .A
    (List.Vector.replicate 8 1) (List.Vector.replicate 16 2))

def updateKey : KeyPair := (List.Vector.replicate 8 4, List.Vector.replicate 16 5)

/-- Power fails after the erasure, and no key is left. -/
theorem powerLoss_loses_key :
    picoReadKeyPairFromSlot .transparent oneKey.flash oneKey.currentSlot =
        some (List.Vector.replicate 8 1, List.Vector.replicate 16 2) ∧
      PowerLoss .transparent oneKey.flash
        (keyUpdateOps .transparent oneKey.currentSlot updateKey.1 updateKey.2)
        ((FlashOp.erase (.slot .A)).apply oneKey.flash) ∧
      loadSessionKey .transparent
        ((FlashOp.erase (.slot .A)).apply oneKey.flash) = none := by
  refine ⟨by decide +kernel, .after .before, by decide +kernel⟩

/-- The same with the key in both slots. -/
def sameKeyTwice : Pico :=
  { oneKey with
    flash := picoWriteKeyToSlot .transparent oneKey.flash .B
      (List.Vector.replicate 8 1) (List.Vector.replicate 16 2) }

theorem keyUpdate_survives_sameKeyTwice :
    ∃ pair, loadSessionKey .transparent
        ((FlashOp.erase (.slot .A)).apply sameKeyTwice.flash) = some pair ∧
      (pair = (List.Vector.replicate 8 1, List.Vector.replicate 16 2) ∨
        pair = updateKey) := by
  refine (keyUpdate_survives_iff (p := sameKeyTwice) ?_ updateKey).mpr ?_ _
    (.after .before)
  · decide +kernel
  · exact Or.inl (by decide +kernel)

end LifiAuth
