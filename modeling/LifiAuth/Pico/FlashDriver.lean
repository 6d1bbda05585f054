import LifiAuth.Pico.PowerLoss
import LifiAuth.Support.NorFlash

/-!
# The flash driver

The flash functions of `pico_handler.c` on the bytes of the flash, where a sector is
a range of addresses.  Seen from outside they are a map: a pair for each slot, and
the slot used last.
-/

namespace LifiAuth

open Support

namespace Flash

theorem ext_sector {f f' : Flash}
    (h : ∀ name : SectorName, f.sector name = f'.sector name) : f = f' := by
  obtain ⟨slotA, slotB, index⟩ := f
  have hA := h (.slot .A)
  have hB := h (.slot .B)
  have hindex := h .index
  simp only [sector, slot] at hA hB hindex
  rw [hA, hB, hindex]

theorem sector_setSector_of_ne {f : Flash} {name name' : SectorName}
    (h : name' ≠ name) (sector : Sector) :
    (f.setSector name sector).sector name' = f.sector name' := by
  rcases name with (_ | _) | _ <;> rcases name' with (_ | _) | _ <;>
    first | rfl | exact absurd rfl h

/-- The slot that the index sector names. -/
def lastUsedSlot (f : Flash) : Option Slot :=
  match f.index.toList with
  | slot :: magic :: _ =>
      if magic = 0xA5 ∧ (slot = 0 ∨ slot = 1) then
        some (if slot = 0 then .A else .B)
      else none
  | _ => none

@[simp] theorem lastUsedSlot_storeLastUsedSlot (f : Flash) (s : Slot) :
    (LifiAuth.storeLastUsedSlot f s).lastUsedSlot = some s := by
  obtain ⟨rest, hrest⟩ := toList_programPage_erased (indexPage s)
  have hindex : (LifiAuth.storeLastUsedSlot f s).index.toList =
      s.index :: 0xA5 :: ((Bytes.zero 254).toList ++ rest) := hrest
  rw [lastUsedSlot, hindex]
  cases s with
  | A => rfl
  | B => rfl

@[simp] theorem lastUsedSlot_setSlot (f : Flash) (s : Slot) (sector : Sector) :
    (f.setSlot s sector).lastUsedSlot = f.lastUsedSlot := by
  cases s with
  | A => rfl
  | B => rfl

end Flash

/-- `FLASH_SECTOR_SIZE`. -/
abbrev flashSectorSize : ℕ := 4096

/-- `PICO_FLASH_SIZE_BYTES`, which depends on the board. -/
structure FlashGeometry where
  size : ℕ
  wholeSectors : flashSectorSize ∣ size
  room : 3 * flashSectorSize ≤ size

namespace FlashGeometry

variable (g : FlashGeometry)

/-- `SLOT_A_SECTOR_OFFSET`, also `FLASH_SLOT_A_OFFSET`. -/
def slotASectorOffset : ℕ := g.size - 3 * flashSectorSize

/-- `SLOT_B_SECTOR_OFFSET`, also `FLASH_SLOT_B_OFFSET`. -/
def slotBSectorOffset : ℕ := g.size - 2 * flashSectorSize

/-- `INDEX_SECTOR_OFFSET`, also `FLASH_SLOT_INDEX_OFFSET`. -/
def indexSectorOffset : ℕ := g.size - 1 * flashSectorSize

/-- `slot_to_sector_offset`; a slot's block is at the start of its sector. -/
def slotToSectorOffset : Slot → ℕ
  | .A => g.slotASectorOffset
  | .B => g.slotBSectorOffset

end FlashGeometry

namespace FlashDriver

variable (m : Mbedtls) (g : FlashGeometry)

def flashRangeErase (off count : ℕ) (f : Nor.Image) : Nor.Image :=
  Nor.erase flashSectorSize off count f

def flashRangeProgram (off : ℕ) (page : Bytes 256) (f : Nor.Image) : Nor.Image :=
  Nor.program off page.toList f

/-- The `key_flash_block_t` at an offset. -/
def keyFlashBlock (off : ℕ) (f : Nor.Image) : KeyFlashBlock where
  keyId := Nor.read off 8 f
  key := Nor.read (off + 8) 16 f
  hash := Nor.read (off + 24) 32 f
  magic := Nor.read (off + 56) 4 f

def readKeyFromSlot (off : ℕ) (f : Nor.Image) : Option KeyPair :=
  let slot := keyFlashBlock off f
  if validateFlashBlock m slot then some (slot.keyId, slot.key) else none

/-- `write_key_to_slot` takes the sector from the offset. -/
def writeKeyToSlot (off : ℕ) (id : Bytes 8) (key : Bytes 16) (f : Nor.Image) :
    Nor.Image :=
  let sector :=
    if off = g.slotASectorOffset then g.slotASectorOffset else g.slotBSectorOffset
  flashRangeProgram off (keyPage m id key) (flashRangeErase sector flashSectorSize f)

def eraseAllKeySlots (f : Nor.Image) : Nor.Image :=
  flashRangeErase g.slotBSectorOffset flashSectorSize
    (flashRangeErase g.slotASectorOffset flashSectorSize f)

/-- `load_last_used_slot`; `none` is its `-1`. -/
def loadLastUsedSlot (f : Nor.Image) : Option Slot :=
  let slot := f g.indexSectorOffset
  if f (g.indexSectorOffset + 1) = 0xA5 ∧ (slot = 0 ∨ slot = 1) then
    some (if slot = 0 then .A else .B)
  else none

def storeLastUsedSlot (s : Slot) (f : Nor.Image) : Nor.Image :=
  flashRangeProgram g.indexSectorOffset (indexPage s)
    (flashRangeErase g.indexSectorOffset flashSectorSize f)

def picoClearSlot (s : Slot) (f : Nor.Image) : Nor.Image :=
  flashRangeErase (g.slotToSectorOffset s) flashSectorSize f

/-- `pico_clear_slot_verify` reads the sector back. -/
def picoClearSlotVerify (s : Slot) (f : Nor.Image) : Bool × Nor.Image :=
  let f := flashRangeErase (g.slotToSectorOffset s) flashSectorSize f
  ((Nor.read (g.slotToSectorOffset s) flashSectorSize f).toList.all (· == 0xFF), f)

def picoReadKeyPairFromSlot (s : Slot) (f : Nor.Image) : Option KeyPair :=
  readKeyFromSlot m (g.slotToSectorOffset s) f

def picoWriteKeyToSlot (s : Slot) (id : Bytes 8) (key : Bytes 16) (f : Nor.Image) :
    Nor.Image :=
  writeKeyToSlot m g (g.slotToSectorOffset s) id key f

/-! ## The three sectors -/

/-- Where a sector starts. -/
def offset : SectorName → ℕ
  | .slot s => g.slotToSectorOffset s
  | .index => g.indexSectorOffset

/-- The bytes of the three sectors. -/
def sectors (f : Nor.Image) : Flash where
  slotA := Nor.read g.slotASectorOffset flashSectorSize f
  slotB := Nor.read g.slotBSectorOffset flashSectorSize f
  index := Nor.read g.indexSectorOffset flashSectorSize f

variable {g}

theorem sector_sectors (name : SectorName) (f : Nor.Image) :
    (sectors g f).sector name = Nor.read (offset g name) flashSectorSize f := by
  cases name with
  | slot s =>
      cases s with
      | A => rw [offset, FlashGeometry.slotToSectorOffset]; rfl
      | B => rw [offset, FlashGeometry.slotToSectorOffset]; rfl
  | index => rw [offset]; rfl

/-- The place of a sector, counted from the end of the flash. -/
def place : SectorName → ℕ
  | .slot .A => 3
  | .slot .B => 2
  | .index => 1

theorem offset_eq (name : SectorName) :
    offset g name = g.size - place name * flashSectorSize := by
  cases name with
  | slot s =>
      cases s with
      | A => rfl
      | B => rfl
  | index => rfl

theorem place_le (name : SectorName) : place name ≤ 3 := by
  cases name with
  | slot s => cases s <;> decide
  | index => decide

theorem place_injective : Function.Injective place := by
  rintro ((_ | _) | _) ((_ | _) | _) h <;> first | rfl | exact absurd h (by decide)

/-- Sectors start on sector boundaries. -/
theorem dvd_offset (name : SectorName) : flashSectorSize ∣ offset g name := by
  rw [offset_eq]
  exact Nat.dvd_sub g.wholeSectors (Nat.dvd_mul_left flashSectorSize (place name))

/-- Different sectors do not overlap. -/
theorem offset_disjoint {name name' : SectorName} (h : name' ≠ name) :
    offset g name' + flashSectorSize ≤ offset g name ∨
      offset g name + flashSectorSize ≤ offset g name' := by
  have hroom := g.room
  have hplace := place_le name
  have hplace' := place_le name'
  have hne : place name' ≠ place name := fun he => h (place_injective he)
  rw [offset_eq, offset_eq]
  simp only [flashSectorSize] at hroom ⊢
  omega

theorem sectors_erase (name : SectorName) (f : Nor.Image) :
    sectors g (flashRangeErase (offset g name) flashSectorSize f) =
      (FlashOp.erase name).apply (sectors g f) := by
  apply Flash.ext_sector
  intro name'
  rw [sector_sectors, FlashOp.apply]
  by_cases h : name' = name
  · rw [h, FlashOp.name, Flash.sector_setSector]
    exact Nor.read_erase (by decide) (dvd_offset name) (Nat.dvd_refl _)
  · rw [FlashOp.name, Flash.sector_setSector_of_ne h, sector_sectors]
    exact Nor.read_erase_of_disjoint (by decide) (dvd_offset name) (Nat.dvd_refl _)
      (offset_disjoint h)

theorem sectors_program (name : SectorName) (page : Bytes 256) (f : Nor.Image) :
    sectors g (flashRangeProgram (offset g name) page f) =
      (FlashOp.program name page).apply (sectors g f) := by
  have hpage : page.toList.length = 256 := page.toList_length
  apply Flash.ext_sector
  intro name'
  rw [sector_sectors, FlashOp.apply]
  by_cases h : name' = name
  · rw [h, FlashOp.name, Flash.sector_setSector, FlashOp.result, sector_sectors]
    apply Bytes.ext_toList
    rw [flashRangeProgram, Nor.toList_read_program (by rw [hpage]; decide), hpage]
    rfl
  · rw [FlashOp.name, Flash.sector_setSector_of_ne h, sector_sectors]
    apply Nor.read_program_of_disjoint
    have hdisjoint := offset_disjoint (g := g) h
    simp only [flashSectorSize] at hdisjoint ⊢
    omega

/-! ## The driver and the three sectors -/

theorem sectors_picoWriteKeyToSlot (s : Slot) (id : Bytes 8) (key : Bytes 16)
    (f : Nor.Image) :
    sectors g (picoWriteKeyToSlot m g s id key f) =
      LifiAuth.picoWriteKeyToSlot m (sectors g f) s id key := by
  have hsector : (if g.slotToSectorOffset s = g.slotASectorOffset
      then g.slotASectorOffset else g.slotBSectorOffset) = offset g (.slot s) := by
    cases s with
    | A => exact if_pos rfl
    | B =>
        split
        · next h => exact h.symm
        · rfl
  rw [picoWriteKeyToSlot, writeKeyToSlot, hsector]
  rw [← runOps_writeKeyOps, writeKeyOps, runOps, List.foldl_cons, List.foldl_cons,
    List.foldl_nil, ← sectors_erase, ← sectors_program]
  rfl

theorem sectors_picoClearSlot (s : Slot) (f : Nor.Image) :
    sectors g (picoClearSlot g s f) =
      LifiAuth.picoClearSlotVerify (sectors g f) s :=
  sectors_erase (.slot s) f

/-- What `pico_clear_slot_verify` reads back is erased. -/
theorem picoClearSlotVerify_eq (s : Slot) (f : Nor.Image) :
    picoClearSlotVerify g s f = (true, picoClearSlot g s f) := by
  have herased : Nor.read (g.slotToSectorOffset s) flashSectorSize
      (picoClearSlot g s f) = List.Vector.replicate flashSectorSize 0xFF :=
    Nor.read_erase (by decide) (dvd_offset (.slot s)) (Nat.dvd_refl _)
  rw [picoClearSlotVerify, ← picoClearSlot, herased]
  refine Prod.ext ?_ rfl
  rw [List.all_eq_true]
  intro b hb
  rw [List.eq_of_mem_replicate hb]
  rfl

theorem sectors_eraseAllKeySlots (f : Nor.Image) :
    sectors g (eraseAllKeySlots g f) =
      LifiAuth.picoClearSlotVerify
        (LifiAuth.picoClearSlotVerify (sectors g f) .A) .B := by
  rw [← sectors_picoClearSlot, ← sectors_picoClearSlot]
  rfl

theorem sectors_storeLastUsedSlot (s : Slot) (f : Nor.Image) :
    sectors g (storeLastUsedSlot g s f) =
      LifiAuth.storeLastUsedSlot (sectors g f) s := by
  rw [← runOps_storeIndexOps, storeIndexOps, runOps, List.foldl_cons,
    List.foldl_cons, List.foldl_nil, ← sectors_erase, ← sectors_program]
  rfl

theorem picoReadKeyPairFromSlot_eq (s : Slot) (f : Nor.Image) :
    picoReadKeyPairFromSlot m g s f =
      LifiAuth.picoReadKeyPairFromSlot m (sectors g f) s := by
  have hblock : KeyFlashBlock.ofSector ((sectors g f).slot s) =
      keyFlashBlock (g.slotToSectorOffset s) f := by
    have hslot := sector_sectors (g := g) (.slot s) f
    rw [Flash.sector] at hslot
    rw [KeyFlashBlock.ofSector, hslot]
    simp only [Nor.slice_read]
    rfl
  rw [LifiAuth.picoReadKeyPairFromSlot, LifiAuth.readKeyFromSlot, hblock]
  rfl

theorem loadLastUsedSlot_eq (f : Nor.Image) :
    loadLastUsedSlot g f = (sectors g f).lastUsedSlot := by
  have hindex : (sectors g f).index.toList =
      f g.indexSectorOffset :: f (g.indexSectorOffset + 1) ::
        (Nor.read (g.indexSectorOffset + 2) 4094 f).toList := by
    rw [← Nor.toList_read_succ, ← Nor.toList_read_succ]
    rfl
  rw [Flash.lastUsedSlot, hindex]
  rfl

/-! ## A map -/

/-- What the flash is for. -/
structure KeyMap where
  stored : Slot → Option KeyPair
  lastUsed : Option Slot

inductive StoreOp where
  | write (s : Slot) (pair : KeyPair)
  | clear (s : Slot)
  | clearVerify (s : Slot)
  | eraseAll
  | storeIndex (s : Slot)

namespace StoreOp

/-- What an operation leaves in a slot, if it is one on that slot. -/
def onSlot (s : Slot) : StoreOp → Option (Option KeyPair)
  | write t pair => if s = t then some (some pair) else none
  | clear t | clearVerify t => if s = t then some none else none
  | eraseAll => some none
  | storeIndex _ => none

/-- What an operation leaves in the index, if it is one on the index. -/
def onIndex : StoreOp → Option Slot
  | storeIndex s => some s
  | write _ _ | clear _ | clearVerify _ | eraseAll => none

end StoreOp

/-- The map as a machine. -/
def keyMap : Machine KeyMap StoreOp Empty where
  step k op :=
    (⟨fun s => (op.onSlot s).getD (k.stored s), op.onIndex.or k.lastUsed⟩, [])

variable (g)

/-- The driver as a machine. -/
def driver : Machine Nor.Image StoreOp Empty where
  step f op :=
    (match op with
      | .write s pair => picoWriteKeyToSlot m g s pair.1 pair.2 f
      | .clear s => picoClearSlot g s f
      | .clearVerify s => (picoClearSlotVerify g s f).2
      | .eraseAll => eraseAllKeySlots g f
      | .storeIndex s => storeLastUsedSlot g s f, [])

/-- What the driver reads back. -/
def view (f : Nor.Image) : KeyMap where
  stored s := picoReadKeyPairFromSlot m g s f
  lastUsed := loadLastUsedSlot g f

/-- What the three sectors hold. -/
def sectorsView (f : Flash) : KeyMap where
  stored := LifiAuth.picoReadKeyPairFromSlot m f
  lastUsed := f.lastUsedSlot

theorem view_eq (f : Nor.Image) : view m g f = sectorsView m (sectors g f) := by
  rw [view, sectorsView, loadLastUsedSlot_eq]
  congr 1
  funext s
  exact picoReadKeyPairFromSlot_eq m s f

theorem update_eq_getD (stored : Slot → Option KeyPair) (s : Slot)
    (held : Option KeyPair) :
    Function.update stored s held =
      fun t => (if t = s then some held else none).getD (stored t) := by
  funext t
  rw [Function.update_apply]
  split
  · rfl
  · rfl

theorem sectorsView_write (f : Flash) (s : Slot) (pair : KeyPair) :
    sectorsView m (LifiAuth.picoWriteKeyToSlot m f s pair.1 pair.2) =
      (keyMap.step (sectorsView m f) (.write s pair)).1 := by
  simp only [sectorsView, picoReadKeyPairFromSlot_writeKey, update_eq_getD]
  rw [LifiAuth.picoWriteKeyToSlot, Flash.lastUsedSlot_setSlot]
  rfl

theorem sectorsView_clear (f : Flash) (s : Slot) :
    sectorsView m (LifiAuth.picoClearSlotVerify f s) =
      (keyMap.step (sectorsView m f) (.clear s)).1 := by
  simp only [sectorsView, picoReadKeyPairFromSlot_clear, update_eq_getD]
  rw [LifiAuth.picoClearSlotVerify, Flash.lastUsedSlot_setSlot]
  rfl

theorem sectorsView_storeIndex (f : Flash) (s : Slot) :
    sectorsView m (LifiAuth.storeLastUsedSlot f s) =
      (keyMap.step (sectorsView m f) (.storeIndex s)).1 := by
  simp only [sectorsView, picoReadKeyPairFromSlot_storeIndex,
    Flash.lastUsedSlot_storeLastUsedSlot]
  rfl

/-- Erasing both slots. -/
theorem keyMap_eraseAll (k : KeyMap) :
    (keyMap.step (keyMap.step k (.clear .A)).1 (.clear .B)).1 =
      (keyMap.step k .eraseAll).1 := by
  have hstored (s : Slot) : ((StoreOp.clear .B).onSlot s).getD
      (((StoreOp.clear .A).onSlot s).getD (k.stored s)) = none := by
    cases s with
    | A => rfl
    | B => rfl
  exact congrArg (KeyMap.mk · k.lastUsed) (funext hstored)

/-- Every operation on the flash is the operation on the map. -/
theorem view_step (f : Nor.Image) (op : StoreOp) :
    view m g ((driver m g).step f op).1 = (keyMap.step (view m g f) op).1 := by
  rw [view_eq, view_eq]
  cases op with
  | write s pair =>
      simp only [driver, sectors_picoWriteKeyToSlot]
      exact sectorsView_write m (sectors g f) s pair
  | clear s =>
      simp only [driver, sectors_picoClearSlot]
      exact sectorsView_clear m (sectors g f) s
  | clearVerify s =>
      simp only [driver, picoClearSlotVerify_eq, sectors_picoClearSlot]
      exact sectorsView_clear m (sectors g f) s
  | eraseAll =>
      simp only [driver, sectors_eraseAllKeySlots, sectorsView_clear]
      exact keyMap_eraseAll (sectorsView m (sectors g f))
  | storeIndex s =>
      simp only [driver, sectors_storeLastUsedSlot]
      exact sectorsView_storeIndex m (sectors g f) s

/-- What the operations leave in the flash reads back as the map that they leave. -/
theorem view_run (f : Nor.Image) (ops : List StoreOp) :
    view m g ((driver m g).run f ops) = keyMap.run (view m g f) ops := by
  have hrun : view m g ((driver m g).run f ops) =
      keyMap.run (view m g f) (ops.map id) :=
    Machine.abs_run (view m g) (view_step m g) f ops
  rw [List.map_id] at hrun
  exact hrun

/-- A slot of the map holds what the last operation on it left there. -/
theorem stored_run (k : KeyMap) (ops : List StoreOp) (s : Slot) :
    (keyMap.run k ops).stored s =
      (ops.filterMap (StoreOp.onSlot s)).getLast?.getD (k.stored s) :=
  Machine.register_run (fun k : KeyMap => k.stored s) (fun _ _ => rfl) k ops

theorem lastUsed_run (k : KeyMap) (ops : List StoreOp) :
    (keyMap.run k ops).lastUsed =
      (ops.filterMap StoreOp.onIndex).getLast?.or k.lastUsed := by
  have hstep (k : KeyMap) (op : StoreOp) : (keyMap.step k op).1.lastUsed =
      (op.onIndex.map some).getD k.lastUsed := by
    cases op <;> rfl
  rw [Machine.register_run KeyMap.lastUsed hstep k ops, ← List.map_filterMap,
    List.getLast?_map]
  cases (ops.filterMap StoreOp.onIndex).getLast? with
  | none => rfl
  | some s => rfl

/-- After any operations, each slot reads back as the last operation on it left it,
and the index as it was last stored; an operation on one of them is none on the
others. -/
theorem driver_reads_last (f : Nor.Image) (ops : List StoreOp) :
    (∀ s, picoReadKeyPairFromSlot m g s ((driver m g).run f ops) =
      (ops.filterMap (StoreOp.onSlot s)).getLast?.getD
        (picoReadKeyPairFromSlot m g s f)) ∧
    loadLastUsedSlot g ((driver m g).run f ops) =
      (ops.filterMap StoreOp.onIndex).getLast?.or (loadLastUsedSlot g f) ∧
    ∀ op : StoreOp,
      (∀ s, op.onSlot s = none →
        picoReadKeyPairFromSlot m g s ((driver m g).run f (ops ++ [op])) =
          picoReadKeyPairFromSlot m g s ((driver m g).run f ops)) ∧
      (op.onIndex = none →
        loadLastUsedSlot g ((driver m g).run f (ops ++ [op])) =
          loadLastUsedSlot g ((driver m g).run f ops)) := by
  have hslot (s : Slot) (f : Nor.Image) (ops : List StoreOp) :
      picoReadKeyPairFromSlot m g s ((driver m g).run f ops) =
        (ops.filterMap (StoreOp.onSlot s)).getLast?.getD
          (picoReadKeyPairFromSlot m g s f) := by
    have hview := congrArg (KeyMap.stored · s) (view_run m g f ops)
    exact hview.trans (stored_run (view m g f) ops s)
  have hindex (f : Nor.Image) (ops : List StoreOp) :
      loadLastUsedSlot g ((driver m g).run f ops) =
        (ops.filterMap StoreOp.onIndex).getLast?.or (loadLastUsedSlot g f) := by
    have hview := congrArg KeyMap.lastUsed (view_run m g f ops)
    exact hview.trans (lastUsed_run (view m g f) ops)
  refine ⟨fun s => hslot s f ops, hindex f ops, ?_⟩
  intro op
  refine ⟨fun s hop => ?_, fun hop => ?_⟩
  · rw [Machine.run_append, hslot, List.filterMap_cons_none hop]
    rfl
  · rw [Machine.run_append, hindex, List.filterMap_cons_none hop]
    rfl

/-- The flash of a Raspberry Pi Pico. -/
def picoFlash : FlashGeometry where
  size := 2 * 1024 * 1024
  wholeSectors := by decide
  room := by decide

theorem driver_reads_last_writeThenIndex :
    let run := (driver .transparent picoFlash).run fun _ => 0
    let ops : List StoreOp := [.write .A (manualKeyId, Bytes.zero 16), .storeIndex .B]
    picoReadKeyPairFromSlot .transparent picoFlash .A (run (ops ++ [.clear .B])) =
        some (manualKeyId, Bytes.zero 16) ∧
      loadLastUsedSlot picoFlash (run (ops ++ [.clear .B])) = some .B := by
  intro run ops
  obtain ⟨hslot, hindex, hframe⟩ :=
    driver_reads_last .transparent picoFlash (fun _ => 0) ops
  obtain ⟨hother, hlast⟩ := hframe (.clear .B)
  exact ⟨(hother .A rfl).trans (hslot .A), (hlast rfl).trans hindex⟩


end FlashDriver

end LifiAuth
