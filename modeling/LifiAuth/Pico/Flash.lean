import LifiAuth.Protocol.Constants
import LifiAuth.Protocol.Crypto

/-!
# Keys in flash

The three sectors that `pico_handler.c` uses: one for each key slot and one for the
last used slot.  Erasing a sector sets all its bits; programming a page can only
clear bits.
-/

namespace LifiAuth

/-- A key slot, `0` and `1` in the source. -/
inductive Slot where
  | A
  | B
  deriving DecidableEq, Repr

namespace Slot

def other : Slot → Slot
  | A => B
  | B => A

def index : Slot → UInt8
  | A => 0
  | B => 1

end Slot

/-- `FLASH_SECTOR_SIZE` bytes. -/
abbrev Sector := Bytes 4096

/-- The last three sectors of the flash. -/
structure Flash where
  slotA : Sector
  slotB : Sector
  index : Sector
  deriving DecidableEq

namespace Flash

def slot (f : Flash) : Slot → Sector
  | .A => f.slotA
  | .B => f.slotB

def setSlot (f : Flash) (s : Slot) (sector : Sector) : Flash :=
  match s with
  | .A => { f with slotA := sector }
  | .B => { f with slotB := sector }

@[simp] theorem slot_setSlot (f : Flash) (s : Slot) (sector : Sector) :
    (f.setSlot s sector).slot s = sector := by
  cases s <;> rfl

@[simp] theorem slot_setSlot_other (f : Flash) (s : Slot) (sector : Sector) :
    (f.setSlot s sector).slot s.other = f.slot s.other := by
  cases s <;> rfl

end Flash

/-- `flash_range_erase` of one sector. -/
def erasedSector : Sector := List.Vector.replicate 4096 0xFF

/-- A chip as it leaves the factory. -/
def Flash.erased : Flash := ⟨erasedSector, erasedSector, erasedSector⟩

/-- `flash_range_program` of the first page of a sector. -/
def programPage (sector : Sector) (page : Bytes 256) : Sector :=
  ⟨List.zipWith (· &&& ·) (sector.toList.take 256) page.toList ++
    sector.toList.drop 256, by simp⟩

/-! ## The key block -/

/-- `FLASH_KEY_MAGIC`, in the byte order of the processor. -/
def flashKeyMagic : List UInt8 := [0x53, 0x53, 0x45, 0x53]

/-- `key_flash_block_t`. -/
structure KeyFlashBlock where
  keyId : Bytes 8
  key : Bytes 16
  hash : Bytes 32
  magic : Bytes 4

namespace KeyFlashBlock

def bytes (b : KeyFlashBlock) : Bytes 60 :=
  ((b.keyId.append b.key).append b.hash).append b.magic

/-- The block at the start of a sector. -/
def ofSector (s : Sector) : KeyFlashBlock where
  keyId := s.slice 0 8 (by decide)
  key := s.slice 8 16 (by decide)
  hash := s.slice 24 32 (by decide)
  magic := s.slice 56 4 (by decide)

end KeyFlashBlock

variable (m : Mbedtls)

def computeKeyHash (id : Bytes 8) (key : Bytes 16) : Bytes 32 :=
  m.sha256 (id.toList ++ key.toList)

def validateFlashBlock (b : KeyFlashBlock) : Bool :=
  b.magic.toList == flashKeyMagic && b.hash == computeKeyHash m b.keyId b.key

/-- `read_key_from_slot`. -/
def readKeyFromSlot (s : Sector) : Option (Bytes 8 × Bytes 16) :=
  let b := KeyFlashBlock.ofSector s
  if validateFlashBlock m b then some (b.keyId, b.key) else none

/-- The block that `write_key_to_slot` fills in. -/
def keyBlock (id : Bytes 8) (key : Bytes 16) : KeyFlashBlock where
  keyId := id
  key := key
  hash := computeKeyHash m id key
  magic := ⟨flashKeyMagic, rfl⟩

/-- The page it is staged in. -/
def keyPage (id : Bytes 8) (key : Bytes 16) : Bytes 256 :=
  (keyBlock m id key).bytes.append (Bytes.zero 196)

/-- `pico_write_key_to_slot`; it has no way to fail. -/
def picoWriteKeyToSlot (f : Flash) (s : Slot) (id : Bytes 8)
    (key : Bytes 16) : Flash :=
  f.setSlot s (programPage erasedSector (keyPage m id key))

def picoReadKeyPairFromSlot (f : Flash) (s : Slot) :
    Option (Bytes 8 × Bytes 16) :=
  readKeyFromSlot m (f.slot s)

/-- `load_session_key`: slot B comes first. -/
def loadSessionKey (f : Flash) : Option (Bytes 8 × Bytes 16) :=
  match picoReadKeyPairFromSlot m f .B with
  | some pair => some pair
  | none => picoReadKeyPairFromSlot m f .A

/-- `pico_clear_slot_verify`. -/
def picoClearSlotVerify (f : Flash) (s : Slot) : Flash :=
  f.setSlot s erasedSector

/-- `store_last_used_slot`. -/
def storeLastUsedSlot (f : Flash) (s : Slot) : Flash :=
  let page : Bytes 256 :=
    Bytes.append (⟨[s.index, 0xA5], rfl⟩ : Bytes 2) (Bytes.zero 254)
  { f with index := programPage erasedSector page }

/-! ## Reading back -/

/-- Programming erased bytes writes them as they are. -/
theorem zipWith_and_erased (page : List UInt8) :
    List.zipWith (· &&& ·) (List.replicate page.length (0xFF : UInt8)) page =
      page := by
  induction page with
  | nil => rfl
  | cons b page ih =>
      have hb : (0xFF : UInt8) &&& b = b := UInt8.neg_one_and
      simp only [List.length_cons, List.replicate_succ, List.zipWith_cons_cons,
        hb, ih]

theorem toList_programPage_erased (page : Bytes 256) :
    ∃ rest, (programPage erasedSector page).toList = page.toList ++ rest := by
  have htake : erasedSector.toList.take 256 = List.replicate 256 0xFF :=
    List.take_replicate
  have hpage := zipWith_and_erased page.toList
  rw [page.toList_length] at hpage
  exact ⟨_, by rw [programPage, Bytes.toList_mk, htake, hpage]⟩

/-- A block at the start of a sector is read as it was laid out. -/
theorem ofSector_eq (s : Sector) (b : KeyFlashBlock) {rest : List UInt8}
    (h : s.toList = b.bytes.toList ++ rest) : KeyFlashBlock.ofSector s = b := by
  simp only [KeyFlashBlock.bytes, Bytes.toList_append, List.append_assoc] at h
  have hid : s.slice 0 8 (by decide) = b.keyId :=
    Bytes.slice_eq_of_toList [] b.keyId _ 0 _ h rfl
  have hkey : s.slice 8 16 (by decide) = b.key :=
    Bytes.slice_eq_of_toList b.keyId.toList b.key _ 8 _ h (by simp)
  have hhash : s.slice 24 32 (by decide) = b.hash :=
    Bytes.slice_eq_of_toList (b.keyId.toList ++ b.key.toList) b.hash _ 24 _
      (by rw [h, List.append_assoc]) (by simp)
  have hmagic : s.slice 56 4 (by decide) = b.magic :=
    Bytes.slice_eq_of_toList
      (b.keyId.toList ++ (b.key.toList ++ b.hash.toList)) b.magic _ 56 _
      (by rw [h, List.append_assoc, List.append_assoc]) (by simp)
  rw [KeyFlashBlock.ofSector, hid, hkey, hhash, hmagic]

/-- A written slot reads back as what was written. -/
theorem picoReadKeyPairFromSlot_write (f : Flash) (s : Slot) (id : Bytes 8)
    (key : Bytes 16) :
    picoReadKeyPairFromSlot m (picoWriteKeyToSlot m f s id key) s =
      some (id, key) := by
  obtain ⟨rest, hrest⟩ := toList_programPage_erased (keyPage m id key)
  have hblock : KeyFlashBlock.ofSector
      (programPage erasedSector (keyPage m id key)) = keyBlock m id key := by
    apply ofSector_eq
    rw [hrest, keyPage, Bytes.toList_append, List.append_assoc]
  rw [picoReadKeyPairFromSlot, picoWriteKeyToSlot, Flash.slot_setSlot,
    readKeyFromSlot, hblock]
  have hvalid : validateFlashBlock m (keyBlock m id key) = true := by
    have hmagic : (keyBlock m id key).magic.toList = flashKeyMagic := rfl
    have hhash : (keyBlock m id key).hash = computeKeyHash m
        (keyBlock m id key).keyId (keyBlock m id key).key := rfl
    rw [validateFlashBlock, hmagic, ← hhash, beq_self_eq_true,
      beq_self_eq_true]
    rfl
  rw [if_pos hvalid]
  rfl

end LifiAuth
