import LifiAuth.Pico.KeyStore

/-!
# Storing a key without a slot

`store_session_key` writes slot A unless it is valid, and slot B then.
`load_session_key` looks at slot B first.  The two rules fit unless slot B alone holds a
key, and they always fit behind a first store.
-/

namespace LifiAuth

variable (m : Mbedtls)

/-- `store_session_key`; the write behind it has no way to fail. -/
def storeSessionKey (f : Flash) (id : Bytes 8) (key : Bytes 16) : Bool × Flash :=
  if (picoReadKeyPairFromSlot m f .A).isSome then
    (true, picoWriteKeyToSlot m f .B id key)
  else (true, picoWriteKeyToSlot m f .A id key)

/-- The stored key is the one that is loaded, and a key that was alone is still there. -/
structure KeyStored (f : Flash) (id : Bytes 8) (key : Bytes 16) (f' : Flash) :
    Prop where
  loaded : loadSessionKey m f' = some (id, key)
  kept : ∀ s pair, picoReadKeyPairFromSlot m f s = some pair →
    picoReadKeyPairFromSlot m f s.other = none →
      picoReadKeyPairFromSlot m f' s = some pair

/-- No other key is alone in slot B. -/
def SlotBFits (f : Flash) (id : Bytes 8) (key : Bytes 16) : Prop :=
  picoReadKeyPairFromSlot m f .A = none →
    ∀ pair, picoReadKeyPairFromSlot m f .B = some pair → pair = (id, key)

variable {m} {f : Flash} {id : Bytes 8} {key : Bytes 16}

/-! ## Loading -/

theorem loadSessionKey_of_slotB {pair : Bytes 8 × Bytes 16}
    (h : picoReadKeyPairFromSlot m f .B = some pair) :
    loadSessionKey m f = some pair := by
  rw [loadSessionKey, h]

theorem loadSessionKey_of_slotA (h : picoReadKeyPairFromSlot m f .B = none) :
    loadSessionKey m f = picoReadKeyPairFromSlot m f .A := by
  rw [loadSessionKey, h]

/-! ## Storing -/

/-- With a key in slot A, slot B is written and loaded. -/
theorem keyStored_of_slotA {pair : Bytes 8 × Bytes 16}
    (h : picoReadKeyPairFromSlot m f .A = some pair) :
    KeyStored m f id key (storeSessionKey m f id key).2 := by
  rw [storeSessionKey, h, Option.isSome_some, if_pos rfl]
  constructor
  · exact loadSessionKey_of_slotB (picoReadKeyPairFromSlot_write m f .B id key)
  · intro s pair' hread hother
    cases s with
    | A =>
        rw [picoReadKeyPairFromSlot_writeKey, Function.update_of_ne Slot.noConfusion]
        exact hread
    | B =>
        rw [Slot.other, h] at hother
        cases hother

/-- Without one, slot A is written, and loaded only if slot B has nothing else. -/
theorem keyStored_of_noSlotA_iff (h : picoReadKeyPairFromSlot m f .A = none) :
    KeyStored m f id key (storeSessionKey m f id key).2 ↔
      ∀ pair, picoReadKeyPairFromSlot m f .B = some pair → pair = (id, key) := by
  have hA := picoReadKeyPairFromSlot_write m f .A id key
  have hB : picoReadKeyPairFromSlot m (picoWriteKeyToSlot m f .A id key) .B =
      picoReadKeyPairFromSlot m f .B := by
    rw [picoReadKeyPairFromSlot_writeKey, Function.update_of_ne Slot.noConfusion]
  rw [storeSessionKey, h, Option.isSome_none, if_neg Bool.false_ne_true]
  constructor
  · rintro ⟨hloaded, -⟩ pair hpair
    rw [← hB] at hpair
    rw [loadSessionKey_of_slotB hpair] at hloaded
    exact Option.some.inj hloaded
  · intro hfits
    refine ⟨?_, ?_⟩
    · by_cases hnone : picoReadKeyPairFromSlot m f .B = none
      · rw [loadSessionKey_of_slotA (hB.trans hnone), hA]
      · obtain ⟨pair, hpair⟩ := Option.ne_none_iff_exists'.mp hnone
        rw [loadSessionKey_of_slotB (hB.trans hpair), hfits pair hpair]
    · intro s pair hread _
      cases s with
      | A =>
          rw [h] at hread
          cases hread
      | B => exact hB.trans hread

/-- What is stored is loaded exactly if no other key is alone in slot B. -/
theorem stored_key_loaded_iff (m : Mbedtls) (f : Flash) (id : Bytes 8)
    (key : Bytes 16) :
    ((storeSessionKey m f id key).1 = true →
        KeyStored m f id key (storeSessionKey m f id key).2) ↔
      SlotBFits m f id key := by
  have hok : (storeSessionKey m f id key).1 = true := by
    rw [storeSessionKey]
    split
    · rfl
    · rfl
  rw [SlotBFits]
  by_cases h : picoReadKeyPairFromSlot m f .A = none
  · rw [← keyStored_of_noSlotA_iff h]
    exact ⟨fun hstored _ => hstored hok, fun hstored _ => hstored h⟩
  · obtain ⟨pair, hpair⟩ := Option.ne_none_iff_exists'.mp h
    exact iff_of_true (fun _ => keyStored_of_slotA hpair) fun hnone => absurd hnone h

/-- After a key was written to slot B of a new chip, another one is stored and the first
one is loaded. -/
theorem stored_key_not_loaded :
    let f := picoWriteKeyToSlot .transparent .erased .B (Bytes.zero 8) (Bytes.zero 16)
    let id : Bytes 8 := List.Vector.replicate 8 1
    let r := storeSessionKey .transparent f id (Bytes.zero 16)
    r.1 = true ∧ loadSessionKey .transparent r.2 = some (Bytes.zero 8, Bytes.zero 16) ∧
      ¬ KeyStored .transparent f id (Bytes.zero 16) r.2 := by
  intro f id r
  have hA : picoReadKeyPairFromSlot .transparent f .A = none := by
    rw [picoReadKeyPairFromSlot_writeKey, Function.update_of_ne Slot.noConfusion]
    exact readKeyFromSlot_erased
  have hB : picoReadKeyPairFromSlot .transparent r.2 .B =
      some (Bytes.zero 8, Bytes.zero 16) := by
    simp only [r, storeSessionKey, hA, Option.isSome_none, Bool.false_eq_true, if_false]
    rw [picoReadKeyPairFromSlot_writeKey, Function.update_of_ne Slot.noConfusion]
    exact picoReadKeyPairFromSlot_write ..
  have hloaded := loadSessionKey_of_slotB hB
  have hok : r.1 = true := by
    simp only [r, storeSessionKey, hA, Option.isSome_none, Bool.false_eq_true, if_false]
  refine ⟨hok, hloaded, ?_⟩
  rintro ⟨hstored, -⟩
  rw [hloaded] at hstored
  revert hstored
  decide

/-- A store leaves a key in slot A, so that the next ones are loaded whatever slot B
holds. -/
theorem keyStored_again (m : Mbedtls) (f : Flash) (id id' : Bytes 8)
    (key key' : Bytes 16) :
    let f' := (storeSessionKey m f id key).2
    KeyStored m f' id' key' (storeSessionKey m f' id' key').2 := by
  intro f'
  have hA : ∃ pair, picoReadKeyPairFromSlot m f' .A = some pair := by
    by_cases h : picoReadKeyPairFromSlot m f .A = none
    · refine ⟨(id, key), ?_⟩
      simp only [f', storeSessionKey, h, Option.isSome_none, Bool.false_eq_true, if_false]
      exact picoReadKeyPairFromSlot_write m f .A id key
    · obtain ⟨pair, hpair⟩ := Option.ne_none_iff_exists'.mp h
      refine ⟨pair, ?_⟩
      simp only [f', storeSessionKey, hpair, Option.isSome_some, if_true]
      rw [picoReadKeyPairFromSlot_writeKey, Function.update_of_ne Slot.noConfusion]
      exact hpair
  obtain ⟨pair, hpair⟩ := hA
  exact keyStored_of_slotA hpair

end LifiAuth
