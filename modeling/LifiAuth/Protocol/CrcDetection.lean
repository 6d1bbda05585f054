import LifiAuth.Protocol.Crc16
import LifiAuth.Support.ShiftRegister

/-!
# What the checksum detects

`crc16_ccitt` is a shift register that takes in each byte from its most significant
bit on, and a buffer with its checksum is valid exactly if it leaves nothing in the
register.  The generator `x¹⁶ + x¹² + x⁵ + 1` has a constant term and the factor
`x + 1`, so short bursts and odd numbers of errors are noticed in buffers of any
length.
-/

namespace LifiAuth

open Support ShiftRegister

/-! ## The checksum as a shift register -/

/-- `0x1021`: the generator without its leading term. -/
def crcGenerator : BitVec 16 := 0x1021#16

/-- The bits of a buffer in the order in which the register takes them in. -/
def bufferBits (buf : List UInt8) : List Bool :=
  buf.flatMap fun b => bits b.toBitVec

/-- The buffer with the bits flipped that are set in `errors`. -/
def corrupt (buf errors : List UInt8) : List UInt8 :=
  List.zipWith (· ^^^ ·) buf errors

theorem toBitVec_crc16Bit (crc : UInt16) :
    (crc16Bit crc).toBitVec = shift crcGenerator crc.toBitVec := by
  have hmsb : crc &&& 0x8000 ≠ 0 ↔ crc.toBitVec.msb = true := by
    have hpow : (0x8000 : UInt16).toBitVec = BitVec.twoPow 16 15 := by decide
    rw [ne_eq, ← UInt16.toBitVec_inj, UInt16.toBitVec_and, hpow, BitVec.and_twoPow,
      BitVec.msb_eq_getLsbD_last]
    cases crc.toBitVec.getLsbD (16 - 1) <;> decide
  rw [crc16Bit, shift]
  by_cases h : crc &&& 0x8000 ≠ 0
  · rw [if_pos h, if_pos (hmsb.mp h)]
    rfl
  · rw [if_neg h, if_neg (mt hmsb.mpr h)]
    rfl

/-- A byte is taken in bit by bit. -/
theorem toBitVec_crc16Byte (crc : UInt16) (b : UInt8) :
    (crc16Byte crc b).toBitVec = run crcGenerator crc.toBitVec (bits b.toBitVec) := by
  have hbyte : ∀ n : Fin 256,
      (((UInt8.ofNat n).toUInt16 <<< 8).toBitVec <<< 8 = 0#16 ∧
        (List.range 8).map ((UInt8.ofNat n).toUInt16 <<< 8).toBitVec.getMsbD =
          bits (UInt8.ofNat n).toBitVec) := by
    decide +kernel
  obtain ⟨hout, hin⟩ := hbyte ⟨b.toNat, b.toNat_lt⟩
  rw [UInt8.ofNat_toNat] at hout hin
  have hshift : Function.Semiconj UInt16.toBitVec crc16Bit (shift crcGenerator) :=
    toBitVec_crc16Bit
  rw [crc16Byte, hshift.iterate_right 8, UInt16.toBitVec_xor, iterate_shift_xor, hout,
    hin, BitVec.xor_zero]

theorem toBitVec_foldl_crc16Byte (crc : UInt16) (data : List UInt8) :
    (data.foldl crc16Byte crc).toBitVec =
      run crcGenerator crc.toBitVec (bufferBits data) := by
  induction data generalizing crc with
  | nil => rfl
  | cons b data ih =>
      rw [List.foldl_cons, ih, toBitVec_crc16Byte, bufferBits, bufferBits,
        List.flatMap_cons, run_append]

theorem bits_be16 (hi lo : UInt8) :
    bits (be16 hi lo).toBitVec = bits hi.toBitVec ++ bits lo.toBitVec := by
  have happend : (be16 hi lo).toBitVec = hi.toBitVec ++ lo.toBitVec := by
    apply BitVec.eq_of_toNat_eq
    have hlo : lo.toBitVec.toNat < 2 ^ 8 := lo.toBitVec.isLt
    rw [UInt16.toNat_toBitVec, be16_toNat, BitVec.toNat_append,
      ← Nat.shiftLeft_add_eq_or_of_lt hlo, Nat.shiftLeft_eq]
    rfl
  have hrange : List.range 16 = List.range 8 ++ (List.range 8).map (8 + ·) := rfl
  rw [happend, bits, bits, bits, hrange, List.map_append, List.map_map]
  congr 1
  · apply List.map_congr_left
    intro i hi
    have hlt := List.mem_range.mp hi
    rw [BitVec.getMsbD_append, if_neg (Nat.not_le_of_lt hlt)]
  · apply List.map_congr_left
    intro i hi
    rw [Function.comp_apply, BitVec.getMsbD_append, if_pos (Nat.le_add_right 8 i),
      Nat.add_sub_cancel_left]

theorem bufferBits_append (buf buf' : List UInt8) :
    bufferBits (buf ++ buf') = bufferBits buf ++ bufferBits buf' :=
  List.flatMap_append

/-- A buffer is valid if it leaves the register empty. -/
theorem crc16Validate_iff (buf : List UInt8) :
    crc16Validate buf = true ↔
      2 ≤ buf.length ∧ run crcGenerator 0xFFFF#16 (bufferBits buf) = 0#16 := by
  by_cases hshort : buf.length < 2
  · rw [crc16Validate, if_pos hshort]
    exact iff_of_false Bool.false_ne_true fun h => absurd h.1 (Nat.not_le_of_lt hshort)
  · obtain ⟨data, hi, lo, rfl⟩ : ∃ data hi lo, buf = data ++ [hi, lo] := by
      have htail : (buf.drop (buf.length - 2)).length = 2 := by
        rw [List.length_drop]
        omega
      obtain ⟨hi, lo, hpair⟩ := List.length_eq_two.mp htail
      exact ⟨buf.take (buf.length - 2), hi, lo, by rw [← hpair, List.take_append_drop]⟩
    have hlen : (data ++ [hi, lo]).length = data.length + 2 := List.length_append
    have hend : bufferBits [hi, lo] = bits (be16 hi lo).toBitVec := by
      rw [bits_be16]
      simp [bufferBits]
    have hdata : run crcGenerator 0xFFFF#16 (bufferBits data) =
        (crc16Ccitt data).toBitVec := (toBitVec_foldl_crc16Byte 0xFFFF data).symm
    rw [crc16Validate, if_neg hshort, bufferBits_append, run_append, hend, hdata,
      run_bits_eq_zero_iff (by decide), UInt16.toBitVec_inj]
    simp [hlen]

/-! ## Errors -/

theorem bufferBits_corrupt {buf errors : List UInt8}
    (hlen : buf.length = errors.length) :
    bufferBits (corrupt buf errors) =
      List.zipWith xor (bufferBits buf) (bufferBits errors) := by
  induction buf generalizing errors with
  | nil =>
      obtain rfl := List.length_eq_zero_iff.mp hlen.symm
      rfl
  | cons b buf ih =>
      obtain ⟨e, errors, rfl⟩ := List.exists_cons_of_length_eq_add_one hlen.symm
      have hbits : (bits b.toBitVec).length = (bits e.toBitVec).length := by
        rw [length_bits, length_bits]
      have ih := ih (Nat.succ.inj hlen)
      rw [corrupt] at ih
      rw [corrupt, List.zipWith_cons_cons, bufferBits, List.flatMap_cons,
        UInt8.toBitVec_xor, bits_xor]
      rw [bufferBits, List.flatMap_cons, bufferBits, List.flatMap_cons,
        List.zipWith_append hbits]
      exact congrArg _ ih

theorem length_bufferBits (buf : List UInt8) : (bufferBits buf).length = 8 * buf.length := by
  induction buf with
  | nil => rfl
  | cons b buf ih =>
      have hcons : bufferBits (b :: buf) = bits b.toBitVec ++ bufferBits buf := rfl
      rw [hcons, List.length_append, length_bits, ih, List.length_cons]
      omega

/-- Errors that leave something in the register make a valid buffer invalid. -/
theorem crc16Validate_corrupt {buf errors : List UInt8}
    (hvalid : crc16Validate buf = true) (hlen : buf.length = errors.length)
    (herrors : run crcGenerator 0#16 (bufferBits errors) ≠ 0#16) :
    crc16Validate (corrupt buf errors) = false := by
  obtain ⟨-, hempty⟩ := (crc16Validate_iff buf).mp hvalid
  have hbits : (bufferBits buf).length = (bufferBits errors).length := by
    rw [length_bufferBits, length_bufferBits, hlen]
  have hsum := run_xor crcGenerator (s := 0xFFFF#16) (t := 0#16) hbits
  rw [BitVec.xor_zero, hempty, BitVec.zero_xor] at hsum
  rw [← Bool.not_eq_true, crc16Validate_iff, bufferBits_corrupt hlen, hsum]
  exact fun h => herrors h.2

/-- A buffer with its checksum is valid; a burst of at most 16 bits in it, or an odd
number of flipped bits, makes it invalid. -/
theorem crc16_detects_errors (data : List UInt8) :
    crc16Validate (crc16Append data) = true ∧
      ∀ errors : Bytes (data.length + 2),
        IsBurst 16 (bufferBits errors.toList) ∨
            Odd ((bufferBits errors.toList).count true) →
          crc16Validate (corrupt (crc16Append data) errors.toList) = false := by
  have hvalid := crc16Validate_crc16Append data
  refine ⟨hvalid, ?_⟩
  intro errors herrors
  have hlen : (crc16Append data).length = errors.toList.length := by
    rw [crc16Append, List.length_append, List.Vector.toList_length,
      List.Vector.toList_length]
  refine crc16Validate_corrupt hvalid hlen ?_
  rcases herrors with hburst | hodd
  · exact run_ne_zero_of_isBurst (by decide) hburst
  · exact run_ne_zero_of_odd (by decide) hodd

theorem crc16_detects_errors_burst :
    crc16Validate (crc16Append [1, 2, 3]) = true ∧
      crc16Validate (corrupt (crc16Append [1, 2, 3]) [0, 0x01, 0xFF, 0xFE, 0]) = false :=
  ⟨(crc16_detects_errors [1, 2, 3]).1,
    (crc16_detects_errors [1, 2, 3]).2 ⟨[0, 0x01, 0xFF, 0xFE, 0], rfl⟩
      (Or.inl ⟨15, List.replicate 16 true, 9, by decide, by decide, by decide⟩)⟩

end LifiAuth
