import LifiAuth.Protocol.HeatshrinkStream

/-!
# What is appended to the file

Both receivers append a decompressed payload to `received_file.txt`.
`dash_receiver` sinks the payload in a loop; `ask_receiver` sinks it once, into a
decoder with an input buffer of 256 bytes, and does not look at how much was taken.
-/

namespace LifiAuth

open Support Heatshrink

/-! ## The two drivers -/

/-- `sizeof(decompressed)` in `ask_receiver`. -/
def askDecompressedSize : ℕ := 16384

/-- The file branch of `ask_receiver` after `heatshrink_decoder_alloc`: one sink, a
drain, `finish` and another drain. -/
def askDecompress (hsd : HeatshrinkDecoder) (decrypted : List UInt8) : List UInt8 :=
  let s := (hsd.sink hsd.alloc decrypted).2
  let (decompressed, s) :=
    hsd.pollLoop askDecompressedSize (askDecompressedSize + 1) s []
  (hsd.pollLoop askDecompressedSize (askDecompressedSize + 1) (hsd.finish s).2
    decompressed).1

/-- `fwrite` and `fprintf`: nothing, or the bytes and a newline. -/
def fileBytes (decompressed : List UInt8) : List UInt8 :=
  if 0 < decompressed.length then decompressed ++ [10] else []

/-- What `ask_receiver` appends to `received_file.txt`, where `heatshrink_decoder_alloc`
and `fopen` may fail. -/
def askFile (hsd : HeatshrinkDecoder) (decoderAlloc fileOpen : Bool)
    (decrypted : List UInt8) : List UInt8 :=
  if decoderAlloc && fileOpen then fileBytes (askDecompress hsd decrypted) else []

/-- What `dash_receiver` appends to it, unless its loop does not end. -/
def dashFile (hsd : HeatshrinkDecoder) (decoderAlloc fileOpen : Bool)
    (decrypted : List UInt8) : Option (List UInt8) :=
  if decoderAlloc then
    (decompress hsd decrypted).map fun decompressed =>
      if fileOpen then fileBytes decompressed else []
  else some []

section Driver

variable {hsd : HeatshrinkDecoder} {dec : List UInt8 → List UInt8}
  {Rep : hsd.State → Bool → List UInt8 → List UInt8 → Prop}

/-- `ask_receiver` decompresses what one sink takes. -/
theorem askDecompress_eq (hdec : hsd.Computes (fun _ => dec) Rep)
    {decrypted : List UInt8} {k : ℕ} (hsink : (hsd.sink hsd.alloc decrypted).1 = some k)
    (hsize : (dec (decrypted.take k)).length < askDecompressedSize) :
    askDecompress hsd decrypted = dec (decrypted.take k) := by
  have hsunk := hdec.sink hdec.alloc hsink
  obtain ⟨hout, hrep⟩ := hdec.pollLoop_of_lt hsunk hsize askDecompressedSize
  obtain ⟨hlast, -⟩ := hdec.pollLoop_of_lt (hdec.finish hrep) hsize askDecompressedSize
  rw [List.nil_append] at hout hlast
  rw [askDecompress]
  simp only [hout]
  exact hlast

end Driver

namespace Heatshrink

/-! ## Complete items -/

/-- How many bits the complete items take; `fuel` bounds the items. -/
def itemBits : ℕ → List Bool → ℕ
  | 0, _ => 0
  | _ + 1, [] => 0
  | fuel + 1, true :: bits =>
      if bits.length < 8 then 0 else 9 + itemBits fuel (bits.drop 8)
  | fuel + 1, false :: bits =>
      if bits.length < 12 then 0 else 13 + itemBits fuel (bits.drop 12)

/-- The bit behind the last complete item of `input`. -/
def itemsEnd (input : List UInt8) : ℕ :=
  itemBits (input.flatMap bitsOf).length (input.flatMap bitsOf)

/-- Less than an item is left behind the last complete one. -/
theorem length_lt_itemBits_add {fuel : ℕ} {bits : List Bool} (hfuel : bits.length ≤ fuel) :
    bits.length < itemBits fuel bits + 13 := by
  fun_induction itemBits fuel bits with
  | case1 bits => omega
  | case2 => exact Nat.succ_pos 12
  | case3 fuel bits hshort =>
      rw [List.length_cons]
      omega
  | case4 fuel bits hlong ih =>
      rw [List.length_cons] at hfuel ⊢
      rw [List.length_drop] at ih
      have ih := ih (by omega)
      omega
  | case5 fuel bits hshort =>
      rw [List.length_cons]
      omega
  | case6 fuel bits hlong ih =>
      rw [List.length_cons] at hfuel ⊢
      rw [List.length_drop] at ih
      have ih := ih (by omega)
      omega

/-- An item of at least 9 bits gives at most 16 bytes. -/
theorem length_decodeBits_le (fuel : ℕ) (bits : List Bool) (out : List UInt8) :
    (decodeBits fuel bits out).length ≤ out.length + 2 * bits.length := by
  fun_induction decodeBits fuel bits out with
  | case1 => exact Nat.le_add_right _ _
  | case2 => exact Nat.le_add_right _ _
  | case3 => exact Nat.le_add_right _ _
  | case4 fuel bits out hlong ih =>
      rw [List.length_drop, List.length_append, List.length_singleton] at ih
      rw [List.length_cons]
      omega
  | case5 => exact Nat.le_add_right _ _
  | case6 fuel bits out hlong ih =>
      have hcount := natOf_lt ((bits.drop 8).take 4)
      rw [List.length_take_of_le (by rw [List.length_drop]; omega)] at hcount
      rw [List.length_drop, Hsd.length_copyBack] at ih
      rw [List.length_cons]
      omega

/-- Less than an item gives nothing, and neither does a part of it. -/
theorem decodeBits_take_of_short {fuel : ℕ} {bit : Bool} {bits : List Bool}
    (h : bits.length < bif bit then 8 else 12) (n : ℕ) (out : List UInt8) :
    decodeBits (fuel + 1) ((bit :: bits).take n) out = out := by
  cases n with
  | zero => rfl
  | succ n =>
      cases bit with
      | true =>
          have hcut : (bits.take n).length < 8 := (List.length_take_le' n bits).trans_lt h
          rw [List.take_succ_cons, decodeBits, if_pos hcut]
      | false =>
          have hcut : (bits.take n).length < 12 := (List.length_take_le' n bits).trans_lt h
          rw [List.take_succ_cons, decodeBits, if_pos hcut]

/-- Cutting off bits keeps the output exactly if it keeps the complete items. -/
theorem decodeBits_take_iff (fuel n : ℕ) (bits : List Bool) (out : List UInt8) :
    decodeBits fuel (bits.take n) out = decodeBits fuel bits out ↔
      itemBits fuel bits ≤ n := by
  have hlonger {fuel : ℕ} {bits : List Bool} {out longer : List UInt8}
      (hlt : out.length < longer.length) : out ≠ decodeBits fuel bits longer := by
    intro heq
    have hle := (prefix_decodeBits fuel bits longer).length_le
    rw [← heq] at hle
    omega
  fun_induction decodeBits fuel bits out generalizing n with
  | case1 => exact iff_of_true rfl (Nat.zero_le _)
  | case2 => exact iff_of_true (by rw [List.take_nil]; rfl) (Nat.zero_le _)
  | case3 fuel bits out hshort =>
      rw [itemBits, if_pos hshort]
      exact iff_of_true (decodeBits_take_of_short hshort n out) (Nat.zero_le _)
  | case4 fuel bits out hlong ih =>
      rw [itemBits, if_neg hlong]
      have hgrows : out.length < (out ++ [byteOf (bits.take 8)]).length := by
        rw [List.length_append]
        exact Nat.lt_succ_self _
      cases n with
      | zero => exact iff_of_false (hlonger hgrows) (by omega)
      | succ n =>
          rw [List.take_succ_cons, decodeBits, List.length_take]
          by_cases hcut : min n bits.length < 8
          · rw [if_pos hcut]
            exact iff_of_false (hlonger hgrows) (by omega)
          · rw [if_neg hcut, List.drop_take, List.take_take,
              Nat.min_eq_left (show 8 ≤ n by omega)]
            refine (ih (n - 8)).trans ?_
            omega
  | case5 fuel bits out hshort =>
      rw [itemBits, if_pos hshort]
      exact iff_of_true (decodeBits_take_of_short hshort n out) (Nat.zero_le _)
  | case6 fuel bits out hlong ih =>
      rw [itemBits, if_neg hlong]
      have hgrows : out.length < (copyBack (natOf (bits.take 8) + 1)
          (natOf ((bits.drop 8).take 4) + 1) out).length := by
        rw [Hsd.length_copyBack]
        omega
      cases n with
      | zero => exact iff_of_false (hlonger hgrows) (by omega)
      | succ n =>
          rw [List.take_succ_cons, decodeBits, List.length_take]
          by_cases hcut : min n bits.length < 12
          · rw [if_pos hcut]
            exact iff_of_false (hlonger hgrows) (by omega)
          · rw [if_neg hcut, List.drop_take, List.drop_take, List.take_take,
              List.take_take, Nat.min_eq_left (show 8 ≤ n by omega),
              Nat.min_eq_left (show 4 ≤ n - 8 by omega)]
            refine (ih (n - 12)).trans ?_
            omega

theorem flatMap_bitsOf_take (n : ℕ) (xs : List UInt8) :
    (xs.take n).flatMap bitsOf = (xs.flatMap bitsOf).take (8 * n) := by
  induction xs generalizing n with
  | nil => simp
  | cons x xs ih =>
      cases n with
      | zero => rfl
      | succ n =>
          have hbyte : (bitsOf x).length = 8 := rfl
          have hn : 8 * (n + 1) = (bitsOf x).length + 8 * n := by omega
          rw [List.take_succ_cons, List.flatMap_cons, List.flatMap_cons, ih, hn,
            List.take_length_add_append]

theorem decode_take_iff (n : ℕ) (xs : List UInt8) :
    decode (xs.take n) = decode xs ↔ itemsEnd xs ≤ 8 * n := by
  have hlen : ((xs.flatMap bitsOf).take (8 * n)).length ≤ (xs.flatMap bitsOf).length :=
    List.length_take_le' _ _
  rw [decode, decode, flatMap_bitsOf_take, decodeBits_of_le le_rfl hlen]
  exact decodeBits_take_iff _ _ _ _

end Heatshrink

theorem fileBytes_injective : Function.Injective fileBytes := by
  intro xs ys h
  rw [fileBytes, fileBytes] at h
  split at h
  · split at h
    · exact List.append_cancel_right h
    · exact absurd h (by simp)
  · next hxs =>
      split at h
      · exact absurd h (by simp)
      · next hys =>
          rw [List.length_eq_zero_iff.mp (Nat.eq_zero_of_not_pos hxs),
            List.length_eq_zero_iff.mp (Nat.eq_zero_of_not_pos hys)]

theorem askDecompress_hsd (decrypted : List UInt8) :
    askDecompress (hsd 256) decrypted = decode (decrypted.take 256) := by
  have hsink : ((hsd 256).sink (hsd 256).alloc decrypted).1 =
      some (min 256 decrypted.length) := rfl
  have htake : decrypted.take (min 256 decrypted.length) = decrypted.take 256 := by
    rw [← List.take_take, List.take_length]
  have hbits : ((decrypted.take 256).flatMap bitsOf).length ≤ 8 * 256 := by
    rw [flatMap_bitsOf_take]
    exact List.length_take_le _ _
  have hsize : (decode (decrypted.take 256)).length < askDecompressedSize := by
    have hle := length_decodeBits_le ((decrypted.take 256).flatMap bitsOf).length
      ((decrypted.take 256).flatMap bitsOf) []
    rw [List.length_nil] at hle
    rw [decode, askDecompressedSize]
    omega
  rw [← htake] at hsize ⊢
  exact askDecompress_eq (computes_hsd 256) hsink hsize

theorem decompress_hsd {decrypted : List UInt8}
    (hsize : (decode decrypted).length < decompressedSize) :
    decompress (hsd 512) decrypted = some (decode decrypted) :=
  decompress_eq (computes_hsd 512) (progresses_hsd (by decide)) hsize

/-- Nothing is lost exactly if the items of the payload end within 256 bytes. -/
theorem fileBytes_decode_eq_iff (decrypted : List UInt8) :
    fileBytes (decode decrypted) = fileBytes (decode (decrypted.take 256)) ↔
      itemsEnd decrypted ≤ 8 * 256 := by
  rw [fileBytes_injective.eq_iff, eq_comm, decode_take_iff]

/-- The receivers append the same bytes exactly if the items of the payload end
within the input buffer of `ask_receiver`, or nothing can be appended at all. -/
theorem dashFile_eq_askFile_iff {decrypted : List UInt8}
    (hsize : (decode decrypted).length < decompressedSize)
    (decoderAlloc fileOpen : Bool) :
    dashFile (hsd 512) decoderAlloc fileOpen decrypted =
        some (askFile (hsd 256) decoderAlloc fileOpen decrypted) ↔
      (decoderAlloc = true → fileOpen = true → itemsEnd decrypted ≤ 8 * 256) := by
  rw [dashFile, askFile, decompress_hsd hsize, askDecompress_hsd, Option.map_some]
  cases decoderAlloc with
  | false => exact iff_of_true rfl fun h => absurd h Bool.false_ne_true
  | true =>
      cases fileOpen with
      | false => exact iff_of_true rfl fun _ h => absurd h Bool.false_ne_true
      | true =>
          simp only [Bool.and_self, if_true, Option.some.injEq, forall_const]
          exact fileBytes_decode_eq_iff decrypted

/-! ## A payload of 258 bytes -/

/-- Literals of the byte 255. -/
def longPayload : List UInt8 :=
  List.replicate 258 255

theorem length_flatMap_longPayload : (longPayload.flatMap bitsOf).length = 2064 := by
  rw [HsdInput.length_flatMap_bitsOf, longPayload, List.length_replicate]

theorem length_decode_longPayload : (decode longPayload).length < decompressedSize := by
  have hle := length_decodeBits_le (longPayload.flatMap bitsOf).length
    (longPayload.flatMap bitsOf) []
  rw [length_flatMap_longPayload, List.length_nil] at hle
  rw [decode, decompressedSize, length_flatMap_longPayload]
  omega

theorem dashFile_eq_askFile_iff_longPayload :
    dashFile (hsd 512) true true longPayload =
        some (askFile (hsd 256) true true longPayload) ↔
      (true = true → true = true → itemsEnd longPayload ≤ 8 * 256) :=
  dashFile_eq_askFile_iff length_decode_longPayload true true

/-- `ask_receiver` loses the end of it. -/
theorem askFile_longPayload :
    longPayload.length ≤ 8164 ∧ (decode longPayload).length ≤ 32767 ∧
      dashFile (hsd 512) true true longPayload ≠
        some (askFile (hsd 256) true true longPayload) := by
  have hlen : longPayload.length = 258 := List.length_replicate
  refine ⟨by rw [hlen]; decide, Nat.le_of_lt_succ length_decode_longPayload, ?_⟩
  have hend : 2064 < itemsEnd longPayload + 13 := by
    rw [itemsEnd, ← length_flatMap_longPayload]
    exact length_lt_itemBits_add le_rfl
  rw [dashFile, askFile, decompress_hsd length_decode_longPayload, askDecompress_hsd,
    Option.map_some]
  simp only [Bool.and_self, if_true, ne_eq, Option.some.injEq]
  rw [fileBytes_decode_eq_iff]
  omega

end LifiAuth
