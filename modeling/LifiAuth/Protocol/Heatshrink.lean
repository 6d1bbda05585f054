import LifiAuth.Dash.File
import LifiAuth.Sender.Compress

/-!
# The heatshrink format

The bit stream of heatshrink with window 8 and lookahead 4: a one and a literal
byte, or a zero, an 8-bit distance and a 4-bit length.  The decoder reads all of
it; the encoder writes literals only, as heatshrink does for a text in which no two
characters come together twice.
-/

namespace LifiAuth.Heatshrink

open Support

/-! ## Bits -/

/-- The bits of a byte, highest first. -/
def bitsOf (b : UInt8) : List Bool :=
  (List.range 8).map fun i => b.toNat.testBit (7 - i)

def natOf (bits : List Bool) : ℕ :=
  bits.foldl (fun n bit => 2 * n + bit.toNat) 0

def byteOf (bits : List Bool) : UInt8 :=
  UInt8.ofNat (natOf bits)

/-- `n` bytes, filled up with zeros. -/
def packBits : ℕ → List Bool → List UInt8
  | 0, _ => []
  | n + 1, bits =>
      byteOf ((bits ++ List.replicate 8 false).take 8) :: packBits n (bits.drop 8)

theorem byteOf_bitsOf (b : UInt8) : byteOf (bitsOf b) = b := by
  have hall : ∀ n : Fin 256, byteOf (bitsOf (UInt8.ofNat n)) = UInt8.ofNat n := by
    decide +kernel
  simpa using hall ⟨b.toNat, b.toNat_lt⟩

theorem bitsOf_byteOf {bits : List Bool} (h : bits.length = 8) :
    bitsOf (byteOf bits) = bits := by
  have hall : ∀ b₇ b₆ b₅ b₄ b₃ b₂ b₁ b₀ : Bool,
      bitsOf (byteOf [b₇, b₆, b₅, b₄, b₃, b₂, b₁, b₀]) =
        [b₇, b₆, b₅, b₄, b₃, b₂, b₁, b₀] := by
    decide +kernel
  match bits, h with
  | [b₇, b₆, b₅, b₄, b₃, b₂, b₁, b₀], _ => exact hall b₇ b₆ b₅ b₄ b₃ b₂ b₁ b₀

@[simp] theorem length_packBits (n : ℕ) (bits : List Bool) :
    (packBits n bits).length = n := by
  induction n generalizing bits with
  | zero => rfl
  | succ n ih => rw [packBits, List.length_cons, ih]

/-- Enough bytes give the bits back, with less than a byte of zeros after them. -/
theorem flatMap_bitsOf_packBits (n : ℕ) (bits : List Bool)
    (h : bits.length ≤ 8 * n) :
    (packBits n bits).flatMap bitsOf =
      bits ++ List.replicate (8 * n - bits.length) false := by
  induction n generalizing bits with
  | zero =>
      obtain rfl := List.length_eq_zero_iff.mp (Nat.le_zero.mp h)
      rfl
  | succ n ih =>
      have hlen : ((bits ++ List.replicate 8 false).take 8).length = 8 := by
        simp
      rw [packBits, List.flatMap_cons, bitsOf_byteOf hlen,
        ih _ (by rw [List.length_drop]; omega), List.length_drop]
      by_cases hlong : 8 ≤ bits.length
      · rw [List.take_append_of_le_length hlong, ← List.append_assoc,
          List.take_append_drop]
        congr 2
        omega
      · rw [List.drop_eq_nil_of_le (by omega), List.nil_append,
          List.take_append, List.take_of_length_le (by omega),
          List.take_replicate, List.append_assoc, List.replicate_append_replicate]
        congr 2
        omega

/-! ## Decoding -/

/-- `count` bytes from `index` bytes back; the window starts out with zeros. -/
def copyBack (index : ℕ) : ℕ → List UInt8 → List UInt8
  | 0, out => out
  | count + 1, out =>
      copyBack index count
        (out ++ [if index ≤ out.length then out.getD (out.length - index) 0 else 0])

/-- The states of the decoder that read a tag bit and what belongs to it; `fuel`
bounds the items. -/
def decodeBits : ℕ → List Bool → List UInt8 → List UInt8
  | 0, _, out => out
  | _ + 1, [], out => out
  | fuel + 1, true :: bits, out =>
      if bits.length < 8 then out
      else decodeBits fuel (bits.drop 8) (out ++ [byteOf (bits.take 8)])
  | fuel + 1, false :: bits, out =>
      if bits.length < 12 then out
      else
        decodeBits fuel (bits.drop 12)
          (copyBack (natOf (bits.take 8) + 1)
            (natOf ((bits.drop 8).take 4) + 1) out)

def decode (input : List UInt8) : List UInt8 :=
  decodeBits (input.flatMap bitsOf).length (input.flatMap bitsOf) []

theorem prefix_copyBack (index count : ℕ) (out : List UInt8) :
    out <+: copyBack index count out := by
  induction count generalizing out with
  | zero => exact List.prefix_rfl
  | succ count ih => exact (List.prefix_append _ _).trans (ih _)

theorem prefix_decodeBits (fuel : ℕ) (bits : List Bool) (out : List UInt8) :
    out <+: decodeBits fuel bits out := by
  fun_induction decodeBits fuel bits out with
  | case1 => exact List.prefix_rfl
  | case2 => exact List.prefix_rfl
  | case3 => exact List.prefix_rfl
  | case4 fuel bits out h ih => exact (List.prefix_append _ _).trans ih
  | case5 => exact List.prefix_rfl
  | case6 fuel bits out h ih => exact (prefix_copyBack _ _ _).trans ih

/-- More input only adds output. -/
theorem decodeBits_mono {fuel fuel' : ℕ} (hfuel : fuel ≤ fuel') (bits more : List Bool)
    (out : List UInt8) :
    decodeBits fuel bits out <+: decodeBits fuel' (bits ++ more) out := by
  fun_induction decodeBits fuel bits out generalizing fuel' with
  | case1 => exact prefix_decodeBits _ _ _
  | case2 => exact prefix_decodeBits _ _ _
  | case3 => exact prefix_decodeBits _ _ _
  | case4 fuel bits out h ih =>
      obtain ⟨fuel', rfl⟩ := Nat.exists_eq_succ_of_ne_zero (n := fuel') (by omega)
      have hlen : 8 ≤ bits.length := by omega
      have ih := @ih fuel' (by omega)
      rw [List.cons_append, decodeBits, if_neg (by rw [List.length_append]; omega),
        List.drop_append_of_le_length hlen, List.take_append_of_le_length hlen]
      exact ih
  | case5 => exact prefix_decodeBits _ _ _
  | case6 fuel bits out h ih =>
      obtain ⟨fuel', rfl⟩ := Nat.exists_eq_succ_of_ne_zero (n := fuel') (by omega)
      have hlen : 12 ≤ bits.length := by omega
      have ih := @ih fuel' (by omega)
      rw [List.cons_append, decodeBits, if_neg (by rw [List.length_append]; omega),
        List.drop_append_of_le_length hlen,
        List.take_append_of_le_length (show 8 ≤ bits.length by omega),
        List.drop_append_of_le_length (show 8 ≤ bits.length by omega),
        List.take_append_of_le_length (by rw [List.length_drop]; omega)]
      exact ih

theorem decode_mono (xs zs : List UInt8) : decode xs <+: decode (xs ++ zs) := by
  rw [decode, decode, List.flatMap_append]
  apply decodeBits_mono
  rw [List.length_append]
  exact Nat.le_add_right _ _

/-! ## Literals -/

def literalBits (xs : List UInt8) : List Bool :=
  xs.flatMap fun b => true :: bitsOf b

/-- Every byte as a literal. -/
def encode (xs : List UInt8) : List UInt8 :=
  packBits ((9 * xs.length + 7) / 8) (literalBits xs)

theorem length_encode (xs : List UInt8) :
    (encode xs).length = (9 * xs.length + 7) / 8 :=
  length_packBits _ _

theorem length_literalBits (xs : List UInt8) :
    (literalBits xs).length = 9 * xs.length := by
  simp [literalBits, bitsOf, Nat.mul_comm]

theorem decodeBits_literalBits {fuel : ℕ} (xs : List UInt8) (out : List UInt8)
    (k : ℕ) (hfuel : xs.length ≤ fuel) (hk : k < 8) :
    decodeBits fuel (literalBits xs ++ List.replicate k false) out = out ++ xs := by
  induction xs generalizing fuel out with
  | nil =>
      rw [List.append_nil]
      -- less than a byte of padding is no item
      cases fuel with
      | zero => rfl
      | succ fuel =>
          cases k with
          | zero => rfl
          | succ k =>
              refine if_pos ?_
              rw [List.length_replicate]
              omega
  | cons b xs ih =>
      obtain ⟨fuel, rfl⟩ := Nat.exists_eq_succ_of_ne_zero (n := fuel) (by
        rw [List.length_cons] at hfuel
        omega)
      have hbyte : (bitsOf b).length = 8 := rfl
      have hbits : literalBits (b :: xs) ++ List.replicate k false =
          true :: (bitsOf b ++ (literalBits xs ++ List.replicate k false)) := by
        simp [literalBits]
      rw [hbits, decodeBits, if_neg (by rw [List.length_append]; omega),
        List.drop_left' hbyte, List.take_left' hbyte, byteOf_bitsOf,
        ih _ (Nat.le_of_succ_le_succ hfuel), List.append_assoc]
      rfl

theorem decode_encode (xs : List UInt8) : decode (encode xs) = xs := by
  have hlen := length_literalBits xs
  rw [decode, encode, flatMap_bitsOf_packBits _ _ (by omega)]
  refine decodeBits_literalBits xs [] _ ?_ (by omega)
  rw [List.length_append, hlen]
  omega

/-! ## The two objects -/

/-- Everything comes out at the end. -/
def encoded : Bool → List UInt8 → List UInt8
  | false, _ => []
  | true, xs => encode xs

/-- An encoder that takes one window. -/
def encoder : HeatshrinkEncoder :=
  Streamer.buffered (fun xs => encoderWindow - xs.length) encoded

/-- A decoder with an input buffer of 512 bytes. -/
def decoder : HeatshrinkDecoder :=
  Streamer.buffered (fun _ => 512) fun _ => decode

theorem takesWindow_encoder : TakesWindow encoder :=
  fun _ => rfl

theorem computes_encoder :
    encoder.Computes encoded (Streamer.BufferedRep _ _) := by
  apply Streamer.computes_buffered
  · rfl
  · intro xs zs
    exact List.prefix_rfl
  · intro xs
    exact List.nil_prefix

theorem computes_decoder :
    decoder.Computes (fun _ => decode) (Streamer.BufferedRep _ _) := by
  apply Streamer.computes_buffered
  · rfl
  · exact decode_mono
  · intro xs
    exact List.prefix_rfl

theorem progresses_decoder :
    decoder.Progresses (fun _ => decode) (Streamer.BufferedRep _ _) :=
  Streamer.progresses_buffered fun _ => by decide

end LifiAuth.Heatshrink
