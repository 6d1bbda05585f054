import LifiAuth.Protocol.HeatshrinkStream
import LifiAuth.Support.LempelZiv

/-!
# Heatshrink as a Lempel–Ziv code

The bits of a text are those of its tokens: a one and the character, or a zero, the
distance and the length of a copy.  A copy takes 13 bits, so that it pays from two
characters on.
-/

namespace LifiAuth.Heatshrink

open Support

/-! ## Numbers -/

/-- The lowest `count` bits of a number, highest first. -/
def bitsFrom (count n : ℕ) : List Bool :=
  (List.range count).map fun i => n.testBit (count - 1 - i)

theorem bitsFrom_succ (count n : ℕ) :
    bitsFrom (count + 1) n = n.testBit count :: bitsFrom count n := by
  rw [bitsFrom, List.range_succ_eq_map, List.map_cons, List.map_map, bitsFrom]
  congr 1
  refine List.map_congr_left fun i _ => ?_
  rw [Function.comp_apply]
  congr 1
  omega

@[simp] theorem length_bitsFrom (count n : ℕ) : (bitsFrom count n).length = count := by
  simp [bitsFrom]

theorem bitsOf_eq_bitsFrom (b : UInt8) : bitsOf b = bitsFrom 8 b.toNat := rfl

theorem foldl_bitsFrom (count n m : ℕ) :
    (bitsFrom count n).foldl (fun n bit => 2 * n + bit.toNat) m =
      m * 2 ^ count + n % 2 ^ count := by
  induction count generalizing m with
  | zero => simp [bitsFrom, Nat.mod_one]
  | succ count ih =>
      have hbit : n % 2 ^ (count + 1) =
          (n.testBit count).toNat * 2 ^ count + n % 2 ^ count := by
        rw [Nat.mod_pow_succ, Nat.toNat_testBit, Nat.add_comm, Nat.mul_comm]
      rw [bitsFrom_succ, List.foldl_cons, ih, hbit, Nat.pow_succ', Nat.add_mul,
        Nat.add_assoc]
      congr 1
      rw [Nat.mul_comm 2 m, Nat.mul_assoc]

theorem natOf_bitsFrom {count n : ℕ} (h : n < 2 ^ count) : natOf (bitsFrom count n) = n := by
  rw [natOf, foldl_bitsFrom, Nat.zero_mul, Nat.zero_add, Nat.mod_eq_of_lt h]

/-! ## Tokens -/

theorem lookahead_pos : 0 < 16 :=
  Nat.two_pow_pos 4

/-- The code of an encoder for 8 and 4 bits: a copy of two characters pays. -/
def code : LempelZiv UInt8 where
  window := 256
  lookahead := 16
  shortest := 2
  zero := 0
  lookahead_pos := lookahead_pos
  shortest_pos := by decide

def tokenBits : Token UInt8 → List Bool
  | .literal b => true :: bitsOf b
  | .copy dist length => false :: bitsFrom 8 (dist - 1) ++ bitsFrom 4 (length - 1)

def textBits (xs : List UInt8) : List Bool :=
  (code.parse xs 0).flatMap tokenBits

/-- The code of a text. -/
def compressed (xs : List UInt8) : List UInt8 :=
  packBits (((textBits xs).length + 7) / 8) (textBits xs)

/-- A copy that the format can say. -/
def Fits : Token UInt8 → Prop
  | .literal _ => True
  | .copy dist length => 0 < dist ∧ dist ≤ 256 ∧ 0 < length ∧ length ≤ 16

theorem fits_nextToken (xs : List UInt8) (p : ℕ) : Fits (code.nextToken xs p) := by
  rcases code.nextToken_cases xs p with h | ⟨dist, length, h, hpos, hle, hlong, hlen, -⟩
  · rw [h]
    exact trivial
  · rw [h]
    have hlook := hlen.trans (Nat.min_le_left _ _)
    exact ⟨hpos, hle, Nat.lt_of_lt_of_le (by decide) hlong, hlook⟩

theorem fits_of_mem_parse (xs : List UInt8) : ∀ token ∈ code.parse xs 0, Fits token := by
  refine code.parse_induction (P := fun _ ts => ∀ token ∈ ts, Fits token) xs ?_ ?_
    (Nat.zero_le _)
  · exact List.forall_mem_nil _
  · intro p _ ih
    exact List.forall_mem_cons.mpr ⟨fits_nextToken xs p, ih⟩

/-! ## Decoding -/

theorem copyBack_eq (dist length : ℕ) (out : List UInt8) :
    copyBack dist length out = Token.copyBack 0 dist length out := by
  induction length generalizing out with
  | zero => rfl
  | succ length ih => exact ih _

theorem decodeAll_tokenBits {token : Token UInt8} (h : Fits token) (bits : List Bool)
    (out : List UInt8) :
    decodeAll (tokenBits token ++ bits) out = decodeAll bits (token.expand 0 out) := by
  cases token with
  | literal b =>
      have hbyte : (bitsOf b).length = 8 := rfl
      rw [tokenBits, List.cons_append, decodeAll_true,
        if_neg (by rw [List.length_append]; omega), List.drop_left' hbyte,
        List.take_left' hbyte, byteOf_bitsOf]
      rfl
  | copy dist length =>
      obtain ⟨hpos, hdist, hlong, hlen⟩ := h
      have hindex := length_bitsFrom 8 (dist - 1)
      have hcount := length_bitsFrom 4 (length - 1)
      rw [tokenBits, List.cons_append, List.cons_append, List.append_assoc,
        decodeAll_false, if_neg (by rw [List.length_append]; omega),
        List.drop_left' hindex, List.take_left' hindex, natOf_bitsFrom (by omega),
        decodeCount, if_neg (by rw [List.length_append]; omega),
        List.drop_left' hcount, List.take_left' hcount, natOf_bitsFrom (by omega),
        Nat.sub_add_cancel hpos, Nat.sub_add_cancel hlong, copyBack_eq]
      rfl

/-- Less than a byte of padding is no item. -/
theorem decodeAll_padding {k : ℕ} (hk : k < 8) (out : List UInt8) :
    decodeAll (List.replicate k false) out = out := by
  cases k with
  | zero => rfl
  | succ k =>
      rw [List.replicate_succ, decodeAll_false, if_pos]
      rw [List.length_replicate]
      omega

theorem decodeAll_tokens {k : ℕ} (hk : k < 8) (ts : List (Token UInt8))
    (h : ∀ token ∈ ts, Fits token) (out : List UInt8) :
    decodeAll (ts.flatMap tokenBits ++ List.replicate k false) out =
      ts.foldl (Token.expand 0) out := by
  induction ts generalizing out with
  | nil => exact decodeAll_padding hk out
  | cons token ts ih =>
      obtain ⟨htoken, hts⟩ := List.forall_mem_cons.mp h
      rw [List.flatMap_cons, List.append_assoc, decodeAll_tokenBits htoken, ih hts]
      rfl

/-- The decoder gives back every text. -/
theorem decode_compressed (xs : List UInt8) : decode (compressed xs) = xs := by
  have hpadded := flatMap_bitsOf_packBits (((textBits xs).length + 7) / 8) (textBits xs)
    (by omega)
  have hdecode : decode (compressed xs) =
      decodeAll ((compressed xs).flatMap bitsOf) [] := rfl
  rw [hdecode, compressed, hpadded, textBits,
    decodeAll_tokens (by omega) _ (fits_of_mem_parse xs)]
  exact code.foldl_expand_parse xs

/-! ## Size -/

/-- A token takes at most nine bits for each character. -/
theorem length_tokenBits_le (xs : List UInt8) (p : ℕ) :
    (tokenBits (code.nextToken xs p)).length ≤ 9 * (code.nextToken xs p).size := by
  rcases code.nextToken_cases xs p with h | ⟨dist, length, h, -, -, hlong, -, -⟩
  · rw [h]
    exact le_rfl
  · have hpays : 2 ≤ length := hlong
    rw [h]
    simp only [tokenBits, Token.size, List.length_append, List.length_cons, length_bitsFrom]
    omega

theorem length_textBits_le (xs : List UInt8) : (textBits xs).length ≤ 9 * xs.length := by
  have hfrom : ((code.parse xs 0).flatMap tokenBits).length ≤ 9 * (xs.length - 0) := by
    refine code.parse_induction
      (P := fun p ts => (ts.flatMap tokenBits).length ≤ 9 * (xs.length - p)) xs ?_ ?_
      (Nat.zero_le _)
    · exact Nat.zero_le _
    · intro p hp ih
      have hbits := length_tokenBits_le xs p
      have hle := code.size_nextToken_le hp
      rw [List.flatMap_cons, List.length_append]
      omega
  exact hfrom

/-- The code of a text is at most one bit for each character longer. -/
theorem length_compressed_le (xs : List UInt8) :
    (compressed xs).length ≤ (9 * xs.length + 7) / 8 := by
  have hbits := length_textBits_le xs
  rw [compressed, length_packBits]
  omega

end LifiAuth.Heatshrink
