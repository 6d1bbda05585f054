import Mathlib.Algebra.Ring.Parity
import Mathlib.Data.List.Basic
import Mathlib.Logic.Function.Iterate
import Mathlib.Tactic.Common

/-!
# Linear feedback shift registers

A register of `w` bits that is shifted towards its most significant bit; the bit that
falls out is added to the next bit of the input and feeds back the generator `g`, the
lower coefficients of a polynomial of degree `w` over GF(2).  The register is linear
in its input.  A generator with a constant term loses nothing when it shifts, so it
notices every burst that fits it; one with the factor `x + 1` keeps the parity of
its input.
-/

namespace LifiAuth.Support.ShiftRegister

/-! ## Bits -/

variable {w : ℕ}

/-- The bits of a word, most significant first. -/
def bits (v : BitVec w) : List Bool :=
  (List.range w).map v.getMsbD

/-- The sum of bits in GF(2). -/
def parity (bs : List Bool) : Bool :=
  bs.foldr xor false

/-- A non-zero error within at most `k` consecutive bits. -/
def IsBurst (k : ℕ) (errors : List Bool) : Prop :=
  ∃ i burst j, errors = List.replicate i false ++ burst ++ List.replicate j false ∧
    burst.length ≤ k ∧ true ∈ burst

@[simp] theorem length_bits (v : BitVec w) : (bits v).length = w := by
  rw [bits, List.length_map, List.length_range]

theorem bits_xor (v u : BitVec w) :
    bits (v ^^^ u) = List.zipWith xor (bits v) (bits u) := by
  rw [bits, bits, bits, List.zipWith_map, List.zipWith_self]
  exact List.map_congr_left fun i _ => BitVec.getMsbD_xor

theorem bits_ofBoolListBE (bs : List Bool) : bits (BitVec.ofBoolListBE bs) = bs := by
  apply List.ext_getElem (length_bits _)
  intro i hi hi'
  simp [bits, hi']

@[simp] theorem parity_nil : parity [] = false := rfl

@[simp] theorem parity_cons (b : Bool) (bs : List Bool) :
    parity (b :: bs) = (b ^^ parity bs) := rfl

theorem parity_append (bs cs : List Bool) :
    parity (bs ++ cs) = (parity bs ^^ parity cs) := by
  induction bs with
  | nil => rw [List.nil_append, parity_nil, Bool.false_xor]
  | cons b bs ih => rw [List.cons_append, parity_cons, parity_cons, ih, Bool.xor_assoc]

theorem parity_zipWith_xor {bs cs : List Bool} (hlen : bs.length = cs.length) :
    parity (List.zipWith xor bs cs) = (parity bs ^^ parity cs) := by
  induction bs generalizing cs with
  | nil =>
      obtain rfl := List.length_eq_zero_iff.mp hlen.symm
      rfl
  | cons b bs ih =>
      obtain ⟨c, cs, rfl⟩ := List.exists_cons_of_length_eq_add_one hlen.symm
      rw [List.zipWith_cons_cons, parity_cons, parity_cons, parity_cons,
        ih (Nat.succ.inj hlen), Bool.xor_assoc, Bool.xor_assoc, Bool.xor_left_comm c]

theorem parity_eq_true_iff (bs : List Bool) : parity bs = true ↔ Odd (bs.count true) := by
  induction bs with
  | nil => simp
  | cons b bs ih =>
      cases b with
      | false => rw [parity_cons, Bool.false_xor, ih, List.count_cons_of_ne (by decide)]
      | true =>
          rw [parity_cons, Bool.true_xor, List.count_cons_self, Nat.odd_add_one, ← ih]
          cases parity bs <;> simp

theorem parity_bits_shiftLeft (v : BitVec w) :
    parity (bits (v <<< 1)) = (parity (bits v) ^^ v.msb) := by
  cases w with
  | zero => rw [BitVec.eq_nil v]; rfl
  | succ w =>
      have hold : bits v =
          v.getMsbD 0 :: (List.range w).map fun i => v.getMsbD (i + 1) := by
        rw [bits, List.range_succ_eq_map, List.map_cons, List.map_map]
        rfl
      have hnew : bits (v <<< 1) =
          (List.range w).map (fun i => v.getMsbD (i + 1)) ++ [false] := by
        rw [bits, List.range_succ, List.map_append, List.map_singleton,
          BitVec.getMsbD_shiftLeft, BitVec.getMsbD_of_ge v (w + 1) le_rfl]
        exact congrArg (· ++ [false])
          (List.map_congr_left fun i _ => BitVec.getMsbD_shiftLeft v 1)
      rw [hold, hnew, parity_append, parity_cons, BitVec.msb_eq_getMsbD_zero]
      cases v.getMsbD 0 <;> simp

/-! ## The register -/

variable (g : BitVec w)

/-- One shift without input. -/
def shift (s : BitVec w) : BitVec w :=
  if s.msb then s <<< 1 ^^^ g else s <<< 1

/-- One shift that takes in a bit. -/
def feed (s : BitVec w) (b : Bool) : BitVec w :=
  if s.msb ^^ b then s <<< 1 ^^^ g else s <<< 1

def run (s : BitVec w) (bs : List Bool) : BitVec w :=
  bs.foldl (feed g) s

@[simp] theorem run_nil (s : BitVec w) : run g s [] = s := rfl

@[simp] theorem run_cons (s : BitVec w) (b : Bool) (bs : List Bool) :
    run g s (b :: bs) = run g (feed g s b) bs := rfl

theorem run_append (s : BitVec w) (bs cs : List Bool) :
    run g s (bs ++ cs) = run g (run g s bs) cs :=
  List.foldl_append

theorem feed_false (s : BitVec w) : feed g s false = shift g s := by
  rw [feed, shift, Bool.xor_false]

/-- The register is linear. -/
theorem feed_xor (s t : BitVec w) (b c : Bool) :
    feed g (s ^^^ t) (b ^^ c) = feed g s b ^^^ feed g t c := by
  have hcarry : ((s ^^^ t).msb ^^ (b ^^ c)) = ((s.msb ^^ b) ^^ (t.msb ^^ c)) := by
    rw [BitVec.msb_xor, Bool.xor_assoc, Bool.xor_assoc, Bool.xor_left_comm t.msb]
  rw [feed, feed, feed, hcarry, BitVec.shiftLeft_xor_distrib]
  have hcancel : s <<< 1 ^^^ g ^^^ (t <<< 1 ^^^ g) = s <<< 1 ^^^ t <<< 1 := by
    rw [BitVec.xor_assoc, BitVec.xor_comm g, BitVec.xor_assoc, BitVec.xor_self,
      BitVec.xor_zero]
  cases s.msb ^^ b <;> cases t.msb ^^ c <;> simp [hcancel]
  · ac_rfl
  · ac_rfl

theorem run_xor {s t : BitVec w} {bs cs : List Bool} (hlen : bs.length = cs.length) :
    run g (s ^^^ t) (List.zipWith xor bs cs) = run g s bs ^^^ run g t cs := by
  induction bs generalizing s t cs with
  | nil =>
      obtain rfl := List.length_eq_zero_iff.mp hlen.symm
      rfl
  | cons b bs ih =>
      obtain ⟨c, cs, rfl⟩ := List.exists_cons_of_length_eq_add_one hlen.symm
      rw [List.zipWith_cons_cons, run_cons, run_cons, run_cons, feed_xor,
        ih (Nat.succ.inj hlen)]

/-- A word added to the register is input that is still to come. -/
theorem shift_xor (s v : BitVec w) : shift g (s ^^^ v) = feed g s v.msb ^^^ v <<< 1 := by
  rw [shift, feed, BitVec.msb_xor, BitVec.shiftLeft_xor_distrib]
  split
  · ac_rfl
  · rfl

theorem iterate_shift_xor (s v : BitVec w) (k : ℕ) :
    (shift g)^[k] (s ^^^ v) = run g s ((List.range k).map v.getMsbD) ^^^ v <<< k := by
  induction k with
  | zero => rw [Function.iterate_zero_apply, BitVec.shiftLeft_zero]; rfl
  | succ k ih =>
      rw [Function.iterate_succ_apply', ih, shift_xor, List.range_succ, List.map_append,
        run_append, List.map_singleton, run_cons, run_nil, BitVec.msb_shiftLeft,
        ← BitVec.shiftLeft_add]

/-- Feeding in a whole word is adding it and shifting it out. -/
theorem run_bits (s v : BitVec w) : run g s (bits v) = (shift g)^[w] (s ^^^ v) := by
  rw [iterate_shift_xor, BitVec.shiftLeft_eq_zero le_rfl, BitVec.xor_zero, bits]

theorem shift_zero : shift g 0#w = 0#w := by
  rw [shift, BitVec.msb_zero, BitVec.zero_shiftLeft]
  rfl

theorem run_zero_replicate (n : ℕ) : run g 0#w (List.replicate n false) = 0#w := by
  induction n with
  | zero => rfl
  | succ n ih => rw [List.replicate_succ, run_cons, feed_false, shift_zero, ih]

/-! ## Generators with a constant term -/

section ConstantTerm

variable {g} (hg : g.getLsbD 0 = true)

include hg

theorem eq_zero_of_shift {s : BitVec w} (h : shift g s = 0#w) : s = 0#w := by
  rw [shift] at h
  split at h
  · -- the constant term is left in the last place
    have hlast : (s <<< 1 ^^^ g).getLsbD 0 = true := by
      rw [BitVec.getLsbD_xor, hg, BitVec.getLsbD_shiftLeft]
      simp
    rw [h, BitVec.getLsbD_zero] at hlast
    exact absurd hlast Bool.false_ne_true
  · next hmsb =>
      apply BitVec.eq_of_getMsbD_eq
      intro i _
      rw [BitVec.getMsbD_zero]
      cases i with
      | zero =>
          rw [← BitVec.msb_eq_getMsbD_zero]
          exact Bool.eq_false_iff.mpr hmsb
      | succ i => rw [← BitVec.getMsbD_shiftLeft, h, BitVec.getMsbD_zero]

theorem eq_zero_of_iterate_shift {s : BitVec w} {k : ℕ} (h : (shift g)^[k] s = 0#w) :
    s = 0#w := by
  induction k with
  | zero => exact h
  | succ k ih =>
      rw [Function.iterate_succ_apply'] at h
      exact ih (eq_zero_of_shift hg h)

/-- A word leaves nothing exactly if it is what the register holds. -/
theorem run_bits_eq_zero_iff (s v : BitVec w) : run g s (bits v) = 0#w ↔ s = v := by
  rw [run_bits]
  constructor
  · intro h
    exact BitVec.xor_eq_zero_iff.mp (eq_zero_of_iterate_shift hg h)
  · intro h
    rw [h, BitVec.xor_self]
    exact Function.iterate_fixed (shift_zero g) w

theorem eq_zero_of_run_replicate {s : BitVec w} {n : ℕ}
    (h : run g s (List.replicate n false) = 0#w) : s = 0#w := by
  induction n generalizing s with
  | zero => exact h
  | succ n ih =>
      rw [List.replicate_succ, run_cons, feed_false] at h
      exact eq_zero_of_shift hg (ih h)

/-- A burst that fits the register leaves something. -/
theorem run_ne_zero_of_length_le {burst : List Bool} (hlen : burst.length ≤ w)
    (hburst : true ∈ burst) : run g 0#w burst ≠ 0#w := by
  intro h
  -- fill the burst up to a whole word
  obtain ⟨word, hword, hmem⟩ : ∃ word : BitVec w,
      bits word = burst ++ List.replicate (w - burst.length) false ∧ true ∈ bits word := by
    obtain ⟨whole, hwhole⟩ :
        ∃ whole, whole = burst ++ List.replicate (w - burst.length) false := ⟨_, rfl⟩
    have hw : whole.length = w := by
      rw [hwhole, List.length_append, List.length_replicate]
      omega
    subst hw
    refine ⟨BitVec.ofBoolListBE whole, ?_, ?_⟩
    · rw [bits_ofBoolListBE, ← hwhole]
    · rw [bits_ofBoolListBE, hwhole]
      exact List.mem_append_left _ hburst
  have hzero : run g 0#w (bits word) = 0#w := by
    rw [hword, run_append, h, run_zero_replicate]
  obtain rfl := ((run_bits_eq_zero_iff hg _ _).mp hzero).symm
  obtain ⟨i, -, hi⟩ := List.mem_map.mp hmem
  rw [BitVec.getMsbD_zero] at hi
  exact Bool.false_ne_true hi

theorem run_ne_zero_of_isBurst {errors : List Bool} (h : IsBurst w errors) :
    run g 0#w errors ≠ 0#w := by
  obtain ⟨i, burst, j, rfl, hlen, hburst⟩ := h
  rw [run_append, run_append, run_zero_replicate]
  intro hzero
  exact run_ne_zero_of_length_le hg hlen hburst (eq_zero_of_run_replicate hg hzero)

end ConstantTerm

/-! ## Generators with the factor `x + 1` -/

section EvenWeight

variable {g} (hg : parity (bits g) = true)

include hg

theorem parity_feed (s : BitVec w) (b : Bool) :
    parity (bits (feed g s b)) = (parity (bits s) ^^ b) := by
  rw [feed]
  split
  · next hcarry =>
      rw [bits_xor, parity_zipWith_xor (by rw [length_bits, length_bits]),
        parity_bits_shiftLeft, hg]
      revert hcarry
      cases s.msb <;> cases b <;> cases parity (bits s) <;> simp
  · next hcarry =>
      rw [parity_bits_shiftLeft]
      revert hcarry
      cases s.msb <;> cases b <;> cases parity (bits s) <;> simp

theorem parity_run (s : BitVec w) (bs : List Bool) :
    parity (bits (run g s bs)) = (parity (bits s) ^^ parity bs) := by
  induction bs generalizing s with
  | nil => rw [run_nil, parity_nil, Bool.xor_false]
  | cons b bs ih => rw [run_cons, ih, parity_feed hg, parity_cons, Bool.xor_assoc]

theorem run_ne_zero_of_odd {errors : List Bool} (h : Odd (errors.count true)) :
    run g 0#w errors ≠ 0#w := by
  intro hzero
  have hparity := parity_run hg 0#w errors
  have hbits : parity (bits 0#w) = false := by
    have hself := parity_zipWith_xor (rfl : (bits 0#w).length = (bits 0#w).length)
    rw [← bits_xor, BitVec.xor_self, Bool.xor_self] at hself
    exact hself
  rw [hzero, hbits, Bool.false_xor, (parity_eq_true_iff errors).mpr h] at hparity
  exact Bool.false_ne_true hparity

end EvenWeight

end LifiAuth.Support.ShiftRegister
