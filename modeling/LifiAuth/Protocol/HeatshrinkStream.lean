import LifiAuth.Protocol.HeatshrinkDecoder

/-!
# The decoder decodes

Fed with any pieces and drained into any buffers, the decoder writes what the format
says.  In each state what is still to come is a function of the bits that are left
and of what was written, and no round changes what it says.
-/

namespace LifiAuth.Heatshrink

open Support

/-! ## Decoding item by item -/

/-- Decoding `bits` behind the output `out`. -/
def decodeAll (bits : List Bool) (out : List UInt8) : List UInt8 :=
  decodeBits bits.length bits out

/-- Decoding a reference whose distance was read: `bits` starts with its length. -/
def decodeCount (index : ℕ) (bits : List Bool) (out : List UInt8) : List UInt8 :=
  if bits.length < 4 then out
  else decodeAll (bits.drop 4) (copyBack index (natOf (bits.take 4) + 1) out)

theorem decodeBits_of_le {fuel fuel' : ℕ} {bits : List Bool} {out : List UInt8}
    (hfuel : bits.length ≤ fuel) (hfuel' : bits.length ≤ fuel') :
    decodeBits fuel bits out = decodeBits fuel' bits out := by
  fun_induction decodeBits fuel bits out generalizing fuel' with
  | case1 bits out =>
      obtain rfl := List.length_eq_zero_iff.mp (Nat.le_zero.mp hfuel)
      cases fuel' with
      | zero => rfl
      | succ fuel' => rfl
  | case2 fuel out =>
      cases fuel' with
      | zero => rfl
      | succ fuel' => rfl
  | case3 fuel bits out hshort =>
      obtain ⟨fuel', rfl⟩ := Nat.exists_eq_succ_of_ne_zero (Nat.ne_of_gt
        (Nat.lt_of_lt_of_le (Nat.succ_pos _) hfuel'))
      rw [decodeBits, if_pos hshort]
  | case4 fuel bits out hlong ih =>
      obtain ⟨fuel', rfl⟩ := Nat.exists_eq_succ_of_ne_zero (Nat.ne_of_gt
        (Nat.lt_of_lt_of_le (Nat.succ_pos _) hfuel'))
      rw [List.length_cons] at hfuel hfuel'
      rw [decodeBits, if_neg hlong]
      exact ih (by rw [List.length_drop]; omega) (by rw [List.length_drop]; omega)
  | case5 fuel bits out hshort =>
      obtain ⟨fuel', rfl⟩ := Nat.exists_eq_succ_of_ne_zero (Nat.ne_of_gt
        (Nat.lt_of_lt_of_le (Nat.succ_pos _) hfuel'))
      rw [decodeBits, if_pos hshort]
  | case6 fuel bits out hlong ih =>
      obtain ⟨fuel', rfl⟩ := Nat.exists_eq_succ_of_ne_zero (Nat.ne_of_gt
        (Nat.lt_of_lt_of_le (Nat.succ_pos _) hfuel'))
      rw [List.length_cons] at hfuel hfuel'
      rw [decodeBits, if_neg hlong]
      exact ih (by rw [List.length_drop]; omega) (by rw [List.length_drop]; omega)

theorem decodeAll_true (bits : List Bool) (out : List UInt8) :
    decodeAll (true :: bits) out =
      if bits.length < 8 then out
      else decodeAll (bits.drop 8) (out ++ [byteOf (bits.take 8)]) := by
  rw [decodeAll, List.length_cons, decodeBits]
  split
  · rfl
  · exact decodeBits_of_le (by rw [List.length_drop]; omega) le_rfl

theorem decodeAll_false (bits : List Bool) (out : List UInt8) :
    decodeAll (false :: bits) out =
      if bits.length < 8 then out
      else decodeCount (natOf (bits.take 8) + 1) (bits.drop 8) out := by
  rw [decodeAll, List.length_cons, decodeBits, decodeCount, List.length_drop,
    List.drop_drop]
  by_cases hindex : bits.length < 8
  · rw [if_pos hindex, if_pos (by omega)]
  · rw [if_neg hindex]
    by_cases hcount : bits.length < 12
    · rw [if_pos hcount, if_pos (by omega)]
    · rw [if_neg hcount, if_neg (by omega)]
      exact decodeBits_of_le (by rw [List.length_drop]; omega) le_rfl

theorem prefix_decodeAll (bits : List Bool) (out : List UInt8) :
    out <+: decodeAll bits out :=
  prefix_decodeBits _ bits out

theorem prefix_decodeCount (index : ℕ) (bits : List Bool) (out : List UInt8) :
    out <+: decodeCount index bits out := by
  rw [decodeCount]
  split
  · exact List.prefix_rfl
  · exact (prefix_copyBack _ _ _).trans (prefix_decodeAll _ _)

theorem copyBack_add (index m n : ℕ) (out : List UInt8) :
    copyBack index (m + n) out = copyBack index n (copyBack index m out) := by
  induction m generalizing out with
  | zero => rw [Nat.zero_add]; rfl
  | succ m ih =>
      rw [Nat.succ_add, copyBack, ih]
      rfl

theorem foldl_bits_lt (bits : List Bool) (n : ℕ) :
    bits.foldl (fun n bit => 2 * n + bit.toNat) n < (n + 1) * 2 ^ bits.length := by
  induction bits generalizing n with
  | nil => simp
  | cons bit bits ih =>
      have hbit := Bool.toNat_lt bit
      have hstep : (2 * n + bit.toNat + 1) * 2 ^ bits.length ≤
          (2 * (n + 1)) * 2 ^ bits.length :=
        Nat.mul_le_mul_right _ (by omega)
      rw [List.foldl_cons, List.length_cons, Nat.pow_succ']
      calc
        _ < (2 * n + bit.toNat + 1) * 2 ^ bits.length := ih _
        _ ≤ (2 * (n + 1)) * 2 ^ bits.length := hstep
        _ = (n + 1) * (2 * 2 ^ bits.length) := by
          rw [Nat.mul_comm 2 (n + 1), Nat.mul_assoc]

theorem natOf_lt (bits : List Bool) : natOf bits < 2 ^ bits.length := by
  have h := foldl_bits_lt bits 0
  rw [Nat.zero_add, Nat.one_mul] at h
  exact h

namespace Hsd

/-! ## The window -/

/-- The window ends with the output `ys`; before the output there are zeros. -/
def Holds (d : Hsd) (ys : List UInt8) : Prop :=
  ∀ k, 1 ≤ k → k ≤ 256 → d.window ((d.headIndex + 256 - k) % 256) =
    if k ≤ ys.length then ys.getD (ys.length - k) 0 else 0

theorem Holds.pushWindow {d : Hsd} {ys : List UInt8} (h : d.Holds ys) (c : UInt8) :
    (d.pushWindow c).Holds (ys ++ [c]) := by
  intro k hk hk'
  simp only [Hsd.pushWindow, List.length_append, List.length_singleton]
  by_cases hone : k = 1
  · have hlast : (d.headIndex + 1 + 256 - 1) % 256 = d.headIndex % 256 := by omega
    rw [hone, hlast, Function.update_self, if_pos (by omega), Nat.add_sub_cancel,
      List.getD_eq_getElem?_getD, List.getElem?_concat_length, Option.getD_some]
  · have hother : (d.headIndex + 1 + 256 - k) % 256 =
        (d.headIndex + 256 - (k - 1)) % 256 := by
      congr 1
      omega
    have hne : (d.headIndex + 256 - (k - 1)) % 256 ≠ d.headIndex % 256 := by omega
    rw [hother, Function.update_of_ne hne, h (k - 1) (by omega) (by omega)]
    by_cases hle : k ≤ ys.length + 1
    · have hindex : ys.length + 1 - k = ys.length - (k - 1) := by omega
      rw [if_pos (by omega), if_pos hle, hindex, List.getD_eq_getElem?_getD,
        List.getD_eq_getElem?_getD, List.getElem?_append_left (by omega)]
    · rw [if_neg (by omega), if_neg hle]

/-- Copying from the window is copying from the output. -/
theorem emitBackref_copyBack {d : Hsd} {ys : List UInt8} (hwindow : d.Holds ys)
    (hindex : 1 ≤ d.outputIndex) (hindex' : d.outputIndex ≤ 256) (count : ℕ)
    (out : List UInt8) :
    ∃ emitted, (emitBackref count d out).2 = out ++ emitted ∧
      ys ++ emitted = copyBack d.outputIndex count ys ∧
      (emitBackref count d out).1.Holds (ys ++ emitted) := by
  induction count generalizing d ys out with
  | zero =>
      refine ⟨[], (List.append_nil _).symm, List.append_nil _, ?_⟩
      rw [List.append_nil]
      exact hwindow
  | succ count ih =>
      rw [emitBackref, copyBack, ← hwindow d.outputIndex hindex hindex']
      generalize d.window ((d.headIndex + 256 - d.outputIndex) % 256) = c
      obtain ⟨emitted, hout, hcopy, hholds⟩ :=
        ih (hwindow.pushWindow c) hindex hindex' (out ++ [c])
      have hsplit : ys ++ c :: emitted = ys ++ [c] ++ emitted := List.append_cons ..
      refine ⟨c :: emitted, ?_, ?_, ?_⟩
      · rw [hout, ← List.append_cons]
      · rw [hsplit]
        exact hcopy
      · rw [hsplit]
        exact hholds

/-! ## What is still to come -/

/-- What the bits that are left decode to, from the middle of an item on. -/
def rest (d : Hsd) (ys : List UInt8) (bits : List Bool) : List UInt8 :=
  match d.state with
  | .tagBit => decodeAll bits ys
  | .yieldLiteral => decodeAll (true :: bits) ys
  | .backrefIndexLsb => decodeAll (false :: bits) ys
  | .backrefCountLsb => decodeCount d.outputIndex bits ys
  | .yieldBackref => decodeAll bits (copyBack d.outputIndex d.outputCount ys)

/-- What is known of the fields in each state. -/
def Shape (d : Hsd) : Prop :=
  match d.state with
  | .tagBit | .yieldLiteral => True
  | .backrefIndexLsb => d.outputIndex = 0
  | .backrefCountLsb => 1 ≤ d.outputIndex ∧ d.outputIndex ≤ 256 ∧ d.outputCount = 0
  | .yieldBackref => 1 ≤ d.outputIndex ∧ d.outputIndex ≤ 256 ∧ 0 < d.outputCount

/-- The bytes `xs` went in and `ys` came out. -/
structure Decoding (d : Hsd) (xs ys : List UInt8) : Prop where
  window : d.Holds ys
  shape : d.Shape
  decoded : ∀ more, decodeAll (xs.flatMap bitsOf ++ more) [] =
    d.rest ys (d.input.bits ++ more)

theorem decoding_reset : reset.Decoding [] [] where
  window := by
    intro k hk _
    rw [List.length_nil, if_neg (by omega)]
    rfl
  shape := trivial
  decoded _ := rfl

/-- `count` bytes of a back-reference go out; the others are still to come. -/
theorem Decoding.copies {d : Hsd} {xs ys : List UInt8} (h : d.Decoding xs ys)
    (hstate : d.state = .yieldBackref) {count : ℕ} (hcount : count ≤ d.outputCount) :
    let r := emitBackref count d []
    (1 ≤ d.outputIndex ∧ d.outputIndex ≤ 256) ∧ r.1.Holds (ys ++ r.2) ∧
      ∀ more, decodeAll (xs.flatMap bitsOf ++ more) [] =
        decodeAll (r.1.input.bits ++ more)
          (copyBack d.outputIndex (d.outputCount - count) (ys ++ r.2)) := by
  intro r
  have hshape := h.shape
  rw [Shape, hstate] at hshape
  obtain ⟨hindex, hindex', -⟩ := hshape
  obtain ⟨emitted, hout, hcopy, hholds⟩ :=
    emitBackref_copyBack h.window hindex hindex' count []
  obtain ⟨window, hd'⟩ := emitBackref_fst count d []
  have hr : r.2 = emitted := hout
  have hinput : r.1.input = d.input := by
    simp only [r, hd']
  have hsum : count + (d.outputCount - count) = d.outputCount := by omega
  refine ⟨⟨hindex, hindex'⟩, ?_, ?_⟩
  · rw [hr]
    exact hholds
  · intro more
    rw [h.decoded, rest, hstate, hr, hinput, hcopy, ← copyBack_add, hsum]

theorem Decoding.steps {room : ℕ} {d d' : Hsd} {xs ys emitted : List UInt8}
    (h : d.Decoding xs ys) (hsteps : d.Steps room d' emitted) :
    d'.Decoding xs (ys ++ emitted) := by
  have hwindow := h.window
  have hshape := h.shape
  have hdecoded := h.decoded
  cases hsteps with
  | starved _ =>
      rw [List.append_nil]
      exact h
  | blocked _ _ =>
      rw [List.append_nil]
      exact h
  | tagLiteral hstate hbits _ =>
      rw [List.append_nil]
      refine ⟨hwindow, trivial, ?_⟩
      intro more
      rw [hdecoded, rest, hstate, hbits]
      rfl
  | tagBackref hstate hbits _ =>
      rw [List.append_nil]
      refine ⟨hwindow, rfl, ?_⟩
      intro more
      rw [hdecoded, rest, hstate, hbits]
      rfl
  | @literal i c hstate _ hlen hc hdrop _ =>
      refine ⟨hwindow.pushWindow c, trivial, ?_⟩
      intro more
      rw [hdecoded, rest, hstate]
      simp only
      rw [decodeAll_true, if_neg (by rw [List.length_append]; omega),
        List.drop_append_of_le_length hlen, List.take_append_of_le_length hlen, hc,
        ← hdrop]
      rfl
  | @index i hstate hlen hdrop _ =>
      have hzero : d.outputIndex = 0 := by
        rw [Shape, hstate] at hshape
        exact hshape
      have hlt := natOf_lt (d.input.bits.take 8)
      rw [List.length_take_of_le hlen] at hlt
      rw [List.append_nil, hzero, Nat.zero_or]
      refine ⟨hwindow, ⟨Nat.le_add_left 1 _, hlt, rfl⟩, ?_⟩
      intro more
      rw [hdecoded, rest, hstate]
      simp only
      rw [decodeAll_false, if_neg (by rw [List.length_append]; omega),
        List.drop_append_of_le_length hlen, List.take_append_of_le_length hlen,
        ← hdrop]
      rfl
  | @count i hstate hlen hdrop _ =>
      rw [Shape, hstate] at hshape
      obtain ⟨hindex, hindex', hzero⟩ := hshape
      rw [List.append_nil, hzero, Nat.zero_or]
      refine ⟨hwindow, ⟨hindex, hindex', Nat.succ_pos _⟩, ?_⟩
      intro more
      rw [hdecoded, rest, hstate]
      simp only
      rw [decodeCount, if_neg (by rw [List.length_append]; omega),
        List.drop_append_of_le_length hlen, List.take_append_of_le_length hlen,
        ← hdrop]
      rfl
  | copied hstate _ _ =>
      obtain ⟨-, hholds, hrest⟩ := h.copies hstate le_rfl
      refine ⟨hholds, trivial, ?_⟩
      intro more
      rw [hrest, Nat.sub_self]
      rfl
  | copying hstate _ hlt =>
      obtain ⟨hindex, hholds, hrest⟩ := h.copies hstate hlt.le
      obtain ⟨window, hd'⟩ := emitBackref_fst room d []
      refine ⟨hholds, ?_, ?_⟩
      · rw [Shape, hd']
        simp only [hstate]
        exact ⟨hindex.1, hindex.2, Nat.sub_pos_of_lt hlt⟩
      · intro more
        rw [hrest, rest, hd']
        simp only [hstate]

theorem prefix_rest (d : Hsd) (ys : List UInt8) (bits : List Bool) :
    ys <+: d.rest ys bits := by
  rw [rest]
  cases d.state with
  | backrefCountLsb => exact prefix_decodeCount _ _ _
  | yieldBackref => exact (prefix_copyBack _ _ _).trans (prefix_decodeAll _ _)
  | _ => exact prefix_decodeAll _ _

/-- A decoder that lacks bits has nothing to write. -/
theorem Starved.rest_eq {d : Hsd} (h : d.Starved) (ys : List UInt8) :
    d.rest ys d.input.bits = ys := by
  rw [Starved] at h
  rw [rest]
  cases hstate : d.state with
  | tagBit =>
      rw [hstate] at h
      rw [List.length_eq_zero_iff.mp (Nat.lt_one_iff.mp h)]
      rfl
  | yieldLiteral =>
      rw [hstate] at h
      exact (decodeAll_true _ _).trans (if_pos h)
  | backrefIndexLsb =>
      rw [hstate] at h
      exact (decodeAll_false _ _).trans (if_pos h)
  | backrefCountLsb =>
      rw [hstate] at h
      exact if_pos h
  | yieldBackref =>
      rw [hstate] at h
      exact absurd h (Nat.not_lt_zero _)

theorem Starved.inputBuffer_eq {d : Hsd} (h : d.Starved) (hwf : d.input.Wf) :
    d.input.inputBuffer = [] := by
  have hreads : d.state.reads ≤ 8 := by
    cases d.state <;> decide
  rw [HsdInput.inputBuffer_eq_nil_iff hwf]
  exact Nat.lt_of_lt_of_le h hreads

theorem Decoding.eq_rest {d : Hsd} {xs ys : List UInt8} (h : d.Decoding xs ys) :
    decode xs = d.rest ys d.input.bits := by
  have hdecoded := h.decoded []
  rw [List.append_nil, List.append_nil] at hdecoded
  exact hdecoded

theorem Decoding.eq_of_starved {d : Hsd} {xs ys : List UInt8} (h : d.Decoding xs ys)
    (hstarved : d.Starved) : ys = decode xs := by
  rw [h.eq_rest, hstarved.rest_eq]

/-- A poll of any size. -/
theorem Decoding.poll {d : Hsd} {xs ys : List UInt8} (h : d.Decoding xs ys)
    (hwf : d.input.Wf) (n : ℕ) :
    let r := d.poll n
    r.2.2.input.Wf ∧ r.2.2.Decoding xs (ys ++ r.2.1) ∧
      (r.1 = false ∧ r.2.1.length < n ∧ r.2.2.Starved ∨
        r.1 = true ∧ r.2.1.length = n ∧ (r.2.2.Starved ∨ r.2.2.Yields)) := by
  refine poll_rule (P := fun d out => d.Decoding xs (ys ++ out)) ?_ hwf ?_
  · intro d d' out emitted _ hdecoding hsteps
    rw [← List.append_assoc]
    exact hdecoding.steps hsteps
  · rw [List.append_nil]
    exact h

theorem length_copyBack (index count : ℕ) (out : List UInt8) :
    (copyBack index count out).length = out.length + count := by
  induction count generalizing out with
  | zero => rfl
  | succ count ih =>
      rw [copyBack, ih, List.length_append, List.length_singleton]
      omega

theorem length_lt_decodeCount {index : ℕ} {bits : List Bool} (hbits : 4 ≤ bits.length)
    (ys : List UInt8) : ys.length < (decodeCount index bits ys).length := by
  rw [decodeCount, if_neg (by omega)]
  refine Nat.lt_of_lt_of_le ?_ (prefix_decodeAll _ _).length_le
  rw [length_copyBack]
  omega

theorem length_lt_decodeAll_true {bits : List Bool} (hbits : 8 ≤ bits.length)
    (ys : List UInt8) : ys.length < (decodeAll (true :: bits) ys).length := by
  rw [decodeAll_true, if_neg (by omega)]
  refine Nat.lt_of_lt_of_le ?_ (prefix_decodeAll _ _).length_le
  rw [List.length_append]
  exact Nat.lt_succ_self _

theorem length_lt_decodeAll_false {bits : List Bool} (hbits : 12 ≤ bits.length)
    (ys : List UInt8) : ys.length < (decodeAll (false :: bits) ys).length := by
  rw [decodeAll_false, if_neg (by omega)]
  exact length_lt_decodeCount (by rw [List.length_drop]; omega) ys

/-- Two bytes complete an item, and a decoder that waits for room needs less. -/
theorem length_lt_rest {d : Hsd} (hshape : d.Shape) {bits : List Bool}
    (hbits : 16 ≤ bits.length ∨ d.Yields ∧ 8 ≤ bits.length) (ys : List UInt8) :
    ys.length < (d.rest ys bits).length := by
  have hlen : 8 ≤ bits.length := by
    rcases hbits with h | ⟨-, h⟩ <;> omega
  have hwhole (hstate : d.state ≠ .yieldLiteral) (hstate' : d.state ≠ .yieldBackref) :
      16 ≤ bits.length := by
    rcases hbits with h | ⟨hliteral | hbackref, -⟩
    · exact h
    · exact absurd hliteral hstate
    · exact absurd hbackref hstate'
  rw [Shape] at hshape
  rw [rest]
  cases hstate : d.state with
  | tagBit =>
      have h16 := hwhole (by rw [hstate]; decide) (by rw [hstate]; decide)
      obtain ⟨bit, bits, rfl⟩ := List.exists_cons_of_length_pos
        (Nat.lt_of_lt_of_le (Nat.succ_pos 15) h16)
      rw [List.length_cons] at h16
      cases bit with
      | true => exact length_lt_decodeAll_true (by omega) ys
      | false => exact length_lt_decodeAll_false (by omega) ys
  | yieldLiteral => exact length_lt_decodeAll_true hlen ys
  | backrefIndexLsb =>
      have h16 := hwhole (by rw [hstate]; decide) (by rw [hstate]; decide)
      exact length_lt_decodeAll_false (by omega) ys
  | backrefCountLsb => exact length_lt_decodeCount (by omega) ys
  | yieldBackref =>
      rw [hstate] at hshape
      refine Nat.lt_of_lt_of_le ?_ (prefix_decodeAll _ _).length_le
      rw [length_copyBack]
      exact Nat.lt_add_of_pos_right hshape.2.2

/-! ## Sinking -/

theorem wf_append {i : HsdInput} (hwf : i.Wf) (data : List UInt8) :
    ({ i with inputBuffer := i.inputBuffer ++ data } : HsdInput).Wf where
  bitIndex_lt := hwf.bitIndex_lt
  inputIndex_lt := by
    intro hne
    by_cases hnil : i.inputBuffer = []
    · simp only [hnil, List.nil_append] at hne ⊢
      rw [hwf.inputIndex_eq hnil]
      exact List.length_pos_iff.mpr hne
    · have hlt := hwf.inputIndex_lt hnil
      simp only [List.length_append]
      omega
  inputIndex_eq := by
    intro hnil
    exact hwf.inputIndex_eq (List.append_eq_nil_iff.mp hnil).1

theorem bits_append {i : HsdInput} (hwf : i.Wf) (data : List UInt8) :
    ({ i with inputBuffer := i.inputBuffer ++ data } : HsdInput).bits =
      i.bits ++ data.flatMap bitsOf := by
  have hle : i.inputIndex ≤ i.inputBuffer.length := by
    by_cases hnil : i.inputBuffer = []
    · rw [hwf.inputIndex_eq hnil]
      exact Nat.zero_le _
    · exact (hwf.inputIndex_lt hnil).le
  simp only [HsdInput.bits]
  rw [List.drop_append_of_le_length hle, List.flatMap_append, List.append_assoc]

theorem Decoding.append {d : Hsd} {xs ys : List UInt8} (h : d.Decoding xs ys)
    (hwf : d.input.Wf) (data : List UInt8) :
    ({ d with input := { d.input with
      inputBuffer := d.input.inputBuffer ++ data } } : Hsd).Decoding (xs ++ data) ys where
  window := h.window
  shape := h.shape
  decoded := by
    intro more
    rw [bits_append hwf, List.flatMap_append, List.append_assoc, List.append_assoc]
    exact h.decoded _

end Hsd

/-! ## What the decoder computes -/

/-- The relation between a decoder and its input and output. -/
structure HsdRep (d : Hsd) (xs ys : List UInt8) : Prop where
  wf : d.input.Wf
  decoding : d.Decoding xs ys
  /-- With an empty buffer nothing can be read. -/
  idle : d.input.inputBuffer = [] → d.Starved ∨ d.Yields
  /-- Only for want of room is a buffer left half read. -/
  busy : d.input.inputIndex ≠ 0 → d.Yields

theorem Hsd.finish_snd (d : Hsd) : d.finish.2 = d := by
  rw [Hsd.finish]
  cases d.state <;> rfl

/-- `finish` is done only where an item is cut off. -/
theorem Hsd.starved_of_finish {d : Hsd} {xs ys : List UInt8} (h : HsdRep d xs ys)
    (hdone : d.finish.1 = false) : d.Starved := by
  rw [Hsd.finish] at hdone
  have hnil : d.state ≠ .yieldBackref ∧ d.input.inputBuffer = [] := by
    cases hstate : d.state with
    | yieldBackref =>
        rw [hstate] at hdone
        exact absurd hdone.symm Bool.false_ne_true
    | _ =>
        rw [hstate] at hdone
        exact ⟨HsdState.noConfusion, by simpa using hdone⟩
  rcases h.idle hnil.2 with hstarved | hliteral | hbackref
  · exact hstarved
  · rw [Hsd.Starved, hliteral]
    exact (HsdInput.inputBuffer_eq_nil_iff h.wf).mp hnil.2
  · exact absurd hbackref hnil.1

theorem HsdRep.reset : HsdRep .reset [] [] where
  wf := ⟨Nat.zero_lt_succ 7, fun h => absurd rfl h, fun _ => rfl⟩
  decoding := Hsd.decoding_reset
  idle _ := Or.inl Nat.zero_lt_one
  busy h := absurd rfl h

theorem HsdRep.sink {d : Hsd} {xs ys : List UInt8} (h : HsdRep d xs ys)
    (data : List UInt8) :
    HsdRep { d with input := { d.input with
      inputBuffer := d.input.inputBuffer ++ data } } (xs ++ data) ys where
  wf := Hsd.wf_append h.wf data
  decoding := h.decoding.append h.wf data
  idle := by
    intro hnil
    obtain ⟨hold, rfl⟩ := List.append_eq_nil_iff.mp hnil
    have hidle := h.idle hold
    simp only [List.append_nil]
    exact hidle
  busy := h.busy

theorem HsdRep.poll {d : Hsd} {xs ys : List UInt8} (h : HsdRep d xs ys) (n : ℕ) :
    HsdRep (d.poll n).2.2 xs (ys ++ (d.poll n).2.1) := by
  obtain ⟨hwf, hdecoding, hend⟩ := h.decoding.poll h.wf n
  have hstops : (d.poll n).2.2.Starved ∨ (d.poll n).2.2.Yields := by
    rcases hend with ⟨-, -, hstarved⟩ | ⟨-, -, hstops⟩
    · exact Or.inl hstarved
    · exact hstops
  refine ⟨hwf, hdecoding, fun _ => hstops, ?_⟩
  intro hindex
  rcases hstops with hstarved | hyields
  · exact absurd (hwf.inputIndex_eq (hstarved.inputBuffer_eq hwf)) hindex
  · exact hyields

theorem computes_hsd (inputBufferSize : ℕ) :
    (hsd inputBufferSize).Computes (fun _ => decode) fun d _ xs ys => HsdRep d xs ys where
  nil := rfl
  mono := decode_mono
  alloc := HsdRep.reset
  written := by
    intro d _ xs ys h
    rw [h.decoding.eq_rest]
    exact Hsd.prefix_rest d ys _
  sink := by
    rintro d xs ys data k h hk
    obtain rfl := Option.some.inj hk
    exact h.sink _
  poll := by
    intro d _ xs ys n h _
    exact h.poll n
  poll_le d n := Hsd.length_pollSteps_le (Nat.zero_le _)
  poll_full := by
    intro d _ xs ys n h _ hmore
    obtain ⟨-, -, ⟨hempty, -⟩ | ⟨-, hlen, -⟩⟩ := h.decoding.poll h.wf n
    · exact absurd (hempty.symm.trans hmore) Bool.false_ne_true
    · exact hlen
  poll_empty := by
    intro d _ xs ys n h _ hempty
    obtain ⟨-, hdecoding, ⟨-, -, hstarved⟩ | ⟨hmore, -⟩⟩ := h.decoding.poll h.wf n
    · exact hdecoding.eq_of_starved hstarved
    · exact absurd (hempty.symm.trans hmore) Bool.false_ne_true
  finish := by
    intro d xs ys h
    have hsame : ((hsd inputBufferSize).finish d).2 = d := Hsd.finish_snd d
    rw [hsame]
    exact h
  finish_done := by
    intro d xs ys h hdone
    exact h.decoding.eq_of_starved (Hsd.starved_of_finish h hdone)

/-- A buffer that is not full takes something. -/
theorem sink_of_room {inputBufferSize : ℕ} {d : Hsd} {data : List UInt8}
    (hroom : d.input.inputBuffer.length < inputBufferSize) (hdata : data ≠ []) :
    ∃ k, (d.sink inputBufferSize data).1 = some (k + 1) := by
  have hlen := List.length_pos_iff.mpr hdata
  obtain ⟨k, hk⟩ := Nat.exists_eq_succ_of_ne_zero (Nat.ne_of_gt
    (Nat.lt_min.mpr ⟨Nat.sub_pos_of_lt hroom, hlen⟩))
  exact ⟨k, congrArg some hk⟩

/-- A drained decoder has room in its buffer. -/
theorem progresses_hsd {inputBufferSize : ℕ} (hsize : 2 ≤ inputBufferSize) :
    (hsd inputBufferSize).Progresses (fun _ => decode)
      fun d _ xs ys => HsdRep d xs ys := by
  intro d xs data h hdata
  refine sink_of_room ?_ hdata
  by_contra hfull
  have hlen := HsdInput.length_bits h.wf
  have hne : d.input.inputBuffer ≠ [] := by
    intro hnil
    rw [hnil, List.length_nil] at hfull
    omega
  have hindex := h.wf.inputIndex_lt hne
  have hbits : 16 ≤ d.input.bits.length ∨ d.Yields ∧ 8 ≤ d.input.bits.length := by
    by_cases hzero : d.input.inputIndex = 0
    · left
      omega
    · exact Or.inr ⟨h.busy hzero, by omega⟩
  have hlt := Hsd.length_lt_rest h.decoding.shape hbits (decode xs)
  rw [← h.decoding.eq_rest] at hlt
  exact Nat.lt_irrefl _ hlt

end LifiAuth.Heatshrink
