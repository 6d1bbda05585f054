import LifiAuth.Protocol.HeatshrinkStream

/-!
# Where the output buffer overflows

The first item that does not fit the output buffer, and how far the decoder has read
when it waits for room: to the end of the head of that item, a literal's tag or a
whole reference.
-/

namespace LifiAuth.Heatshrink

open Support

variable (cap : ℕ)

/-! ## The format -/

/-- The bits behind the head of the first item that does not fit `cap` bytes, `n` of
which are used; `fuel` bounds the items. -/
def overflowBits : ℕ → List Bool → ℕ → Option (List Bool)
  | 0, _, _ => none
  | _ + 1, [], _ => none
  | fuel + 1, true :: bits, n =>
      if cap ≤ n then some bits
      else if bits.length < 8 then none
      else overflowBits fuel (bits.drop 8) (n + 1)
  | fuel + 1, false :: bits, n =>
      if bits.length < 12 then none
      else if cap < n + (natOf ((bits.drop 8).take 4) + 1) then some (bits.drop 12)
      else overflowBits fuel (bits.drop 12) (n + (natOf ((bits.drop 8).take 4) + 1))

/-- How many bytes of `input` are read when the first item does not fit `cap`
bytes. -/
def overflowAt (input : List UInt8) : Option ℕ :=
  (overflowBits cap (input.flatMap bitsOf).length (input.flatMap bitsOf) 0).map
    fun unread => (8 * input.length - unread.length + 7) / 8

/-! ## Item by item -/

def overflowAll (bits : List Bool) (n : ℕ) : Option (List Bool) :=
  overflowBits cap bits.length bits n

/-- The same from the length of a reference on. -/
def overflowCount (bits : List Bool) (n : ℕ) : Option (List Bool) :=
  if bits.length < 4 then none
  else if cap < n + (natOf (bits.take 4) + 1) then some (bits.drop 4)
  else overflowAll cap (bits.drop 4) (n + (natOf (bits.take 4) + 1))

variable {cap}

theorem overflowBits_of_le {fuel fuel' : ℕ} {bits : List Bool} {n : ℕ}
    (hfuel : bits.length ≤ fuel) (hfuel' : bits.length ≤ fuel') :
    overflowBits cap fuel bits n = overflowBits cap fuel' bits n := by
  induction fuel generalizing fuel' bits n with
  | zero =>
      obtain rfl := List.length_eq_zero_iff.mp (Nat.le_zero.mp hfuel)
      cases fuel' with
      | zero => rfl
      | succ fuel' => rfl
  | succ fuel ih =>
      cases bits with
      | nil =>
          cases fuel' with
          | zero => rfl
          | succ fuel' => rfl
      | cons bit bits =>
          obtain ⟨fuel', rfl⟩ := Nat.exists_eq_succ_of_ne_zero (Nat.ne_of_gt
            (Nat.lt_of_lt_of_le (Nat.succ_pos _) hfuel'))
          rw [List.length_cons] at hfuel hfuel'
          have ih (k n : ℕ) : overflowBits cap fuel (bits.drop k) n =
              overflowBits cap fuel' (bits.drop k) n :=
            ih (by rw [List.length_drop]; omega) (by rw [List.length_drop]; omega)
          cases bit with
          | true => rw [overflowBits, overflowBits, ih]
          | false => rw [overflowBits, overflowBits, ih]

theorem overflowAll_true (bits : List Bool) (n : ℕ) :
    overflowAll cap (true :: bits) n =
      if cap ≤ n then some bits
      else if bits.length < 8 then none
      else overflowAll cap (bits.drop 8) (n + 1) := by
  rw [overflowAll, List.length_cons, overflowBits, overflowAll,
    overflowBits_of_le (List.length_drop.trans_le (Nat.sub_le _ _)) le_rfl]

theorem overflowAll_false (bits : List Bool) (n : ℕ) :
    overflowAll cap (false :: bits) n =
      if bits.length < 8 then none else overflowCount cap (bits.drop 8) n := by
  rw [overflowAll, List.length_cons, overflowBits, overflowCount, overflowAll,
    List.length_drop, List.drop_drop,
    overflowBits_of_le (List.length_drop.trans_le (Nat.sub_le _ _)) le_rfl]
  by_cases hindex : bits.length < 8
  · rw [if_pos hindex, if_pos (by omega)]
  · rw [if_neg hindex]
    by_cases hcount : bits.length < 12
    · rw [if_pos hcount, if_pos (by omega)]
    · have hlong : ¬ bits.length - 8 < 4 := by omega
      rw [if_neg hcount, if_neg hlong]

theorem length_lt_of_overflowAll {bits unread : List Bool} {n : ℕ}
    (h : overflowAll cap bits n = some unread) : unread.length < bits.length := by
  induction hlen : bits.length using Nat.strong_induction_on generalizing bits n with
  | _ len ih =>
    have hrest {k m : ℕ} (hk : 0 < k) (hpos : 0 < bits.length)
        (h : overflowAll cap (bits.drop k) m = some unread) :
        unread.length < len := by
      have hlt := ih (bits.drop k).length (by rw [List.length_drop]; omega) h rfl
      rw [List.length_drop] at hlt
      omega
    cases bits with
    | nil => cases h
    | cons bit bits =>
        have hpos : 0 < (bit :: bits).length := Nat.succ_pos _
        rw [List.length_cons] at hlen
        cases bit with
        | true =>
            rw [overflowAll_true] at h
            split at h
            · obtain rfl := Option.some.inj h
              omega
            · split at h
              · cases h
              · exact hrest (k := 9) (Nat.succ_pos _) hpos h
        | false =>
            rw [overflowAll_false, overflowCount, List.drop_drop] at h
            split at h
            · cases h
            split at h
            · cases h
            split at h
            · obtain rfl := Option.some.inj h
              rw [List.length_drop]
              omega
            · exact hrest (k := 13) (Nat.succ_pos _) hpos h

/-- An overflow before the last bits is one without them. -/
theorem overflowAll_of_append {bits more unread : List Bool} {n : ℕ}
    (h : overflowAll cap (bits ++ more) n = some unread)
    (hmore : more.length ≤ unread.length) : overflowAll cap bits n ≠ none := by
  induction hlen : bits.length using Nat.strong_induction_on generalizing bits n with
  | _ len ih =>
    -- the overflow is not in the last bits
    have hrest {k m : ℕ}
        (h : overflowAll cap ((bits ++ more).drop k) m = some unread) :
        k < bits.length := by
      have hlt := length_lt_of_overflowAll h
      rw [List.length_drop, List.length_append] at hlt
      omega
    cases bits with
    | nil =>
        have hlt := length_lt_of_overflowAll h
        rw [List.nil_append] at hlt
        omega
    | cons bit bits =>
        rw [List.length_cons] at hlen
        cases bit with
        | true =>
            rw [List.cons_append, overflowAll_true] at h
            rw [overflowAll_true]
            split
            · exact Option.some_ne_none _
            · next hroom =>
                rw [if_neg hroom] at h
                split at h
                · cases h
                · have hlt : 9 < bits.length + 1 := hrest (k := 9) h
                  rw [List.drop_append_of_le_length (by omega)] at h
                  rw [if_neg (by omega)]
                  exact ih _ (by rw [List.length_drop]; omega) h rfl
        | false =>
            rw [List.cons_append, overflowAll_false, overflowCount,
              List.drop_drop] at h
            have hlong : 12 ≤ bits.length := by
              split at h
              · cases h
              split at h
              · cases h
              next hcount =>
                rw [List.length_drop, List.length_append] at hcount
                split at h
                · obtain rfl := Option.some.inj h
                  rw [List.length_drop, List.length_append] at hmore
                  omega
                · have hlt : 13 < bits.length + 1 := hrest (k := 13) h
                  omega
            have hindex : ¬ bits.length < 8 := by omega
            have hcount : ¬ (bits.drop 8).length < 4 := by
              rw [List.length_drop]
              omega
            rw [List.drop_append_of_le_length (by omega : 8 ≤ bits.length),
              List.take_append_of_le_length (Nat.le_of_not_lt hcount),
              List.drop_append_of_le_length hlong,
              if_neg (by rw [List.length_append]; omega),
              if_neg (by rw [List.length_append]; omega)] at h
            rw [overflowAll_false, overflowCount, List.drop_drop, if_neg hindex,
              if_neg hcount]
            split
            · exact Option.some_ne_none _
            · next hroom =>
                rw [if_neg hroom] at h
                exact ih _ (by rw [List.length_drop]; omega) h rfl

/-! ## The decoder -/

namespace Hsd

variable (cap)

/-- The overflow in the bits that are left, from the middle of an item on. -/
def overflow (d : Hsd) (n : ℕ) (bits : List Bool) : Option (List Bool) :=
  match d.state with
  | .tagBit => overflowAll cap bits n
  | .yieldLiteral => overflowAll cap (true :: bits) n
  | .backrefIndexLsb => overflowAll cap (false :: bits) n
  | .backrefCountLsb => overflowCount cap bits n
  | .yieldBackref =>
      if cap < n + d.outputCount then some bits
      else overflowAll cap bits (n + d.outputCount)

/-- The decoder fills a buffer of `cap` bytes: `xs` went in and `ys` came out. -/
structure Filling (d : Hsd) (xs ys : List UInt8) : Prop where
  wf : d.input.Wf
  decoding : d.Decoding xs ys
  length_le : ys.length ≤ cap
  overflow : ∀ more, overflowAll cap (xs.flatMap bitsOf ++ more) 0 =
    d.overflow cap ys.length (d.input.bits ++ more)

/-- The decoder has read everything, and all of it fitted. -/
def Drained (d : Hsd) (xs : List UInt8) : Prop :=
  d.input.inputBuffer = [] ∧ overflowAll cap (xs.flatMap bitsOf) 0 = none

/-- The decoder waits for room. -/
def Stuck (d : Hsd) (xs ys : List UInt8) : Prop :=
  ys.length = cap ∧ d.Yields ∧
    ∀ more, overflowAll cap (xs.flatMap bitsOf ++ more) 0 = some (d.input.bits ++ more)

variable {cap}

/-- A step leaves the overflow where it is. -/
theorem Steps.overflow_eq {d d' : Hsd} {n : ℕ} {emitted : List UInt8}
    (h : d.Steps (cap - n) d' emitted) (hn : n ≤ cap) (hshape : d.Shape)
    (more : List Bool) :
    d.overflow cap n (d.input.bits ++ more) =
      d'.overflow cap (n + emitted.length) (d'.input.bits ++ more) := by
  cases h with
  | starved _ => rfl
  | blocked _ _ => rfl
  | tagLiteral hstate hbits _ =>
      rw [Hsd.overflow, hstate, hbits]
      rfl
  | tagBackref hstate hbits _ =>
      rw [Hsd.overflow, hstate, hbits]
      rfl
  | @literal i c hstate hroom hbits _ hdrop _ =>
      rw [Hsd.overflow, hstate]
      simp only
      rw [overflowAll_true, if_neg (by omega),
        if_neg (by rw [List.length_append]; omega),
        List.drop_append_of_le_length hbits, ← hdrop]
      rfl
  | @index i hstate hbits hdrop _ =>
      rw [Hsd.overflow, hstate]
      simp only
      rw [overflowAll_false, if_neg (by rw [List.length_append]; omega),
        List.drop_append_of_le_length hbits, ← hdrop]
      rfl
  | @count i hstate hbits hdrop _ =>
      rw [Shape, hstate] at hshape
      obtain ⟨-, -, hzero⟩ := hshape
      rw [hzero, Nat.zero_or, Hsd.overflow, hstate]
      simp only
      rw [overflowCount, if_neg (by rw [List.length_append]; omega),
        List.drop_append_of_le_length hbits, List.take_append_of_le_length hbits,
        ← hdrop]
      rfl
  | copied hstate hroom hle =>
      obtain ⟨window, hd'⟩ := emitBackref_fst d.outputCount d []
      rw [Hsd.overflow, hstate, length_emitBackref, List.length_nil, Nat.zero_add, hd']
      simp only
      rw [if_neg (by omega)]
      rfl
  | copying hstate hroom hlt =>
      obtain ⟨window, hd'⟩ := emitBackref_fst (cap - n) d []
      rw [Hsd.overflow, hstate, length_emitBackref, List.length_nil, Nat.zero_add, hd',
        Hsd.overflow]
      simp only [hstate]
      rw [if_pos (by omega), if_pos (by omega)]

theorem Filling.steps {d d' : Hsd} {xs ys emitted : List UInt8}
    (h : d.Filling cap xs ys) (hsteps : d.Steps (cap - ys.length) d' emitted) :
    d'.Filling cap xs (ys ++ emitted) where
  wf := (hsteps.reads h.wf).wf
  decoding := h.decoding.steps hsteps
  length_le := by
    have hle := hsteps.length_le
    have hlen := h.length_le
    rw [List.length_append]
    omega
  overflow := by
    intro more
    rw [h.overflow, hsteps.overflow_eq h.length_le h.decoding.shape, List.length_append]

theorem Filling.append {d : Hsd} {xs ys : List UInt8} (h : d.Filling cap xs ys)
    (data : List UInt8) :
    ({ d with input := { d.input with
      inputBuffer := d.input.inputBuffer ++ data } } : Hsd).Filling cap
      (xs ++ data) ys where
  wf := wf_append h.wf data
  decoding := h.decoding.append h.wf data
  length_le := h.length_le
  overflow := by
    intro more
    rw [bits_append h.wf, List.flatMap_append, List.append_assoc, List.append_assoc]
    exact h.overflow _

/-- With the buffer full, a decoder that is about to write is at the overflow. -/
theorem Filling.stuck {d : Hsd} {xs ys : List UInt8} (h : d.Filling cap xs ys)
    (hfull : ys.length = cap) (hyields : d.Yields) : d.Stuck cap xs ys := by
  refine ⟨hfull, hyields, ?_⟩
  intro more
  have hshape := h.decoding.shape
  rw [h.overflow, Hsd.overflow]
  rcases hyields with hstate | hstate
  · rw [hstate]
    simp only
    rw [overflowAll_true, if_pos hfull.ge]
  · rw [Shape, hstate] at hshape
    rw [hstate]
    simp only
    rw [if_pos (by omega)]

/-- Short of bits and without being about to write, all fitted. -/
theorem Filling.drained {d : Hsd} {xs ys : List UInt8} (h : d.Filling cap xs ys)
    (hstarved : d.Starved) (hroom : d.Yields → ys.length < cap) : d.Drained cap xs := by
  refine ⟨hstarved.inputBuffer_eq h.wf, ?_⟩
  have hoverflow := h.overflow []
  rw [List.append_nil, List.append_nil] at hoverflow
  rw [hoverflow, Hsd.overflow]
  rw [Starved] at hstarved
  cases hstate : d.state with
  | tagBit =>
      rw [hstate] at hstarved
      rw [List.length_eq_zero_iff.mp (Nat.lt_one_iff.mp hstarved)]
      rfl
  | yieldLiteral =>
      rw [hstate] at hstarved
      have hlt := hroom (Or.inl hstate)
      exact (overflowAll_true _ _).trans
        ((if_neg (by omega)).trans (if_pos hstarved))
  | backrefIndexLsb =>
      rw [hstate] at hstarved
      exact (overflowAll_false _ _).trans (if_pos hstarved)
  | backrefCountLsb =>
      rw [hstate] at hstarved
      exact if_pos hstarved
  | yieldBackref =>
      rw [hstate] at hstarved
      exact absurd hstarved (Nat.not_lt_zero _)

/-- One poll into what is left of the buffer. -/
theorem Filling.poll {d : Hsd} {xs ys : List UInt8} (h : d.Filling cap xs ys) :
    let r := d.poll (cap - ys.length)
    r.2.2.Filling cap xs (ys ++ r.2.1) ∧
      (r.2.2.input.inputBuffer = [] ∨
        r.2.2.input.inputBuffer = d.input.inputBuffer) ∧
      ¬ (r.1 = true ∧ (ys ++ r.2.1).length < cap) ∧
      (r.2.2.Drained cap xs ∨ r.2.2.Stuck cap xs (ys ++ r.2.1)) := by
  have hlen := h.length_le
  have hstep (d₁ d₂ : Hsd) (out emitted : List UInt8) (hwf : d₁.input.Wf)
      (hP : d₁.Filling cap xs (ys ++ out) ∧ (d₁.input.inputBuffer = [] ∨
        d₁.input.inputBuffer = d.input.inputBuffer))
      (hsteps : d₁.Steps (cap - ys.length - out.length) d₂ emitted) :
      d₂.Filling cap xs (ys ++ (out ++ emitted)) ∧ (d₂.input.inputBuffer = [] ∨
        d₂.input.inputBuffer = d.input.inputBuffer) := by
    have hroom : cap - ys.length - out.length = cap - (ys ++ out).length := by
      rw [List.length_append, Nat.sub_sub]
    rw [hroom] at hsteps
    rw [← List.append_assoc]
    refine ⟨hP.1.steps hsteps, ?_⟩
    rcases (hsteps.reads hwf).buffer with hnil | hsame
    · exact Or.inl hnil
    · rw [hsame]
      exact hP.2
  have hstart : d.Filling cap xs (ys ++ []) := by
    rw [List.append_nil]
    exact h
  obtain ⟨-, ⟨hfilling, hbuffer⟩, hend⟩ := poll_rule hstep h.wf ⟨hstart, Or.inr rfl⟩
  refine ⟨hfilling, hbuffer, ?_, ?_⟩
  · rintro ⟨hmore, hlt⟩
    rw [List.length_append] at hlt
    rcases hend with ⟨hempty, -⟩ | ⟨-, hfull, -⟩
    · exact absurd (hempty.symm.trans hmore) Bool.false_ne_true
    · omega
  · have hfull_of (hfull : (d.poll (cap - ys.length)).2.1.length = cap - ys.length) :
        (ys ++ (d.poll (cap - ys.length)).2.1).length = cap := by
      rw [List.length_append, hfull]
      omega
    rcases hend with ⟨-, hlt, hstarved⟩ | ⟨-, hfull, hstarved | hyields⟩
    · refine Or.inl (hfilling.drained hstarved fun _ => ?_)
      rw [List.length_append]
      omega
    · by_cases hyields : (d.poll (cap - ys.length)).2.2.Yields
      · exact Or.inr (hfilling.stuck (hfull_of hfull) hyields)
      · exact Or.inl (hfilling.drained hstarved fun h => absurd h hyields)
    · exact Or.inr (hfilling.stuck (hfull_of hfull) hyields)

end Hsd

end LifiAuth.Heatshrink
