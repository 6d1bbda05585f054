import LifiAuth.Protocol.HeatshrinkOverflow

/-!
# When decompression ends

The receiver sinks a payload into the decoder until all of it is taken.  Once the
output buffer is full the decoder takes no more than its input buffer has room for,
and `HSDR_SINK_FULL` is no error that would end the loop.
-/

namespace LifiAuth

open Support Heatshrink

/-- The file branch with all its loops, if they end within `fuel` rounds. -/
def decompressWithin (hsd : HeatshrinkDecoder) (fuel : ℕ) (decrypted : List UInt8) :
    Option (List UInt8) :=
  match hsd.feedWithin decompressedSize fuel hsd.alloc decrypted [] with
  | none => none
  | some (decompressed, s) =>
      (hsd.drainWithin decompressedSize fuel (hsd.finish s).2 decompressed).map Prod.fst

/-- The loops end. -/
def DecompressionEnds (hsd : HeatshrinkDecoder) (decrypted : List UInt8) : Prop :=
  ∃ fuel, (decompressWithin hsd fuel decrypted).isSome

namespace Heatshrink

variable (inputBufferSize : ℕ) {cap : ℕ} {d : Hsd} {xs ys rest : List UInt8}

/-- The input fits: no item overflows the output buffer, or what follows it fits the
input buffer of the decoder. -/
def FitsBuffers (cap : ℕ) (input : List UInt8) : Prop :=
  ∀ p ∈ overflowAt cap input,
    input.length ≤ inputBufferSize * (p / inputBufferSize + 1)

/-! ## Draining -/

/-- Every drain loop ends with its first round. -/
theorem drainWithin_of_filling (h : d.Filling cap xs ys) (fuel : ℕ) :
    (hsd inputBufferSize).drainWithin cap (fuel + 1) d ys =
      some (ys ++ (d.poll (cap - ys.length)).2.1, (d.poll (cap - ys.length)).2.2) := by
  obtain ⟨-, -, hend, -⟩ := h.poll
  exact if_neg hend

/-- A decoder that waits for room does nothing when it is polled without room. -/
theorem poll_of_stuck (h : d.Stuck cap xs ys) :
    d.poll (cap - ys.length) = (true, [], d) := by
  obtain ⟨hfull, hyields, -⟩ := h
  have hstep : d.step 0 = (d, []) := by
    rcases hyields with hstate | hstate
    · rw [Hsd.step, hstate]
      rfl
    · rw [Hsd.step, hstate]
      rfl
  rw [hfull, Nat.sub_self, Hsd.poll, Hsd.pollSteps]
  simp only [List.length_nil, Nat.sub_self, hstep, if_true]
  rfl

/-! ## Feeding -/

/-- The feed loop ends. -/
def FeedEnds (cap : ℕ) (d : Hsd) (rest ys : List UInt8) : Prop :=
  ∃ fuel, ((hsd inputBufferSize).feedWithin cap fuel d rest ys).isSome

/-- How much of `rest` is taken. -/
def taken (d : Hsd) (rest : List UInt8) : ℕ :=
  min (inputBufferSize - d.input.inputBuffer.length) rest.length

/-- The decoder once it has taken that. -/
def fed (d : Hsd) (rest : List UInt8) : Hsd :=
  { d with input := { d.input with inputBuffer :=
    d.input.inputBuffer ++ rest.take (taken inputBufferSize d rest) } }

theorem filling_fed (h : d.Filling cap xs ys) (rest : List UInt8) :
    (fed inputBufferSize d rest).Filling cap
      (xs ++ rest.take (taken inputBufferSize d rest)) ys :=
  h.append _

theorem feedWithin_succ (h : d.Filling cap xs ys) (hrest : rest ≠ []) (fuel : ℕ) :
    (hsd inputBufferSize).feedWithin cap (fuel + 1) d rest ys =
      (hsd inputBufferSize).feedWithin cap fuel
        ((fed inputBufferSize d rest).poll (cap - ys.length)).2.2
        (rest.drop (taken inputBufferSize d rest))
        (ys ++ ((fed inputBufferSize d rest).poll (cap - ys.length)).2.1) := by
  obtain ⟨a, rest, rfl⟩ := List.exists_cons_of_ne_nil hrest
  have hdrain := drainWithin_of_filling inputBufferSize
    (filling_fed inputBufferSize h (a :: rest)) fuel
  have hsink : (hsd inputBufferSize).sink d (a :: rest) =
      (some (taken inputBufferSize d (a :: rest)), fed inputBufferSize d (a :: rest)) :=
    rfl
  have hloop := Streamer.feedWithin.eq_3 (hsd inputBufferSize) cap d ys fuel a rest
  simp only [hsink, hdrain] at hloop
  exact hloop

theorem feedEnds_nil (cap : ℕ) (d : Hsd) (ys : List UInt8) :
    FeedEnds inputBufferSize cap d [] ys :=
  ⟨0, rfl⟩

theorem feedEnds_iff (h : d.Filling cap xs ys) (hrest : rest ≠ []) :
    FeedEnds inputBufferSize cap d rest ys ↔
      FeedEnds inputBufferSize cap
        ((fed inputBufferSize d rest).poll (cap - ys.length)).2.2
        (rest.drop (taken inputBufferSize d rest))
        (ys ++ ((fed inputBufferSize d rest).poll (cap - ys.length)).2.1) := by
  constructor
  · rintro ⟨fuel, hfuel⟩
    cases fuel with
    | zero =>
        obtain ⟨a, rest, rfl⟩ := List.exists_cons_of_ne_nil hrest
        exact absurd hfuel Bool.false_ne_true
    | succ fuel =>
        rw [feedWithin_succ inputBufferSize h hrest] at hfuel
        exact ⟨fuel, hfuel⟩
  · rintro ⟨fuel, hfuel⟩
    rw [← feedWithin_succ inputBufferSize h hrest] at hfuel
    exact ⟨fuel + 1, hfuel⟩

/-! ## Waiting for room -/

theorem stuck_fed (h : d.Filling cap xs ys) (hstuck : d.Stuck cap xs ys)
    (rest : List UInt8) :
    (fed inputBufferSize d rest).Stuck cap
      (xs ++ rest.take (taken inputBufferSize d rest)) ys := by
  obtain ⟨hfull, hyields, -⟩ := hstuck
  exact (filling_fed inputBufferSize h rest).stuck hfull hyields

theorem feedWithin_of_stuck (h : d.Filling cap xs ys) (hstuck : d.Stuck cap xs ys)
    (hrest : rest ≠ []) (fuel : ℕ) :
    (hsd inputBufferSize).feedWithin cap (fuel + 1) d rest ys =
      (hsd inputBufferSize).feedWithin cap fuel (fed inputBufferSize d rest)
        (rest.drop (taken inputBufferSize d rest)) ys := by
  rw [feedWithin_succ inputBufferSize h hrest,
    poll_of_stuck (stuck_fed inputBufferSize h hstuck rest), List.append_nil]

/-- More than the input buffer has room for is never taken. -/
theorem feedWithin_eq_none (h : d.Filling cap xs ys) (hstuck : d.Stuck cap xs ys)
    (hlong : inputBufferSize - d.input.inputBuffer.length < rest.length) (fuel : ℕ) :
    (hsd inputBufferSize).feedWithin cap fuel d rest ys = none := by
  have hrest : rest ≠ [] := List.length_pos_iff.mp (Nat.zero_lt_of_lt hlong)
  induction fuel generalizing d xs rest with
  | zero =>
      obtain ⟨a, rest, rfl⟩ := List.exists_cons_of_ne_nil hrest
      rfl
  | succ fuel ih =>
      have htaken : taken inputBufferSize d rest =
          inputBufferSize - d.input.inputBuffer.length := Nat.min_eq_left hlong.le
      have hlen : (fed inputBufferSize d rest).input.inputBuffer.length =
          d.input.inputBuffer.length +
            (inputBufferSize - d.input.inputBuffer.length) := by
        simp only [fed, List.length_append, List.length_take, htaken]
        omega
      have hdrop : 0 < (rest.drop (taken inputBufferSize d rest)).length := by
        rw [List.length_drop, htaken]
        omega
      rw [feedWithin_of_stuck inputBufferSize h hstuck hrest]
      refine ih (filling_fed inputBufferSize h rest)
        (stuck_fed inputBufferSize h hstuck rest) ?_ (List.length_pos_iff.mp hdrop)
      rw [hlen]
      omega

theorem feedEnds_iff_of_stuck (h : d.Filling cap xs ys) (hstuck : d.Stuck cap xs ys) :
    FeedEnds inputBufferSize cap d rest ys ↔
      rest.length ≤ inputBufferSize - d.input.inputBuffer.length := by
  constructor
  · rintro ⟨fuel, hfuel⟩
    by_contra hlong
    rw [feedWithin_eq_none inputBufferSize h hstuck (Nat.lt_of_not_le hlong)] at hfuel
    exact Bool.false_ne_true hfuel
  · intro hle
    by_cases hrest : rest = []
    · rw [hrest]
      exact feedEnds_nil inputBufferSize cap d ys
    · have htaken : taken inputBufferSize d rest = rest.length := Nat.min_eq_right hle
      refine ⟨1, ?_⟩
      rw [feedWithin_of_stuck inputBufferSize h hstuck hrest, htaken, List.drop_length]
      rfl

/-! ## Feeding a payload -/

/-- The bound of `FitsBuffers`, when the overflow is in the piece of `k` bytes behind
the first `j` pieces, `unread` bits before its end and `r` bytes before the end of the
payload. -/
theorem pieces_bound_iff {j k unread r p : ℕ} (hk : k ≤ inputBufferSize)
    (hunread : unread < 8 * k) (hr : k = inputBufferSize ∨ r = 0)
    (hp : p = (8 * (inputBufferSize * j + k + r) - (unread + 8 * r) + 7) / 8) :
    inputBufferSize * j + k + r ≤ inputBufferSize * (p / inputBufferSize + 1) ↔
      r ≤ inputBufferSize - if unread < 8 then 0 else k := by
  have hpos : 0 < inputBufferSize := by omega
  obtain ⟨q, hq, hpq, hlast⟩ : ∃ q, q ≤ k ∧ p = inputBufferSize * j + q ∧
      (q = k ↔ unread < 8) := by
    refine ⟨(8 * k - unread + 7) / 8, ?_, ?_, ?_⟩ <;> omega
  rw [hpq, Nat.mul_add_div hpos, Nat.mul_add, Nat.mul_add]
  by_cases hfull : q = inputBufferSize
  · have hone : q / inputBufferSize = 1 := by
      rw [hfull]
      exact Nat.div_self hpos
    rw [hone, if_pos (hlast.mp (by omega))]
    omega
  · have hzero : q / inputBufferSize = 0 := Nat.div_eq_of_lt (by omega)
    rw [hzero]
    split <;> omega

theorem overflowAt_eq_none (hdrained : d.Drained cap xs) : overflowAt cap xs = none := by
  have hnone : overflowAll cap (xs.flatMap bitsOf) 0 = none := hdrained.2
  rw [overflowAt]
  exact congrArg (Option.map _) hnone

/-- Where the overflow is in `chunk`, the rest must fit what the input buffer has
left. -/
theorem fitsBuffers_iff_of_stuck {chunk : List UInt8} {j : ℕ}
    (hnone : overflowAll cap (xs.flatMap bitsOf) 0 = none)
    (hstuck : d.Stuck cap (xs ++ chunk) ys) (hwf : d.input.Wf)
    (hbuffer : d.input.inputBuffer = [] ∨ d.input.inputBuffer = chunk)
    (hxs : xs.length = inputBufferSize * j) (hchunk : chunk.length ≤ inputBufferSize)
    (hlast : chunk.length = inputBufferSize ∨ rest = []) :
    rest.length ≤ inputBufferSize - d.input.inputBuffer.length ↔
      FitsBuffers inputBufferSize cap (xs ++ chunk ++ rest) := by
  obtain ⟨-, -, hoverflow⟩ := hstuck
  have hunread : d.input.bits.length < 8 * chunk.length := by
    have hwhole := hoverflow []
    rw [List.append_nil, List.append_nil, List.flatMap_append] at hwhole
    by_contra hlong
    refine overflowAll_of_append hwhole ?_ hnone
    rw [HsdInput.length_flatMap_bitsOf]
    exact Nat.le_of_not_lt hlong
  have hfree : d.input.inputBuffer.length =
      if d.input.bits.length < 8 then 0 else chunk.length := by
    split
    · next hlt => rw [(HsdInput.inputBuffer_eq_nil_iff hwf).mpr hlt, List.length_nil]
    · next hge =>
        rw [hbuffer.resolve_left (mt (HsdInput.inputBuffer_eq_nil_iff hwf).mp hge)]
  have hat : overflowAt cap (xs ++ chunk ++ rest) =
      some ((8 * (xs ++ chunk ++ rest).length -
        (d.input.bits ++ rest.flatMap bitsOf).length + 7) / 8) := by
    have hall := hoverflow (rest.flatMap bitsOf)
    rw [← List.flatMap_append] at hall
    rw [overflowAt]
    exact congrArg (Option.map _) hall
  rw [FitsBuffers, hat, hfree]
  simp only [Option.mem_def, Option.some.injEq, forall_eq', List.length_append, hxs,
    HsdInput.length_flatMap_bitsOf]
  exact (pieces_bound_iff inputBufferSize hchunk hunread
    (hlast.imp id fun hnil => by rw [hnil]; rfl) rfl).symm

/-- The loop ends exactly if the payload fits. -/
theorem feedEnds_iff_of_drained (hpos : 0 < inputBufferSize) (h : d.Filling cap xs ys)
    (hdrained : d.Drained cap xs) (hpieces : inputBufferSize ∣ xs.length ∨ rest = []) :
    FeedEnds inputBufferSize cap d rest ys ↔
      FitsBuffers inputBufferSize cap (xs ++ rest) := by
  induction hlen : rest.length using Nat.strong_induction_on
    generalizing d xs ys rest with
  | _ len ih =>
    by_cases hrest : rest = []
    · rw [hrest, List.append_nil]
      refine ⟨fun _ => ?_, fun _ => feedEnds_nil inputBufferSize cap d ys⟩
      rw [FitsBuffers, overflowAt_eq_none hdrained]
      exact fun p hp => absurd hp (Option.not_mem_none p)
    · obtain ⟨j, hj⟩ := hpieces.resolve_right hrest
      have htaken : taken inputBufferSize d rest = min inputBufferSize rest.length := by
        rw [taken, hdrained.1]
        rfl
      have hrestPos := List.length_pos_iff.mpr hrest
      have hfed := filling_fed inputBufferSize h rest
      have hbuffered : (fed inputBufferSize d rest).input.inputBuffer =
          rest.take (taken inputBufferSize d rest) := by
        simp only [fed, hdrained.1, List.nil_append]
      obtain ⟨hfilling, hbuffer, -, hend⟩ := hfed.poll
      rw [feedEnds_iff inputBufferSize h hrest]
      rw [hbuffered] at hbuffer
      generalize htake : taken inputBufferSize d rest = k at *
      have hlast : k = inputBufferSize ∨ rest.drop k = [] := by
        by_cases hle : inputBufferSize ≤ rest.length
        · exact Or.inl (by omega)
        · exact Or.inr (List.drop_eq_nil_of_le (by omega))
      have hlenTake : (rest.take k).length = k := List.length_take_of_le (by omega)
      have hsplit : xs ++ rest = (xs ++ rest.take k) ++ rest.drop k := by
        rw [List.append_assoc, List.take_append_drop]
      rw [hsplit]
      rcases hend with hdrained' | hstuck
      · refine ih _ ?_ hfilling hdrained' ?_ rfl
        · rw [List.length_drop]
          omega
        · refine hlast.imp (fun hk => ?_) id
          rw [List.length_append, hlenTake, hj, hk]
          exact Nat.dvd_add (Nat.dvd_mul_right _ _) (Nat.dvd_refl _)
      · rw [feedEnds_iff_of_stuck inputBufferSize hfilling hstuck]
        refine fitsBuffers_iff_of_stuck inputBufferSize hdrained.2 hstuck hfilling.wf
          hbuffer hj ?_ ?_
        · rw [hlenTake]
          omega
        · rw [hlenTake]
          exact hlast

theorem filling_reset (cap : ℕ) : Hsd.reset.Filling cap [] [] where
  wf := HsdRep.reset.wf
  decoding := Hsd.decoding_reset
  length_le := Nat.zero_le _
  overflow _ := rfl

theorem filling_of_feedWithin (h : d.Filling cap xs ys) {fuel : ℕ} {out : List UInt8}
    {s : Hsd}
    (hfeed : (hsd inputBufferSize).feedWithin cap fuel d rest ys = some (out, s)) :
    s.Filling cap (xs ++ rest) out := by
  induction fuel generalizing d xs ys rest with
  | zero =>
      cases rest with
      | nil =>
          obtain ⟨rfl, rfl⟩ := Prod.mk.inj (Option.some.inj hfeed)
          rw [List.append_nil]
          exact h
      | cons a rest => cases hfeed
  | succ fuel ih =>
      by_cases hrest : rest = []
      · rw [hrest] at hfeed ⊢
        obtain ⟨rfl, rfl⟩ := Prod.mk.inj (Option.some.inj hfeed)
        rw [List.append_nil]
        exact h
      · rw [feedWithin_succ inputBufferSize h hrest] at hfeed
        have hfilling := ih (filling_fed inputBufferSize h rest).poll.1 hfeed
        rw [List.append_assoc, List.take_append_drop] at hfilling
        exact hfilling

end Heatshrink

theorem decompressionEnds_iff_feedEnds (inputBufferSize : ℕ) (decrypted : List UInt8) :
    DecompressionEnds (hsd inputBufferSize) decrypted ↔
      FeedEnds inputBufferSize decompressedSize .reset decrypted [] := by
  have halloc : (hsd inputBufferSize).alloc = Hsd.reset := rfl
  have hfinish (s : Hsd) : ((hsd inputBufferSize).finish s).2 = s := Hsd.finish_snd s
  constructor
  · rintro ⟨fuel, hfuel⟩
    refine ⟨fuel, ?_⟩
    rw [decompressWithin, halloc] at hfuel
    cases hfeed : (hsd inputBufferSize).feedWithin decompressedSize fuel .reset
        decrypted [] with
    | none =>
        rw [hfeed] at hfuel
        exact hfuel
    | some r => rfl
  · rintro ⟨fuel, hfuel⟩
    obtain ⟨⟨out, s⟩, hfeed⟩ := Option.isSome_iff_exists.mp hfuel
    have hfilling := filling_of_feedWithin inputBufferSize (filling_reset _) hfeed
    cases fuel with
    | zero =>
        cases decrypted with
        | nil => exact ⟨1, rfl⟩
        | cons a decrypted => cases hfeed
    | succ fuel =>
        refine ⟨fuel + 1, ?_⟩
        have hdrain := (congrArg
          (fun s => (hsd inputBufferSize).drainWithin decompressedSize (fuel + 1) s out)
          (hfinish s)).trans (drainWithin_of_filling inputBufferSize hfilling fuel)
        rw [decompressWithin, halloc, hfeed]
        simp only [hdrain]
        rfl

/-- The loops that decompress a payload end exactly if the payload fits the two
buffers. -/
theorem decompressionEnds_iff (decrypted : List UInt8) :
    DecompressionEnds (hsd 512) decrypted ↔
      FitsBuffers 512 decompressedSize decrypted := by
  rw [decompressionEnds_iff_feedEnds]
  exact feedEnds_iff_of_drained 512 (by decide) (filling_reset _) ⟨rfl, rfl⟩
    (Or.inl (Nat.dvd_zero 512))

/-! ## A payload that fits neither buffer -/

/-- A reference to the last byte, repeated sixteen times. -/
def repeatBits : List Bool :=
  false :: (List.replicate 8 false ++ List.replicate 4 true)

/-- 3585 bytes of such references. -/
def endlessPayload : List UInt8 :=
  packBits 3585 (List.replicate 2206 repeatBits).flatten

theorem overflowAll_repeatBits_append (cap : ℕ) (bits : List Bool) (n : ℕ) :
    overflowAll cap (repeatBits ++ bits) n =
      if cap < n + 16 then some bits else overflowAll cap bits (n + 16) := by
  have hhead : repeatBits ++ bits =
      false :: (List.replicate 8 false ++ (List.replicate 4 true ++ bits)) := rfl
  have hindex : (List.replicate 8 false : List Bool).length = 8 := rfl
  have hcount : (List.replicate 4 true : List Bool).length = 4 := rfl
  have hvalue : natOf (List.replicate 4 true) + 1 = 16 := rfl
  rw [hhead, overflowAll_false, List.drop_left' hindex,
    if_neg (by rw [List.length_append]; omega), overflowCount, List.drop_left' hcount,
    List.take_left' hcount, hvalue, if_neg (by rw [List.length_append]; omega)]

theorem overflowAll_replicate {cap : ℕ} (m : ℕ) (bits : List Bool) {n : ℕ}
    (hroom : n + 16 * m ≤ cap) :
    overflowAll cap ((List.replicate m repeatBits).flatten ++ bits) n =
      overflowAll cap bits (n + 16 * m) := by
  induction m generalizing n with
  | zero => rfl
  | succ m ih =>
      have hsum : n + 16 + 16 * m = n + 16 * (m + 1) := by omega
      rw [List.replicate_succ, List.flatten_cons, List.append_assoc,
        overflowAll_repeatBits_append, if_neg (by omega), ih (by omega), hsum]

theorem overflowAt_endlessPayload : overflowAt decompressedSize endlessPayload = some 3330 := by
  have hrepeat (m : ℕ) : (List.replicate m repeatBits).flatten.length = 13 * m := by
    rw [List.length_flatten, List.map_replicate, List.sum_replicate]
    exact Nat.mul_comm m 13
  have hbits : endlessPayload.flatMap bitsOf =
      (List.replicate 2048 repeatBits).flatten ++ (repeatBits ++
        ((List.replicate 157 repeatBits).flatten ++ List.replicate 2 false)) := by
    have hsplit : List.replicate 2206 repeatBits = List.replicate 2048 repeatBits ++
        (repeatBits :: List.replicate 157 repeatBits) := by
      rw [← List.replicate_succ, List.replicate_append_replicate]
    rw [endlessPayload, flatMap_bitsOf_packBits _ _ (by rw [hrepeat]; decide), hrepeat,
      hsplit, List.flatten_append, List.flatten_cons, List.append_assoc,
      List.append_assoc]
  have hall : overflowAll decompressedSize (endlessPayload.flatMap bitsOf) 0 =
      some ((List.replicate 157 repeatBits).flatten ++ List.replicate 2 false) := by
    rw [hbits, overflowAll_replicate _ _ (by decide), overflowAll_repeatBits_append,
      if_pos (by decide)]
  have hlen : endlessPayload.length = 3585 := length_packBits _ _
  have hunread : ((List.replicate 157 repeatBits).flatten ++
      List.replicate 2 false).length = 2043 := by
    rw [List.length_append, hrepeat, List.length_replicate]
  rw [overflowAt]
  refine (congrArg (Option.map _) hall).trans ?_
  rw [Option.map_some, hlen, hunread]

/-- 3585 bytes that keep the receiver in its loop. -/
theorem decompression_never_ends :
    endlessPayload.length ≤ 8164 ∧ ¬ DecompressionEnds (hsd 512) endlessPayload := by
  have hlen : endlessPayload.length = 3585 := length_packBits _ _
  refine ⟨by rw [hlen]; decide, ?_⟩
  rw [decompressionEnds_iff_feedEnds, feedEnds_iff_of_drained 512 (by decide)
    (filling_reset _) ⟨rfl, rfl⟩ (Or.inl (Nat.dvd_zero 512)), List.nil_append,
    FitsBuffers, overflowAt_endlessPayload, hlen]
  intro hfits
  exact absurd (hfits 3330 rfl) (by decide)

end LifiAuth
