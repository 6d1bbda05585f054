import LifiAuth.Protocol.HeatshrinkStream
import LifiAuth.Support.Access

/-!
# The buffers of the decoder

What the calls of the decoder read and write in its two buffers and those of its caller, how
its 16 bit counters move and what it asserts.  Its input is whatever came in a frame: an
index and a count that are read from it decide where the window is read and how often a byte
is put out.
-/

namespace LifiAuth.Heatshrink

open Support

/-! ## The arrays -/

inductive HsdArray where
  | input
  | window
  | inBuf
  | outBuf

/-- As they are allocated, for a caller with these buffers. -/
def HsdArray.size (inputBufferSize inLen outLen : ℕ) : HsdArray → ℕ
  | input => inputBufferSize
  | window => 256
  | inBuf => inLen
  | outBuf => outLen

/-- An access, a step of a counter, or an assertion that `x` is at most `bound`. -/
inductive HsdMark where
  | touch (t : Touch HsdArray)
  | asserts (x bound : ℕ)

/-- The access is in bounds, the counter does not wrap, the assertion holds. -/
def HsdMark.Holds (size : HsdArray → ℕ) : HsdMark → Prop
  | touch t => t.Safe size (2 ^ 16)
  | asserts x bound => x ≤ bound

def MarksHold (inputBufferSize inLen outLen : ℕ) (l : List HsdMark) : Prop :=
  ∀ mark ∈ l, mark.Holds (HsdArray.size inputBufferSize inLen outLen)

/-- `count` entries of an array from `first` on. -/
def HsdMark.access (array : HsdArray) (first count : ℕ) : HsdMark :=
  .touch (.access ⟨array, first, count⟩)

/-! ## What the steps touch -/

/-- The loop of `get_bits`: a byte is pulled when a bit of it is needed. -/
def HsdInput.bitsLoopMarks : ℕ → HsdInput → List HsdMark
  | 0, _ => []
  | count + 1, i =>
      if i.bitIndex = 0 ∧ i.inputBuffer = [] then []
      else
        (if i.bitIndex = 0 then [.access .input i.inputIndex 1, .touch (.add i.inputIndex 1)]
          else []) ++ bitsLoopMarks count i.takeBit.2

/-- `get_bits`. -/
def HsdInput.bitsMarks (count : ℕ) (i : HsdInput) : List HsdMark :=
  if i.inputBuffer = [] ∧ i.bitIndex < count then [] else bitsLoopMarks count i

namespace Hsd

/-- `push_byte` behind a read of the window, for `st_yield_backref`, and the byte for the
window; `out` bytes have been put out. -/
def backrefMarks : ℕ → ℕ → Hsd → List HsdMark
  | 0, _, _ => []
  | count + 1, out, d =>
      [.access .window ((d.headIndex + 256 - d.outputIndex) % 256) 1, .access .outBuf out 1,
        .access .window (d.headIndex % 256) 1] ++
        backrefMarks count (out + 1)
          (d.pushWindow (d.window ((d.headIndex + 256 - d.outputIndex) % 256)))

/-- One case of the switch in `heatshrink_decoder_poll`, with `out` of `outBufSize` bytes put
out. -/
def stepMarks (outBufSize out : ℕ) (d : Hsd) : List HsdMark :=
  match d.state with
  | .tagBit => d.input.bitsMarks 1
  | .yieldLiteral =>
      if out < outBufSize then
        d.input.bitsMarks 8 ++
          match (d.input.getBits 8).1 with
          | none => []
          | some _ => [.access .window (d.headIndex % 256) 1, .access .outBuf out 1]
      else []
  | .backrefIndexLsb =>
      d.input.bitsMarks 8 ++
        match (d.input.getBits 8).1 with
        | none => []
        | some bits => [.touch (.add (d.outputIndex ||| bits) 1)]
  | .backrefCountLsb =>
      d.input.bitsMarks 4 ++
        match (d.input.getBits 4).1 with
        | none => []
        | some bits => [.touch (.add (d.outputCount ||| bits) 1)]
  | .yieldBackref =>
      .touch (.sub outBufSize out) ::
        if out < outBufSize then
          let count := min d.outputCount (outBufSize - out)
          [.asserts d.outputIndex 256, .asserts count 16] ++ backrefMarks count out d ++
            [.touch (.sub d.outputCount count)]
        else []

/-- The loop of `heatshrink_decoder_poll`. -/
def pollMarks (outBufSize : ℕ) : ℕ → Hsd → List UInt8 → List HsdMark
  | 0, _, _ => []
  | fuel + 1, d, out =>
      d.stepMarks outBufSize out.length ++
        if (d.step (outBufSize - out.length)).1.state = d.state then []
        else
          pollMarks outBufSize fuel (d.step (outBufSize - out.length)).1
            (out ++ (d.step (outBufSize - out.length)).2)

end Hsd

inductive HsdCall where
  | sink (inBuf : List UInt8)
  | poll (outBufSize : ℕ)
  | finish

/-- The decoder and its caller. -/
def hsdCalls (inputBufferSize : ℕ) : Machine Hsd HsdCall UInt8 where
  step d
    | .sink inBuf => ((d.sink inputBufferSize inBuf).2, [])
    | .poll outBufSize => ((d.poll outBufSize).2.2, (d.poll outBufSize).2.1)
    | .finish => (d.finish.2, [])

/-- A call. -/
def Hsd.callMarks (inputBufferSize : ℕ) (d : Hsd) : HsdCall → List HsdMark
  | .sink inBuf =>
      let rem := inputBufferSize - d.input.inputBuffer.length
      let size := min rem inBuf.length
      .touch (.sub inputBufferSize d.input.inputBuffer.length) ::
        if rem = 0 then []
        else
          [.access .inBuf 0 size, .access .input d.input.inputBuffer.length size,
            .touch (.add d.input.inputBuffer.length size)]
  | .poll outBufSize => Hsd.pollMarks outBufSize (2 * d.bitsLeft + 2) d []
  | .finish => []

/-! ## Bounds -/

/-- The input fits its buffer, and index and count are within what the bits that they are
read from allow. -/
structure Hsd.Bounded (inputBufferSize : ℕ) (d : Hsd) : Prop where
  wf : d.input.Wf
  input_le : d.input.inputBuffer.length ≤ inputBufferSize
  index_le : d.outputIndex ≤ 256
  count_le : d.outputCount ≤ 16
  index_eq : d.state = .backrefIndexLsb → d.outputIndex = 0
  count_eq : d.state = .backrefCountLsb → d.outputCount = 0

section

variable {inputBufferSize inLen outLen : ℕ}

theorem marksHold_nil : MarksHold inputBufferSize inLen outLen [] :=
  List.forall_mem_nil _

theorem marksHold_cons {mark : HsdMark} {l : List HsdMark} :
    MarksHold inputBufferSize inLen outLen (mark :: l) ↔
      mark.Holds (HsdArray.size inputBufferSize inLen outLen) ∧
        MarksHold inputBufferSize inLen outLen l :=
  List.forall_mem_cons

theorem marksHold_append {l l' : List HsdMark} :
    MarksHold inputBufferSize inLen outLen (l ++ l') ↔
      MarksHold inputBufferSize inLen outLen l ∧
        MarksHold inputBufferSize inLen outLen l' :=
  List.forall_mem_append

/-- The bits that a state asks for are read within the input buffer. -/
theorem marksHold_bitsLoopMarks {i : HsdInput} (hwf : i.Wf)
    (hle : i.inputBuffer.length ≤ inputBufferSize) (hsmall : inputBufferSize < 2 ^ 16)
    (count : ℕ) : MarksHold inputBufferSize inLen outLen (i.bitsLoopMarks count) := by
  induction count generalizing i with
  | zero => exact marksHold_nil
  | succ count ih =>
      rw [HsdInput.bitsLoopMarks]
      split
      · exact marksHold_nil
      · next hsome =>
          have hlen := HsdInput.length_bits hwf
          have hpos : 0 < i.bits.length := by
            by_cases hzero : i.bitIndex = 0
            · have hne : i.inputBuffer ≠ [] := fun hnil => hsome ⟨hzero, hnil⟩
              have hlt := hwf.inputIndex_lt hne
              omega
            · omega
          obtain ⟨bit, rest, hbits⟩ := List.exists_cons_of_length_pos hpos
          obtain ⟨-, i', htake, -, hreads⟩ := HsdInput.takeBit_of_bits hwf hbits
          have hle' : i'.inputBuffer.length ≤ inputBufferSize := by
            rcases hreads.buffer with hnil | heq
            · rw [hnil]
              exact Nat.zero_le _
            · rw [heq]
              exact hle
          rw [htake]
          refine marksHold_append.mpr ⟨?_, ih hreads.wf hle'⟩
          split
          · next hzero =>
              have hne : i.inputBuffer ≠ [] := fun hnil => hsome ⟨hzero, hnil⟩
              have hlt := hwf.inputIndex_lt hne
              refine marksHold_cons.mpr ⟨?_, marksHold_cons.mpr ⟨?_, marksHold_nil⟩⟩
              · exact (Nat.succ_le_of_lt hlt).trans hle
              · exact (Nat.succ_le_of_lt hlt).trans_lt (hle.trans_lt hsmall)
          · exact marksHold_nil

theorem marksHold_bitsMarks {i : HsdInput} (hwf : i.Wf)
    (hle : i.inputBuffer.length ≤ inputBufferSize) (hsmall : inputBufferSize < 2 ^ 16)
    (count : ℕ) : MarksHold inputBufferSize inLen outLen (i.bitsMarks count) := by
  rw [HsdInput.bitsMarks]
  split
  · exact marksHold_nil
  · exact marksHold_bitsLoopMarks hwf hle hsmall count

/-- What is read is less than the bits allow. -/
theorem getBits_lt {i : HsdInput} (hwf : i.Wf) {count : ℕ} (hcount : count ≤ 8) {n : ℕ}
    (h : (i.getBits count).1 = some n) : n < 2 ^ count := by
  rcases HsdInput.getBits_cases hwf hcount with ⟨hle, i', hget, -⟩ | ⟨-, hget⟩
  · rw [hget] at h
    obtain rfl := Option.some.inj h
    have hlt := natOf_lt (i.bits.take count)
    rwa [List.length_take, Nat.min_eq_left hle] at hlt
  · rw [hget] at h
    cases h

namespace Hsd

variable {d d' : Hsd}

theorem marksHold_backrefMarks {count out : ℕ} (hout : out + count ≤ outLen) (d : Hsd) :
    MarksHold inputBufferSize inLen outLen (backrefMarks count out d) := by
  induction count generalizing out d with
  | zero => exact marksHold_nil
  | succ count ih =>
      have hmask (n : ℕ) : n % 256 + 1 ≤ 256 := Nat.mod_lt n (by decide)
      refine marksHold_append.mpr ⟨?_, ih (by omega) _⟩
      refine marksHold_cons.mpr ⟨hmask _, marksHold_cons.mpr ⟨?_,
        marksHold_cons.mpr ⟨hmask _, marksHold_nil⟩⟩⟩
      exact (Nat.add_le_add_left (Nat.succ_pos count) out).trans hout

theorem Bounded.marksHold_stepMarks (h : d.Bounded inputBufferSize)
    (hsmall : inputBufferSize < 2 ^ 16) {out : ℕ} (hout : out ≤ outLen) :
    MarksHold inputBufferSize inLen outLen (d.stepMarks outLen out) := by
  have hbits (count : ℕ) : MarksHold inputBufferSize inLen outLen (d.input.bitsMarks count) :=
    marksHold_bitsMarks h.wf h.input_le hsmall count
  have hmask : d.headIndex % 256 + 1 ≤ 256 := Nat.mod_lt _ (by decide)
  rw [stepMarks]
  cases hstate : d.state with
  | tagBit => exact hbits 1
  | yieldLiteral =>
      dsimp only
      split
      · next hroom =>
          refine marksHold_append.mpr ⟨hbits 8, ?_⟩
          split
          · exact marksHold_nil
          · exact marksHold_cons.mpr ⟨hmask, marksHold_cons.mpr
              ⟨Nat.succ_le_of_lt hroom, marksHold_nil⟩⟩
      · exact marksHold_nil
  | backrefIndexLsb =>
      refine marksHold_append.mpr ⟨hbits 8, ?_⟩
      split
      · exact marksHold_nil
      · next bits hget =>
          have hlt := getBits_lt h.wf (by decide) hget
          refine marksHold_cons.mpr ⟨?_, marksHold_nil⟩
          rw [h.index_eq hstate, Nat.zero_or]
          exact (Nat.succ_le_of_lt hlt).trans_lt (by decide)
  | backrefCountLsb =>
      refine marksHold_append.mpr ⟨hbits 4, ?_⟩
      split
      · exact marksHold_nil
      · next bits hget =>
          have hlt := getBits_lt h.wf (by decide) hget
          refine marksHold_cons.mpr ⟨?_, marksHold_nil⟩
          rw [h.count_eq hstate, Nat.zero_or]
          exact (Nat.succ_le_of_lt hlt).trans_lt (by decide)
  | yieldBackref =>
      refine marksHold_cons.mpr ⟨hout, ?_⟩
      split
      · have hcount : min d.outputCount (outLen - out) ≤ d.outputCount := Nat.min_le_left _ _
        have hroom : min d.outputCount (outLen - out) ≤ outLen - out := Nat.min_le_right _ _
        refine marksHold_append.mpr ⟨marksHold_append.mpr ⟨marksHold_cons.mpr
          ⟨h.index_le, marksHold_cons.mpr ⟨hcount.trans h.count_le, marksHold_nil⟩⟩, ?_⟩,
          marksHold_cons.mpr ⟨hcount, marksHold_nil⟩⟩
        exact marksHold_backrefMarks (by omega) d
      · exact marksHold_nil

/-! ## Calls -/

/-- Every step keeps the bounds: a count only goes down while it is used, and an index is
read anew for each copy. -/
theorem Bounded.steps (h : d.Bounded inputBufferSize) {room : ℕ} {emitted : List UInt8}
    (hsteps : d.Steps room d' emitted) : d'.Bounded inputBufferSize := by
  have hreads := hsteps.reads h.wf
  have hle : d'.input.inputBuffer.length ≤ inputBufferSize := by
    rcases hreads.buffer with hnil | heq
    · rw [hnil]
      exact Nat.zero_le _
    · rw [heq]
      exact h.input_le
  have hbits (count : ℕ) : natOf (d.input.bits.take count) < 2 ^ count :=
    (natOf_lt _).trans_le (Nat.pow_le_pow_right (by decide) (List.length_take_le _ _))
  cases hsteps with
  | starved => exact h
  | blocked => exact h
  | tagLiteral =>
      exact ⟨hreads.wf, hle, h.index_le, h.count_le, HsdState.noConfusion,
        HsdState.noConfusion⟩
  | tagBackref =>
      exact ⟨hreads.wf, hle, Nat.zero_le _, h.count_le, fun _ => rfl, HsdState.noConfusion⟩
  | literal =>
      exact ⟨hreads.wf, hle, h.index_le, h.count_le, HsdState.noConfusion,
        HsdState.noConfusion⟩
  | index hstate =>
      refine ⟨hreads.wf, hle, ?_, Nat.zero_le _, HsdState.noConfusion, fun _ => rfl⟩
      rw [h.index_eq hstate, Nat.zero_or]
      exact hbits 8
  | count hstate =>
      refine ⟨hreads.wf, hle, h.index_le, ?_, HsdState.noConfusion, HsdState.noConfusion⟩
      rw [h.count_eq hstate, Nat.zero_or]
      exact hbits 4
  | copied =>
      obtain ⟨window, hwindow⟩ := emitBackref_fst d.outputCount d []
      rw [hwindow] at hreads hle ⊢
      exact ⟨hreads.wf, hle, h.index_le, Nat.zero_le _, HsdState.noConfusion,
        HsdState.noConfusion⟩
  | copying hstate =>
      obtain ⟨window, hwindow⟩ := emitBackref_fst room d []
      rw [hwindow] at hreads hle ⊢
      refine ⟨hreads.wf, hle, h.index_le, (Nat.sub_le _ _).trans h.count_le, ?_, ?_⟩
      · intro hindex
        rw [hstate] at hindex
        cases hindex
      · intro hcount
        rw [hstate] at hcount
        cases hcount

theorem Bounded.poll (h : d.Bounded inputBufferSize) (outBufSize : ℕ) :
    (d.poll outBufSize).2.2.Bounded inputBufferSize :=
  (poll_rule (P := fun d _ => d.Bounded inputBufferSize)
    (fun _ _ _ _ _ hbounded hsteps => hbounded.steps hsteps) h.wf h).2.1

theorem Bounded.sink (h : d.Bounded inputBufferSize) (inBuf : List UInt8) :
    (d.sink inputBufferSize inBuf).2.Bounded inputBufferSize := by
  obtain ⟨⟨hbit, hlt, heq⟩, hle, hindex, hcount, hindex₀, hcount₀⟩ := h
  have hlength : (inBuf.take (min (inputBufferSize - d.input.inputBuffer.length)
      inBuf.length)).length ≤ inputBufferSize - d.input.inputBuffer.length :=
    (List.length_take_le _ _).trans (Nat.min_le_left _ _)
  refine ⟨⟨hbit, ?_, ?_⟩, ?_, hindex, hcount, hindex₀, hcount₀⟩
  · intro hne
    simp only [Hsd.sink] at hne ⊢
    rw [List.length_append]
    by_cases hempty : d.input.inputBuffer = []
    · have hpos := List.length_pos_iff.mpr hne
      rw [List.length_append] at hpos
      rw [heq hempty]
      exact hpos
    · exact (hlt hempty).trans_le (Nat.le_add_right _ _)
  · intro hnil
    exact heq (List.append_eq_nil_iff.mp hnil).1
  · simp only [Hsd.sink]
    rw [List.length_append]
    omega

theorem bounded_reset (inputBufferSize : ℕ) : reset.Bounded inputBufferSize :=
  ⟨⟨by decide, fun hne => absurd rfl hne, fun _ => rfl⟩, Nat.zero_le _, Nat.zero_le _,
    Nat.zero_le _, HsdState.noConfusion, HsdState.noConfusion⟩

theorem bounded_run (inputBufferSize : ℕ) (calls : List HsdCall) :
    ((hsdCalls inputBufferSize).run reset calls).Bounded inputBufferSize := by
  have hstart := bounded_reset inputBufferSize
  generalize reset = d at hstart
  induction calls generalizing d with
  | nil => exact hstart
  | cons call calls ih =>
      rw [Machine.run_cons]
      cases call with
      | sink inBuf => exact ih _ (hstart.sink inBuf)
      | poll outBufSize => exact ih _ (hstart.poll outBufSize)
      | finish =>
          have hsame : ((hsdCalls inputBufferSize).step d .finish).1 = d := by
            show d.finish.2 = d
            rw [finish]
            cases d.state with
            | _ => rfl
          rw [hsame]
          exact ih _ hstart

theorem Bounded.marksHold_pollMarks (h : d.Bounded inputBufferSize)
    (hsmall : inputBufferSize < 2 ^ 16) {fuel : ℕ} {out : List UInt8}
    (hout : out.length ≤ outLen) :
    MarksHold inputBufferSize inLen outLen (pollMarks outLen fuel d out) := by
  induction fuel generalizing d out with
  | zero => exact marksHold_nil
  | succ fuel ih =>
      have hsteps := steps_step h.wf (outLen - out.length)
      have hle := hsteps.length_le
      rw [pollMarks]
      refine marksHold_append.mpr ⟨h.marksHold_stepMarks hsmall hout, ?_⟩
      split
      · exact marksHold_nil
      · refine ih (h.steps hsteps) ?_
        rw [List.length_append]
        omega

end Hsd

end

/-- The arrays under a call. -/
def HsdCall.size (inputBufferSize : ℕ) : HsdCall → HsdArray → ℕ
  | .sink inBuf => HsdArray.size inputBufferSize inBuf.length 0
  | .poll outBufSize => HsdArray.size inputBufferSize 0 outBufSize
  | .finish => HsdArray.size inputBufferSize 0 0

/-- Whatever bytes are sunk and whatever calls are made in whatever order, every access of
the decoder is within its array, no counter wraps and both assertions hold. -/
theorem decoder_stays_in_bounds {inputBufferSize : ℕ} (hsmall : inputBufferSize < 2 ^ 16)
    (calls : List HsdCall) (call : HsdCall) :
    ∀ mark ∈ ((hsdCalls inputBufferSize).run .reset calls).callMarks inputBufferSize call,
      mark.Holds (call.size inputBufferSize) := by
  have h := Hsd.bounded_run inputBufferSize calls
  cases call with
  | sink inBuf =>
      have hle := h.input_le
      refine marksHold_cons.mpr ⟨hle, ?_⟩
      split
      · exact marksHold_nil
      · generalize ((hsdCalls inputBufferSize).run .reset calls).input.inputBuffer.length = n
          at hle
        have hfits : n + min (inputBufferSize - n) inBuf.length ≤ inputBufferSize := by omega
        exact marksHold_cons.mpr ⟨(Nat.zero_add _).trans_le (Nat.min_le_right _ _),
          marksHold_cons.mpr ⟨hfits, marksHold_cons.mpr ⟨hfits.trans_lt hsmall,
            marksHold_nil⟩⟩⟩
  | poll outBufSize => exact h.marksHold_pollMarks hsmall (Nat.zero_le _)
  | finish => exact marksHold_nil

/-- As the receiver allocates it. -/
theorem decoder_stays_in_bounds_copies :
    MarksHold 512 0 40
      (((hsdCalls 512).run .reset [.sink [0x7F, 0xFF, 0xFF]]).callMarks 512 (.poll 40)) :=
  decoder_stays_in_bounds (by decide) [.sink [0x7F, 0xFF, 0xFF]] (.poll 40)

end LifiAuth.Heatshrink
