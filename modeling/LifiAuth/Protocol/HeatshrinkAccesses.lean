import LifiAuth.Protocol.HeatshrinkCalls
import LifiAuth.Support.Access

/-!
# The buffers of the encoder

What the calls of the encoder read and write in its buffer, its index and the buffers of
its caller, and how they count in 16 bits.  The search compares up to `maxlen` bytes at
places that it takes from the index, the window moves within the buffer, and a byte is
pushed only where `can_take_byte` left room for one.
-/

namespace LifiAuth.Heatshrink

open Support

/-! ## The arrays -/

inductive HseArray where
  | buffer
  | index
  | last
  | inBuf
  | outBuf

/-- As they are allocated, for a caller with these buffers. -/
def HseArray.size (inLen outLen : ℕ) : HseArray → ℕ
  | buffer | index => 2 <<< 8
  | last => 256
  | inBuf => inLen
  | outBuf => outLen

abbrev HseTouches := List (Touch HseArray)

/-- The counters are of type `uint16_t`. -/
def HseSafe (inLen outLen : ℕ) (l : HseTouches) : Prop :=
  Touch.AllSafe (HseArray.size inLen outLen) (2 ^ 16) l

namespace Hse

def touch (array : HseArray) (first count : ℕ) : Touch HseArray :=
  .access ⟨array, first, count⟩

/-! ## What the steps touch -/

/-- `do_indexing`. -/
def indexTouches (e : Hse) : HseTouches :=
  [.add getInputBufferSize e.inputSize, touch .last 0 256] ++
    (List.range (getInputBufferSize + e.inputSize)).flatMap fun i =>
      [touch .buffer i 1, touch .last (e.buffer i).toNat 1, touch .index i 1,
        touch .last (e.buffer i).toNat 1]

/-- The loop of `find_longest_match`. -/
def followTouches (buf : ℕ → UInt8) (index : ℕ → Option ℕ) (start needle maxlen : ℕ) :
    ℕ → Option ℕ → Match → HseTouches
  | 0, _, _ => []
  | _ + 1, none, _ => []
  | fuel + 1, some pos, best =>
      if pos < start then []
      else
        [touch .buffer (pos + best.length) 1, touch .buffer (needle + best.length) 1] ++
          if buf (pos + best.length) ≠ buf (needle + best.length) then
            touch .index pos 1 ::
              followTouches buf index start needle maxlen fuel (index pos) best
          else
            let len := compareFrom buf pos needle (maxlen - 1) 1
            [touch .buffer (pos + 1) (maxlen - 1), touch .buffer (needle + 1) (maxlen - 1)] ++
              if best.length < len then
                if len = maxlen then []
                else
                  touch .index pos 1 ::
                    followTouches buf index start needle maxlen fuel (index pos) ⟨len, pos⟩
              else
                touch .index pos 1 ::
                  followTouches buf index start needle maxlen fuel (index pos) best

/-- `find_longest_match`. -/
def findTouches (buf : ℕ → UInt8) (index : ℕ → Option ℕ) (start needle maxlen : ℕ) :
    HseTouches :=
  let best :=
    followIndex buf index start needle maxlen needle (index needle) ⟨0, matchNotFound⟩
  touch .index needle 1 ::
    followTouches buf index start needle maxlen needle (index needle) ⟨0, matchNotFound⟩ ++
      if breakEvenPoint / 8 < best.length then [.sub needle best.pos] else []

/-- `st_step_search`. -/
def searchTouches (e : Hse) : HseTouches :=
  let msi := e.matchScanIndex
  if e.inputSize < msi + (if e.finishing then 1 else getLookaheadSize) then []
  else
    let needle := getInputBufferSize + msi
    let start := needle - getInputBufferSize
    let maxPossible :=
      if e.inputSize - msi < getLookaheadSize then e.inputSize - msi else getLookaheadSize
    [.add getInputBufferSize msi, .sub needle getInputBufferSize, .sub e.inputSize msi] ++
      findTouches e.buffer e.searchIndex start needle maxPossible ++
      match findLongestMatch e.buffer e.searchIndex start needle maxPossible with
      | none => [.add msi 1]
      | some _ => []

/-- `save_backlog`. -/
def backlogTouches (e : Hse) : HseTouches :=
  let rem := getInputBufferSize - e.matchScanIndex
  let shiftSz := getInputBufferSize + rem
  [.sub getInputBufferSize e.matchScanIndex, .add getInputBufferSize rem,
    touch .buffer (getInputBufferSize - rem) shiftSz, touch .buffer 0 shiftSz,
    .sub e.inputSize (getInputBufferSize - rem)]

/-- A round of `heatshrink_encoder_poll`, but for the bytes it writes. -/
def stepTouches (room : ℕ) (e : Hse) : HseTouches :=
  match e.state with
  | .filled => e.indexTouches
  | .search => e.searchTouches
  | .yieldTagBit => if 0 < room ∧ e.matchLength ≠ 0 then [.sub e.matchPos 1] else []
  | .yieldLiteral =>
      if 0 < room then
        [.sub e.matchScanIndex 1, .add getInputBufferSize (e.matchScanIndex - 1),
          touch .buffer (getInputBufferSize + (e.matchScanIndex - 1)) 1]
      else []
  | .yieldBrIndex =>
      if 0 < room ∧ e.outgoingBitsCount = 0 then [.sub e.matchLength 1] else []
  | .yieldBrLength =>
      if 0 < room ∧ e.outgoingBitsCount = 0 then [.add e.matchScanIndex e.matchLength]
      else []
  | .saveBacklog => e.backlogTouches
  | .notFull | .flushBits | .done => []

/-- The loop of `heatshrink_encoder_poll`; `out` is written. -/
def pollTouches (outBufSize : ℕ) : ℕ → Hse → List UInt8 → HseTouches
  | 0, _, _ => []
  | fuel + 1, e, out =>
      match e.state with
      | .notFull | .done => []
      | .flushBits =>
          let (_, emitted) := e.stFlushBitBuffer (outBufSize - out.length)
          [touch .outBuf out.length emitted.length]
      | _ =>
          let (e', emitted) := e.step (outBufSize - out.length)
          e.stepTouches (outBufSize - out.length) ++
            touch .outBuf out.length emitted.length ::
              if e'.state = e.state ∧ (out ++ emitted).length = outBufSize then []
              else pollTouches outBufSize fuel e' (out ++ emitted)

/-- A call. -/
def callTouches (e : Hse) : HseCall → HseTouches
  | .sink inBuf =>
      if e.finishing ∨ e.state ≠ .notFull then []
      else
        let writeOffset := getInputBufferSize + e.inputSize
        let rem := getInputBufferSize - e.inputSize
        let cpSz := if rem < inBuf.length then rem else inBuf.length
        [.add getInputBufferSize e.inputSize, .sub getInputBufferSize e.inputSize,
          touch .inBuf 0 cpSz, touch .buffer writeOffset cpSz, .add e.inputSize cpSz]
  | .poll outBufSize =>
      if outBufSize = 0 then [] else pollTouches outBufSize e.rounds e []
  | .finish => []

/-! ## Bounds -/

section

variable {inLen outLen : ℕ}

theorem hseSafe_indexTouches {e : Hse} (hsize : e.inputSize ≤ 256) :
    HseSafe inLen outLen e.indexTouches := by
  have hbuf : getInputBufferSize = 256 := rfl
  rw [HseSafe, indexTouches, Touch.allSafe_append]
  refine ⟨?_, ?_⟩
  · simp only [touch, Touch.allSafe_add, Touch.allSafe_access, Touch.allSafe_nil,
      HseArray.size, and_true]
    omega
  · intro t ht
    obtain ⟨i, hi, ht⟩ := List.mem_flatMap.mp ht
    have hi := List.mem_range.mp hi
    have hbyte := (e.buffer i).toNat_lt
    have hround : HseSafe inLen outLen [touch .buffer i 1, touch .last (e.buffer i).toNat 1,
        touch .index i 1, touch .last (e.buffer i).toNat 1] := by
      simp only [HseSafe, touch, Touch.allSafe_access, Touch.allSafe_nil, HseArray.size,
        and_true]
      omega
    exact hround t ht

variable {buf : ℕ → UInt8} {index : ℕ → Option ℕ} {start needle maxlen : ℕ}

/-- The places of the index lie before the one they belong to, so that what is compared
lies before what is searched for. -/
theorem hseSafe_followTouches (hindex : ∀ k ≤ needle, IsPrevious buf index k)
    (hend : needle + maxlen ≤ 512) {fuel : ℕ} {pos : Option ℕ}
    (hpos : ∀ p ∈ pos, p < needle) {best : Match} (hbest : best.length < maxlen) :
    HseSafe inLen outLen (followTouches buf index start needle maxlen fuel pos best) := by
  induction fuel generalizing pos best with
  | zero => exact Touch.allSafe_nil
  | succ fuel ih =>
      cases pos with
      | none => exact Touch.allSafe_nil
      | some p =>
          have hp : p < needle := hpos p rfl
          have hlink : ∀ q ∈ index p, q < needle := by
            intro q hq
            have hprev := hindex p hp.le
            rw [IsPrevious, hq] at hprev
            omega
          have hnext {best : Match} (hbest : best.length < maxlen) :
              HseSafe inLen outLen (touch .index p 1 ::
                followTouches buf index start needle maxlen fuel (index p) best) := by
            refine Touch.allSafe_access.mpr ⟨?_, ih hlink hbest⟩
            simp only [HseArray.size]
            omega
          rw [followTouches]
          split
          · exact Touch.allSafe_nil
          · rw [HseSafe, Touch.allSafe_append]
            refine ⟨?_, ?_⟩
            · simp only [touch, Touch.allSafe_access, Touch.allSafe_nil, HseArray.size,
                and_true]
              omega
            · split
              · exact hnext hbest
              · have hlen : compareFrom buf p needle (maxlen - 1) 1 ≤ maxlen := by
                  have hle := matchLen_le buf (p + 1) (needle + 1) (maxlen - 1)
                  rw [compareFrom_eq]
                  omega
                dsimp only
                rw [Touch.allSafe_append]
                refine ⟨?_, ?_⟩
                · simp only [touch, Touch.allSafe_access, Touch.allSafe_nil, HseArray.size,
                    and_true]
                  omega
                · split
                  · split
                    · exact Touch.allSafe_nil
                    · next hless =>
                        exact hnext (Nat.lt_of_le_of_ne hlen hless)
                  · exact hnext hbest

theorem hseSafe_findTouches (hindex : ∀ k ≤ needle, IsPrevious buf index k)
    (hmax : 0 < maxlen) (hend : needle + maxlen ≤ 512) :
    HseSafe inLen outLen (findTouches buf index start needle maxlen) := by
  have hfirst : ∀ p ∈ index needle, p < needle := by
    intro p hp
    have hprev := hindex needle le_rfl
    rw [IsPrevious, hp] at hprev
    exact hprev.1
  have hlongest := isLongest_longest_window start needle maxlen matchNotFound buf
  rw [findTouches, followIndex_eq_longest hindex hmax]
  refine Touch.allSafe_access.mpr ⟨?_, Touch.allSafe_append.mpr
    ⟨hseSafe_followTouches hindex hend hfirst hmax, ?_⟩⟩
  · simp only [HseArray.size]
    omega
  · split
    · next hpays =>
        obtain ⟨-, hlt, -⟩ := hlongest.found (by omega)
        exact Touch.allSafe_sub.mpr ⟨hlt.le, Touch.allSafe_nil⟩
    · exact Touch.allSafe_nil

end

namespace Encoding

variable {e : Hse} {xs ys : List UInt8} {base : ℕ} {ts : List (Token UInt8)}
  {pending : List Bool} {inLen outLen : ℕ}

theorem hseSafe_searchTouches (h : e.Encoding xs ys base ts pending)
    (hindexed : e.Indexed) : HseSafe inLen outLen e.searchTouches := by
  have hsize := h.size
  have hbuf : getInputBufferSize = 256 := rfl
  have hlook : getLookaheadSize = 16 := rfl
  rw [searchTouches]
  dsimp only
  by_cases hout : e.inputSize <
      e.matchScanIndex + (if e.finishing then 1 else getLookaheadSize)
  · rw [if_pos hout]
    exact Touch.allSafe_nil
  · have hmsi : e.matchScanIndex < e.inputSize := by
      split at hout <;> omega
    have hstart : getInputBufferSize + e.matchScanIndex - getInputBufferSize =
        e.matchScanIndex := Nat.add_sub_cancel_left _ _
    have hpos : 0 < if e.inputSize - e.matchScanIndex < getLookaheadSize then
        e.inputSize - e.matchScanIndex else getLookaheadSize := by
      split <;> omega
    have hle : (if e.inputSize - e.matchScanIndex < getLookaheadSize then
        e.inputSize - e.matchScanIndex else getLookaheadSize) ≤
        e.inputSize - e.matchScanIndex := by
      split <;> omega
    rw [if_neg hout, hstart]
    generalize (if e.inputSize - e.matchScanIndex < getLookaheadSize then
      e.inputSize - e.matchScanIndex else getLookaheadSize) = maxPossible at hpos hle ⊢
    rw [HseSafe, Touch.allSafe_append, Touch.allSafe_append]
    refine ⟨⟨?_, ?_⟩, ?_⟩
    · simp only [Touch.allSafe_add, Touch.allSafe_sub, Touch.allSafe_nil, and_true]
      omega
    · exact hseSafe_findTouches (fun k hk => hindexed k (by omega)) hpos (by omega)
    · split
      · exact Touch.allSafe_add.mpr ⟨by omega, Touch.allSafe_nil⟩
      · exact Touch.allSafe_nil

theorem hseSafe_stepTouches (h : e.Encoding xs ys base ts pending) (room : ℕ) :
    HseSafe inLen outLen (e.stepTouches room) := by
  have hsize := h.size
  have hscanned := h.scanned
  have hshape := h.shape
  have hbuf : getInputBufferSize = 256 := rfl
  rw [Shape] at hshape
  rw [stepTouches]
  cases hstate : e.state with
  | notFull => exact Touch.allSafe_nil
  | flushBits => exact Touch.allSafe_nil
  | done => exact Touch.allSafe_nil
  | filled => exact hseSafe_indexTouches hsize
  | search =>
      rw [hstate] at hshape
      exact h.hseSafe_searchTouches hshape.2.1
  | yieldTagBit =>
      rw [hstate] at hshape
      obtain ⟨-, -, -, hkind⟩ := hshape
      dsimp only
      split
      · next hcopy =>
          rw [if_neg hcopy.2] at hkind
          exact Touch.allSafe_sub.mpr ⟨hkind.1, Touch.allSafe_nil⟩
      · exact Touch.allSafe_nil
  | yieldLiteral =>
      rw [hstate] at hshape
      obtain ⟨-, -, -, hmsi⟩ := hshape
      dsimp only
      split
      · simp only [HseSafe, touch, Touch.allSafe_add, Touch.allSafe_sub, Touch.allSafe_access,
          Touch.allSafe_nil, HseArray.size, and_true]
        omega
      · exact Touch.allSafe_nil
  | yieldBrIndex =>
      rw [hstate] at hshape
      obtain ⟨-, -, hlen, -⟩ := hshape
      dsimp only
      split
      · exact Touch.allSafe_sub.mpr ⟨hlen, Touch.allSafe_nil⟩
      · exact Touch.allSafe_nil
  | yieldBrLength =>
      dsimp only
      split
      · exact Touch.allSafe_add.mpr ⟨by omega, Touch.allSafe_nil⟩
      · exact Touch.allSafe_nil
  | saveBacklog =>
      rw [hstate] at hshape
      obtain ⟨-, hfull, hmsi, -⟩ := hshape
      simp only [HseSafe, backlogTouches, touch, Touch.allSafe_add, Touch.allSafe_sub,
        Touch.allSafe_access, Touch.allSafe_nil, HseArray.size, and_true]
      omega

end Encoding

/-! ## Calls -/

variable {e : Hse} {xs ys out : List UInt8} {inLen n : ℕ}

theorem hseSafe_pollTouches {fuel : ℕ} (h : e.Encoded xs ys) (hout : out.length ≤ n) :
    HseSafe inLen n (pollTouches n fuel e out) := by
  induction fuel generalizing e ys out with
  | zero => exact Touch.allSafe_nil
  | succ fuel ih =>
      by_cases hnotFull : e.state = .notFull
      · rw [pollTouches, hnotFull]
        exact Touch.allSafe_nil
      by_cases hdone : e.state = .done
      · rw [pollTouches, hdone]
        exact Touch.allSafe_nil
      cases h with
      | done hstate => exact absurd hstate hdone
      | going base ts pending h =>
          by_cases hflush : e.state = .flushBits
          · rw [pollTouches, hflush]
            refine Touch.allSafe_access.mpr ⟨?_, Touch.allSafe_nil⟩
            show out.length + (e.stFlushBitBuffer (n - out.length)).2.length ≤ n
            rcases h.stFlushBitBuffer hflush (n - out.length) with
              ⟨-, -, -, hle⟩ | ⟨-, hsame⟩
            · omega
            · rw [hsame]
              exact hout
          · have hstep : Advances (n - out.length) xs ys e (e.step (n - out.length)).1
                (e.step (n - out.length)).2 := h.step ⟨hnotFull, hflush⟩
            obtain ⟨base', ts', pending', h'⟩ := hstep.encoding
            have hle := hstep.length_le
            have hround : pollTouches n (fuel + 1) e out =
                e.stepTouches (n - out.length) ++
                  touch .outBuf out.length (e.step (n - out.length)).2.length ::
                    if (e.step (n - out.length)).1.state = e.state ∧
                        (out ++ (e.step (n - out.length)).2).length = n then []
                    else pollTouches n fuel (e.step (n - out.length)).1
                      (out ++ (e.step (n - out.length)).2) := by
              rw [pollTouches]
              split <;> first | contradiction | rfl
            rw [hround]
            refine Touch.allSafe_append.mpr ⟨h.hseSafe_stepTouches _,
              Touch.allSafe_access.mpr ⟨?_, ?_⟩⟩
            · show out.length + (e.step (n - out.length)).2.length ≤ n
              omega
            · split
              · exact Touch.allSafe_nil
              · refine ih (.going base' ts' pending' h') ?_
                rw [List.length_append]
                omega

theorem hseSafe_sink (h : e.Encoded xs ys) (inBuf : List UInt8) :
    HseSafe inBuf.length n (e.callTouches (.sink inBuf)) := by
  have hbuf : getInputBufferSize = 256 := rfl
  rw [callTouches]
  split
  · exact Touch.allSafe_nil
  · next hready =>
      rw [not_or, not_not] at hready
      obtain ⟨-, hstate⟩ := hready
      cases h with
      | done hdone =>
          rw [hstate] at hdone
          cases hdone
      | going base ts pending h =>
          have hshape := h.shape
          rw [Shape, hstate] at hshape
          obtain ⟨-, hroom, -⟩ := hshape
          simp only [HseSafe, touch, Touch.allSafe_add, Touch.allSafe_sub,
            Touch.allSafe_access, Touch.allSafe_nil, HseArray.size, and_true]
          split <;> omega

end Hse

/-- The arrays under a call. -/
def HseCall.size : HseCall → HseArray → ℕ
  | .sink inBuf => HseArray.size inBuf.length 0
  | .poll outBufSize => HseArray.size 0 outBufSize
  | .finish => HseArray.size 0 0

/-- Under any calls in any order, whatever the index was before and however large the
caller's buffers are, every access of the encoder is within its array and none of its
counters wraps. -/
theorem encoder_stays_in_bounds (searchIndex : ℕ → Option ℕ) (calls : List HseCall)
    (call : HseCall) :
    Touch.AllSafe call.size (2 ^ 16)
      ((hseCalls.run (.reset searchIndex) calls).callTouches call) := by
  have h := (between_run searchIndex calls).encoded
  cases call with
  | sink inBuf => exact Hse.hseSafe_sink h inBuf
  | poll outBufSize =>
      rw [Hse.callTouches]
      split
      · exact Touch.allSafe_nil
      · exact Hse.hseSafe_pollTouches h (Nat.zero_le _)
  | finish => exact Touch.allSafe_nil

end LifiAuth.Heatshrink
