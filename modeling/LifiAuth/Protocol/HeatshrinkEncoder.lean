import LifiAuth.Protocol.HeatshrinkTokens

/-!
# The heatshrink encoder

`heatshrink_encoder.c` for window 8 and lookahead 4, which is how the sender allocates
it, with the index that `HEATSHRINK_USE_INDEX` turns on.
-/

namespace LifiAuth.Heatshrink

open Support

/-! ## States -/

inductive HseState where
  | notFull
  | filled
  | search
  | yieldTagBit
  | yieldLiteral
  | yieldBrIndex
  | yieldBrLength
  | saveBacklog
  | flushBits
  | done
  deriving DecidableEq

/-- `heatshrink_encoder`.  `bitIndex` is the mask of the next bit of `currentByte`, and
a negative entry of the index is `none`. -/
structure Hse where
  inputSize : ℕ
  matchScanIndex : ℕ
  matchLength : ℕ
  matchPos : ℕ
  outgoingBits : ℕ
  outgoingBitsCount : ℕ
  finishing : Bool
  state : HseState
  currentByte : UInt8
  bitIndex : UInt8
  searchIndex : ℕ → Option ℕ
  buffer : ℕ → UInt8

/-- `get_input_buffer_size`, which is also `get_input_offset`. -/
def getInputBufferSize : ℕ := 256

/-- `get_lookahead_size`. -/
def getLookaheadSize : ℕ := 16

/-- `break_even_point`. -/
def breakEvenPoint : ℕ := 1 + 8 + 4

/-- `MATCH_NOT_FOUND`. -/
def matchNotFound : ℕ := 0xFFFF

/-! ## Searching -/

/-- The loop over `len`: the bytes are compared until two differ. -/
def compareFrom (buf : ℕ → UInt8) (pos needle : ℕ) : ℕ → ℕ → ℕ
  | 0, len => len
  | left + 1, len =>
      if buf (pos + len) ≠ buf (needle + len) then len
      else compareFrom buf pos needle left (len + 1)

/-- The loop of `find_longest_match` that follows the index; `fuel` bounds the links. -/
def followIndex (buf : ℕ → UInt8) (index : ℕ → Option ℕ) (start needle maxlen : ℕ) :
    ℕ → Option ℕ → Match → Match
  | 0, _, best => best
  | _ + 1, none, best => best
  | fuel + 1, some pos, best =>
      if pos < start then best
      else if buf (pos + best.length) ≠ buf (needle + best.length) then
        followIndex buf index start needle maxlen fuel (index pos) best
      else
        let len := compareFrom buf pos needle (maxlen - 1) 1
        if best.length < len then
          if len = maxlen then ⟨len, pos⟩
          else followIndex buf index start needle maxlen fuel (index pos) ⟨len, pos⟩
        else followIndex buf index start needle maxlen fuel (index pos) best

/-- The loop of `find_longest_match` without an index: `left` positions from
`start + left - 1` down to `start`. -/
def scanBackwards (buf : ℕ → UInt8) (start needle maxlen : ℕ) : ℕ → Match → Match
  | 0, best => best
  | left + 1, best =>
      let pos := start + left
      if buf (pos + best.length) = buf (needle + best.length) ∧ buf pos = buf needle then
        let len := compareFrom buf pos needle (maxlen - 1) 1
        if best.length < len then
          if len = maxlen then ⟨len, pos⟩
          else scanBackwards buf start needle maxlen left ⟨len, pos⟩
        else scanBackwards buf start needle maxlen left best
      else scanBackwards buf start needle maxlen left best

/-- The end of `find_longest_match`: how far back the match is and how long, if it
pays. -/
def payingMatch (needle : ℕ) (best : Match) : Option (ℕ × ℕ) :=
  if breakEvenPoint / 8 < best.length then some (needle - best.pos, best.length) else none

/-- `find_longest_match` with `HEATSHRINK_USE_INDEX`. -/
def findLongestMatch (buf : ℕ → UInt8) (index : ℕ → Option ℕ) (start needle maxlen : ℕ) :
    Option (ℕ × ℕ) :=
  payingMatch needle
    (followIndex buf index start needle maxlen needle (index needle) ⟨0, matchNotFound⟩)

/-- `find_longest_match` without it. -/
def findLongestMatchPlain (buf : ℕ → UInt8) (start needle maxlen : ℕ) : Option (ℕ × ℕ) :=
  payingMatch needle
    (scanBackwards buf start needle maxlen (needle - start) ⟨0, matchNotFound⟩)

/-- The loop of `do_indexing` from `i` on: `last` has the last place of each byte. -/
def indexFrom (data : ℕ → UInt8) :
    ℕ → ℕ → (UInt8 → Option ℕ) → (ℕ → Option ℕ) → ℕ → Option ℕ
  | 0, _, _, index => index
  | left + 1, i, last, index =>
      indexFrom data left (i + 1) (Function.update last (data i) (some i))
        (Function.update index i (last (data i)))

namespace Hse

/-- `do_indexing`. -/
def doIndexing (e : Hse) : Hse :=
  { e with searchIndex :=
      indexFrom e.buffer (getInputBufferSize + e.inputSize) 0 (fun _ => none) e.searchIndex }

/-! ## Writing bits -/

/-- One round of the loop of `push_bits`. -/
def pushBit (bit : Bool) (e : Hse) : Hse × List UInt8 :=
  let byte := if bit then e.currentByte ||| e.bitIndex else e.currentByte
  if e.bitIndex >>> 1 = 0 then ({ e with currentByte := 0, bitIndex := 0x80 }, [byte])
  else ({ e with currentByte := byte, bitIndex := e.bitIndex >>> 1 }, [])

/-- The loop of `push_bits`, down from bit `i - 1`. -/
def pushBitsLoop (bits : ℕ) : ℕ → Hse → List UInt8 → Hse × List UInt8
  | 0, e, out => (e, out)
  | i + 1, e, out =>
      let (e, byte) := e.pushBit (bits.testBit i)
      pushBitsLoop bits i e (out ++ byte)

/-- `push_bits`: a whole byte at the start of a byte is pushed through. -/
def pushBits (count bits : ℕ) (e : Hse) : Hse × List UInt8 :=
  if count = 8 ∧ e.bitIndex = 0x80 then (e, [UInt8.ofNat bits])
  else pushBitsLoop bits count e []

/-- `push_outgoing_bits`; it returns `count` as well. -/
def pushOutgoingBits (e : Hse) : ℕ × Hse × List UInt8 :=
  let count := if 8 < e.outgoingBitsCount then 8 else e.outgoingBitsCount
  let bits :=
    if 8 < e.outgoingBitsCount then e.outgoingBits >>> (e.outgoingBitsCount - 8)
    else e.outgoingBits
  if 0 < count then
    let (e, out) := e.pushBits count bits
    (count, { e with outgoingBitsCount := e.outgoingBitsCount - count }, out)
  else (count, e, [])

/-! ## The steps -/

/-- `st_step_search`. -/
def stStepSearch (e : Hse) : Hse :=
  let msi := e.matchScanIndex
  if e.inputSize < msi + (if e.finishing then 1 else getLookaheadSize) then
    { e with state := if e.finishing then .flushBits else .saveBacklog }
  else
    let needle := getInputBufferSize + msi
    let start := needle - getInputBufferSize
    let maxPossible :=
      if e.inputSize - msi < getLookaheadSize then e.inputSize - msi else getLookaheadSize
    match findLongestMatch e.buffer e.searchIndex start needle maxPossible with
    | none =>
        { e with matchScanIndex := msi + 1, matchLength := 0, state := .yieldTagBit }
    | some (matchPos, matchLength) =>
        { e with matchPos := matchPos, matchLength := matchLength, state := .yieldTagBit }

/-- `st_yield_tag_bit` with `room` bytes left in the output buffer. -/
def stYieldTagBit (room : ℕ) (e : Hse) : Hse × List UInt8 :=
  if 0 < room then
    if e.matchLength = 0 then
      let (e, out) := e.pushBits 1 1
      ({ e with state := .yieldLiteral }, out)
    else
      let (e, out) := e.pushBits 1 0
      ({ e with
        outgoingBits := e.matchPos - 1
        outgoingBitsCount := 8
        state := .yieldBrIndex }, out)
  else (e, [])

/-- `st_yield_literal`. -/
def stYieldLiteral (room : ℕ) (e : Hse) : Hse × List UInt8 :=
  if 0 < room then
    let processedOffset := e.matchScanIndex - 1
    let c := e.buffer (getInputBufferSize + processedOffset)
    let (e, out) := e.pushBits 8 c.toNat
    ({ e with state := .search }, out)
  else (e, [])

/-- `st_yield_br_index`. -/
def stYieldBrIndex (room : ℕ) (e : Hse) : Hse × List UInt8 :=
  if 0 < room then
    let (count, e, out) := e.pushOutgoingBits
    if 0 < count then (e, out)
    else
      ({ e with
        outgoingBits := e.matchLength - 1
        outgoingBitsCount := 4
        state := .yieldBrLength }, out)
  else (e, [])

/-- `st_yield_br_length`. -/
def stYieldBrLength (room : ℕ) (e : Hse) : Hse × List UInt8 :=
  if 0 < room then
    let (count, e, out) := e.pushOutgoingBits
    if 0 < count then (e, out)
    else
      ({ e with
        matchScanIndex := e.matchScanIndex + e.matchLength
        matchLength := 0
        state := .search }, out)
  else (e, [])

/-- `st_save_backlog`: the window moves up to what was processed. -/
def stSaveBacklog (e : Hse) : Hse :=
  let rem := getInputBufferSize - e.matchScanIndex
  let shiftSz := getInputBufferSize + rem
  { e with
    buffer := fun i =>
      if i < shiftSz then e.buffer (getInputBufferSize - rem + i) else e.buffer i
    matchScanIndex := 0
    inputSize := e.inputSize - (getInputBufferSize - rem)
    state := .notFull }

/-- `st_flush_bit_buffer`. -/
def stFlushBitBuffer (room : ℕ) (e : Hse) : Hse × List UInt8 :=
  if e.bitIndex = 0x80 then ({ e with state := .done }, [])
  else if 0 < room then ({ e with state := .done }, [e.currentByte])
  else (e, [])

/-- The switch of `heatshrink_encoder_poll`, but for the states in which it returns. -/
def step (room : ℕ) (e : Hse) : Hse × List UInt8 :=
  match e.state with
  | .filled => ({ e.doIndexing with state := .search }, [])
  | .search => (e.stStepSearch, [])
  | .yieldTagBit => e.stYieldTagBit room
  | .yieldLiteral => e.stYieldLiteral room
  | .yieldBrIndex => e.stYieldBrIndex room
  | .yieldBrLength => e.stYieldBrLength room
  | .saveBacklog => (e.stSaveBacklog, [])
  | .notFull | .flushBits | .done => (e, [])

/-- The loop of `heatshrink_encoder_poll`: it ends in a state that needs input, at the
end, where `HSES_FLUSH_BITS` falls through to `HSES_DONE`, or when the state stays and
the output buffer is full.  `fuel` bounds the rounds. -/
def pollSteps (outBufSize : ℕ) : ℕ → Hse → List UInt8 → Bool × List UInt8 × Hse
  | 0, e, out => (false, out, e)
  | fuel + 1, e, out =>
      match e.state with
      | .notFull | .done => (false, out, e)
      | .flushBits =>
          let (e, emitted) := e.stFlushBitBuffer (outBufSize - out.length)
          (false, out ++ emitted, e)
      | _ =>
          let (e', emitted) := e.step (outBufSize - out.length)
          if e'.state = e.state ∧ (out ++ emitted).length = outBufSize then
            (true, out ++ emitted, e')
          else pollSteps outBufSize fuel e' (out ++ emitted)

/-! ## The calls -/

/-- `heatshrink_encoder_reset`; the index is as `malloc` left it. -/
def reset (searchIndex : ℕ → Option ℕ) : Hse where
  inputSize := 0
  matchScanIndex := 0
  matchLength := 0
  matchPos := 0
  outgoingBits := 0
  outgoingBitsCount := 0
  finishing := false
  state := .notFull
  currentByte := 0
  bitIndex := 0x80
  searchIndex := searchIndex
  buffer := fun _ => 0

/-- `heatshrink_encoder_sink`; `none` is `HSER_SINK_ERROR_MISUSE`. -/
def sink (e : Hse) (inBuf : List UInt8) : Option ℕ × Hse :=
  if e.finishing then (none, e)
  else if e.state ≠ .notFull then (none, e)
  else
    let writeOffset := getInputBufferSize + e.inputSize
    let rem := getInputBufferSize - e.inputSize
    let cpSz := if rem < inBuf.length then rem else inBuf.length
    (some cpSz,
      { e with
        buffer := fun i =>
          if writeOffset ≤ i ∧ i < writeOffset + cpSz then inBuf.getD (i - writeOffset) 0
          else e.buffer i
        inputSize := e.inputSize + cpSz
        state := if cpSz = rem then .filled else e.state })

/-- How many rounds a poll can take. -/
def rounds (e : Hse) : ℕ :=
  8 * e.inputSize + 8

/-- `heatshrink_encoder_poll`: whether it returns `HSER_POLL_MORE`, and what it writes.
Without an output buffer it is a misuse and does nothing. -/
def poll (e : Hse) (outBufSize : ℕ) : Bool × List UInt8 × Hse :=
  if outBufSize = 0 then (false, [], e)
  else pollSteps outBufSize e.rounds e []

/-- `heatshrink_encoder_finish`: whether there is more to poll. -/
def finish (e : Hse) : Bool × Hse :=
  let e := { e with
    finishing := true
    state := if e.state = .notFull then .filled else e.state }
  (decide (e.state ≠ .done), e)

end Hse

/-- `heatshrink_encoder_alloc(8, 4)`. -/
def hse (searchIndex : ℕ → Option ℕ) : HeatshrinkEncoder where
  State := Hse
  alloc := .reset searchIndex
  sink := Hse.sink
  poll := Hse.poll
  finish := Hse.finish

end LifiAuth.Heatshrink
