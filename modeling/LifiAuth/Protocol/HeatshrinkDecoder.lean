import LifiAuth.Protocol.Heatshrink

/-!
# The heatshrink decoder

`heatshrink_decoder.c` for window 8 and lookahead 4, which is how both receivers
allocate it.  With these sizes an index and a count take one step each: the two
states for their most significant bits are never entered.
-/

namespace LifiAuth.Heatshrink

open Support

/-! ## The input of the decoder -/

/-- The fields of `heatshrink_decoder` that hold input: the first `input_size` bytes
of the input buffer, and how many bits of `current_byte` are left, where the source
keeps the mask of the next one. -/
structure HsdInput where
  inputBuffer : List UInt8
  inputIndex : ℕ
  currentByte : UInt8
  bitIndex : ℕ

namespace HsdInput

/-- The byte that `get_bits` goes on to; reading the last one empties the buffer. -/
def pullByte (i : HsdInput) : HsdInput :=
  let byte := i.inputBuffer.getD i.inputIndex 0
  if i.inputIndex + 1 = i.inputBuffer.length then
    { inputBuffer := [], inputIndex := 0, currentByte := byte, bitIndex := 8 }
  else
    { i with inputIndex := i.inputIndex + 1, currentByte := byte, bitIndex := 8 }

/-- The next bit. -/
def takeBit (i : HsdInput) : Bool × HsdInput :=
  let i := if i.bitIndex = 0 then i.pullByte else i
  (i.currentByte.toNat.testBit (i.bitIndex - 1), { i with bitIndex := i.bitIndex - 1 })

/-- The loop of `get_bits`. -/
def getBitsLoop : ℕ → ℕ → HsdInput → Option ℕ × HsdInput
  | 0, accumulator, i => (some accumulator, i)
  | count + 1, accumulator, i =>
      if i.bitIndex = 0 ∧ i.inputBuffer = [] then (none, i)
      else
        let (bit, i) := i.takeBit
        getBitsLoop count (2 * accumulator + bit.toNat) i

/-- `get_bits`; `none` is `NO_BITS`. -/
def getBits (count : ℕ) (i : HsdInput) : Option ℕ × HsdInput :=
  if i.inputBuffer = [] ∧ i.bitIndex < count then (none, i)
  else getBitsLoop count 0 i

end HsdInput

/-! ## States -/

inductive HsdState where
  | tagBit
  | yieldLiteral
  | backrefIndexLsb
  | backrefCountLsb
  | yieldBackref
  deriving DecidableEq

/-- `heatshrink_decoder`.  Of `head_index` only the low bits are ever used. -/
structure Hsd where
  input : HsdInput
  outputCount : ℕ
  outputIndex : ℕ
  headIndex : ℕ
  state : HsdState
  window : ℕ → UInt8

namespace Hsd

/-- `heatshrink_decoder_reset`. -/
def reset : Hsd where
  input := ⟨[], 0, 0, 0⟩
  outputCount := 0
  outputIndex := 0
  headIndex := 0
  state := .tagBit
  window := fun _ => 0

/-- `heatshrink_decoder_sink` with an input buffer of `inputBufferSize` bytes; a full
buffer takes nothing and is no error. -/
def sink (inputBufferSize : ℕ) (d : Hsd) (inBuf : List UInt8) : Option ℕ × Hsd :=
  let rem := inputBufferSize - d.input.inputBuffer.length
  let size := min rem inBuf.length
  (some size, { d with input := { d.input with
    inputBuffer := d.input.inputBuffer ++ inBuf.take size } })

def stTagBit (d : Hsd) : Hsd :=
  match d.input.getBits 1 with
  | (none, i) => { d with input := i }
  | (some bits, i) =>
      if bits ≠ 0 then { d with input := i, state := .yieldLiteral }
      else { d with input := i, outputIndex := 0, state := .backrefIndexLsb }

/-- A byte for the window. -/
def pushWindow (c : UInt8) (d : Hsd) : Hsd :=
  { d with
    window := Function.update d.window (d.headIndex % 256) c
    headIndex := d.headIndex + 1 }

/-- `st_yield_literal` with `room` bytes left in the output buffer. -/
def stYieldLiteral (room : ℕ) (d : Hsd) : Hsd × List UInt8 :=
  if 0 < room then
    match d.input.getBits 8 with
    | (none, i) => ({ d with input := i }, [])
    | (some byte, i) =>
        let c := UInt8.ofNat byte
        ({ d.pushWindow c with input := i, state := .tagBit }, [c])
  else (d, [])

def stBackrefIndexLsb (d : Hsd) : Hsd :=
  match d.input.getBits 8 with
  | (none, i) => { d with input := i }
  | (some bits, i) =>
      { d with
        input := i
        outputIndex := (d.outputIndex ||| bits) + 1
        outputCount := 0
        state := .backrefCountLsb }

def stBackrefCountLsb (d : Hsd) : Hsd :=
  match d.input.getBits 4 with
  | (none, i) => { d with input := i }
  | (some bits, i) =>
      { d with
        input := i
        outputCount := (d.outputCount ||| bits) + 1
        state := .yieldBackref }

/-- The loop of `st_yield_backref`. -/
def emitBackref : ℕ → Hsd → List UInt8 → Hsd × List UInt8
  | 0, d, out => (d, out)
  | count + 1, d, out =>
      let c := d.window ((d.headIndex + 256 - d.outputIndex) % 256)
      emitBackref count (d.pushWindow c) (out ++ [c])

/-- `st_yield_backref` with `room` bytes left in the output buffer. -/
def stYieldBackref (room : ℕ) (d : Hsd) : Hsd × List UInt8 :=
  if 0 < room then
    let count := min d.outputCount room
    let (d, out) := emitBackref count d []
    let d := { d with outputCount := d.outputCount - count }
    if d.outputCount = 0 then ({ d with state := .tagBit }, out) else (d, out)
  else (d, [])

/-- The switch of `heatshrink_decoder_poll`. -/
def step (room : ℕ) (d : Hsd) : Hsd × List UInt8 :=
  match d.state with
  | .tagBit => (d.stTagBit, [])
  | .yieldLiteral => d.stYieldLiteral room
  | .backrefIndexLsb => (d.stBackrefIndexLsb, [])
  | .backrefCountLsb => (d.stBackrefCountLsb, [])
  | .yieldBackref => d.stYieldBackref room

/-- The loop of `heatshrink_decoder_poll`: it ends when the state stays, and there is
more if the output buffer is full.  `fuel` bounds the rounds. -/
def pollSteps (outBufSize : ℕ) : ℕ → Hsd → List UInt8 → Bool × List UInt8 × Hsd
  | 0, d, out => (false, out, d)
  | fuel + 1, d, out =>
      let (d', emitted) := d.step (outBufSize - out.length)
      if d'.state = d.state then
        (decide ((out ++ emitted).length = outBufSize), out ++ emitted, d')
      else pollSteps outBufSize fuel d' (out ++ emitted)

/-- How many bits are left to read. -/
def bitsLeft (d : Hsd) : ℕ :=
  d.input.bitIndex + 8 * (d.input.inputBuffer.length - d.input.inputIndex)

/-- `heatshrink_decoder_poll`. -/
def poll (d : Hsd) (outBufSize : ℕ) : Bool × List UInt8 × Hsd :=
  pollSteps outBufSize (2 * d.bitsLeft + 2) d []

/-- `heatshrink_decoder_finish`: whether there is more to poll. -/
def finish (d : Hsd) : Bool × Hsd :=
  match d.state with
  | .tagBit | .yieldLiteral | .backrefIndexLsb | .backrefCountLsb =>
      (!d.input.inputBuffer.isEmpty, d)
  | .yieldBackref => (true, d)

end Hsd

/-- `heatshrink_decoder_alloc(inputBufferSize, 8, 4)`. -/
def hsd (inputBufferSize : ℕ) : HeatshrinkDecoder where
  State := Hsd
  alloc := .reset
  sink := Hsd.sink inputBufferSize
  poll := Hsd.poll
  finish := Hsd.finish

/-! ## Reading bits -/

namespace HsdInput

/-- The bits that are left to read. -/
def bits (i : HsdInput) : List Bool :=
  (bitsOf i.currentByte).drop (8 - i.bitIndex) ++
    (i.inputBuffer.drop i.inputIndex).flatMap bitsOf

/-- A byte is pulled only when a bit of it is needed, and the buffer is emptied with
its last byte. -/
structure Wf (i : HsdInput) : Prop where
  bitIndex_lt : i.bitIndex < 8
  inputIndex_lt : i.inputBuffer ≠ [] → i.inputIndex < i.inputBuffer.length
  inputIndex_eq : i.inputBuffer = [] → i.inputIndex = 0

/-- `i'` is what some reading left of `i`. -/
structure Reads (i i' : HsdInput) : Prop where
  wf : i'.Wf
  buffer : i'.inputBuffer = [] ∨ i'.inputBuffer = i.inputBuffer

theorem length_flatMap_bitsOf (xs : List UInt8) :
    (xs.flatMap bitsOf).length = 8 * xs.length := by
  induction xs with
  | nil => rfl
  | cons b xs ih =>
      have hbyte : (bitsOf b).length = 8 := rfl
      rw [List.flatMap_cons, List.length_append, ih, hbyte, List.length_cons]
      omega

theorem length_bits {i : HsdInput} (hwf : i.Wf) :
    i.bits.length = i.bitIndex + 8 * (i.inputBuffer.length - i.inputIndex) := by
  have hbyte : (bitsOf i.currentByte).length = 8 := rfl
  have hindex := hwf.bitIndex_lt
  rw [bits, List.length_append, List.length_drop, length_flatMap_bitsOf, hbyte,
    List.length_drop]
  omega

/-- The buffer is empty when less than a byte is left. -/
theorem inputBuffer_eq_nil_iff {i : HsdInput} (hwf : i.Wf) :
    i.inputBuffer = [] ↔ i.bits.length < 8 := by
  have hlen := length_bits hwf
  have hindex := hwf.bitIndex_lt
  constructor
  · intro hnil
    rw [hnil, hwf.inputIndex_eq hnil] at hlen
    simp only [List.length_nil] at hlen
    omega
  · intro hlt
    by_contra hne
    have := hwf.inputIndex_lt hne
    omega

theorem drop_bitsOf (b : UInt8) {k : ℕ} (hk : k < 8) :
    (bitsOf b).drop (8 - (k + 1)) = b.toNat.testBit k :: (bitsOf b).drop (8 - k) := by
  have hbyte : (bitsOf b).length = 8 := rfl
  rw [List.drop_eq_getElem_cons (by omega)]
  congr 1
  · simp only [bitsOf, List.getElem_map, List.getElem_range]
    congr 1
    omega
  · congr 1
    omega

theorem takeBit_of_bits {i : HsdInput} (hwf : i.Wf) {bit : Bool} {rest : List Bool}
    (hbits : i.bits = bit :: rest) :
    ¬ (i.bitIndex = 0 ∧ i.inputBuffer = []) ∧
      ∃ i', i.takeBit = (bit, i') ∧ i'.bits = rest ∧ i.Reads i' := by
  have hindex := hwf.bitIndex_lt
  have hlen := length_bits hwf
  rw [hbits, List.length_cons] at hlen
  refine ⟨?_, ?_⟩
  · rintro ⟨hzero, hnil⟩
    rw [hzero, hnil] at hlen
    simp only [List.length_nil] at hlen
    omega
  by_cases hzero : i.bitIndex = 0
  · -- the next byte
    have hlt : i.inputIndex < i.inputBuffer.length := by omega
    have hseven : (7 : ℕ) < 8 := by decide
    have hbyte : bitsOf i.inputBuffer[i.inputIndex] =
        i.inputBuffer[i.inputIndex].toNat.testBit 7 ::
          (bitsOf i.inputBuffer[i.inputIndex]).drop 1 :=
      drop_bitsOf _ hseven
    have hget : i.inputBuffer.getD i.inputIndex 0 = i.inputBuffer[i.inputIndex] := by
      rw [List.getD_eq_getElem?_getD, List.getElem?_eq_getElem hlt, Option.getD_some]
    have hspent : (bitsOf i.currentByte).drop (8 - 0) = [] := rfl
    rw [bits, hzero, hspent, List.nil_append, List.drop_eq_getElem_cons hlt,
      List.flatMap_cons, hbyte, List.cons_append] at hbits
    obtain ⟨rfl, rfl⟩ := List.cons.inj hbits
    rw [takeBit, if_pos hzero, pullByte, hget]
    split
    · next hlast =>
        refine ⟨_, rfl, ?_, ⟨hseven, fun h => absurd rfl h, fun _ => rfl⟩, Or.inl rfl⟩
        rw [hlast, List.drop_length]
        rfl
    · exact ⟨_, rfl, rfl, ⟨hseven, fun _ => by simp only; omega,
        fun h => by rw [h] at hlt; exact absurd hlt (Nat.not_lt_zero _)⟩, Or.inr rfl⟩
  · -- the next bit of the current byte
    obtain ⟨k, hk⟩ := Nat.exists_eq_succ_of_ne_zero hzero
    rw [bits, hk, drop_bitsOf _ (by omega)] at hbits
    obtain ⟨rfl, rfl⟩ := List.cons.inj hbits
    have hk8 : k < 8 := by omega
    refine ⟨{ i with bitIndex := k }, ?_, rfl, ?_⟩
    · rw [takeBit, if_neg hzero, hk]
      rfl
    · exact ⟨⟨hk8, hwf.inputIndex_lt, hwf.inputIndex_eq⟩, Or.inr rfl⟩

theorem Reads.trans {i i' i'' : HsdInput} (h : i.Reads i') (h' : i'.Reads i'') :
    i.Reads i'' := by
  refine ⟨h'.wf, ?_⟩
  rcases h'.buffer with hnil | heq
  · exact Or.inl hnil
  · rw [heq]
    exact h.buffer

theorem getBitsLoop_of_le (count accumulator : ℕ) {i : HsdInput} (hwf : i.Wf)
    (hcount : count ≤ i.bits.length) :
    ∃ i', i.getBitsLoop count accumulator =
        (some ((i.bits.take count).foldl (fun n bit => 2 * n + bit.toNat) accumulator),
          i') ∧
      i'.bits = i.bits.drop count ∧ i.Reads i' := by
  induction count generalizing i accumulator with
  | zero => exact ⟨i, rfl, rfl, hwf, Or.inr rfl⟩
  | succ count ih =>
      obtain ⟨bit, rest, hbits⟩ := List.exists_cons_of_length_pos
        (Nat.lt_of_lt_of_le (Nat.succ_pos count) hcount)
      obtain ⟨hsome, i₁, htake, hrest, hreads⟩ := takeBit_of_bits hwf hbits
      rw [hbits, List.length_cons] at hcount
      obtain ⟨i', hloop, hdrop, hreads'⟩ :=
        ih (2 * accumulator + bit.toNat) hreads.wf (by rw [hrest]; omega)
      refine ⟨i', ?_, ?_, hreads.trans hreads'⟩
      · rw [getBitsLoop, if_neg hsome, htake, hbits]
        simp only [hloop, hrest]
        rfl
      · rw [hdrop, hrest, hbits]
        rfl

/-- Too few bits are left alone. -/
theorem getBits_of_lt {count : ℕ} {i : HsdInput} (hwf : i.Wf) (hcount : count ≤ 8)
    (hbits : i.bits.length < count) : i.getBits count = (none, i) := by
  have hnil := (inputBuffer_eq_nil_iff hwf).mpr (by omega)
  have hlen := length_bits hwf
  refine if_pos ⟨hnil, ?_⟩
  omega

theorem getBits_of_le {count : ℕ} {i : HsdInput} (hwf : i.Wf)
    (hbits : count ≤ i.bits.length) :
    ∃ i', i.getBits count = (some (natOf (i.bits.take count)), i') ∧
      i'.bits = i.bits.drop count ∧ i.Reads i' := by
  have hlen := length_bits hwf
  have hnone : ¬ (i.inputBuffer = [] ∧ i.bitIndex < count) := by
    rintro ⟨hnil, hlt⟩
    rw [hnil] at hlen
    simp only [List.length_nil] at hlen
    omega
  rw [getBits, if_neg hnone]
  exact getBitsLoop_of_le count 0 hwf hbits

/-- The bits are read, or there are too few of them and nothing is. -/
theorem getBits_cases {count : ℕ} {i : HsdInput} (hwf : i.Wf) (hcount : count ≤ 8) :
    (count ≤ i.bits.length ∧
      ∃ i', i.getBits count = (some (natOf (i.bits.take count)), i') ∧
        i'.bits = i.bits.drop count ∧ i.Reads i') ∨
      i.bits.length < count ∧ i.getBits count = (none, i) := by
  by_cases hbits : count ≤ i.bits.length
  · exact Or.inl ⟨hbits, getBits_of_le hwf hbits⟩
  · have hlt := Nat.lt_of_not_le hbits
    exact Or.inr ⟨hlt, getBits_of_lt hwf hcount hlt⟩

end HsdInput

/-! ## What a round of the poll loop can do -/

/-- How many bits a state reads. -/
def HsdState.reads : HsdState → ℕ
  | tagBit => 1
  | yieldLiteral | backrefIndexLsb => 8
  | backrefCountLsb => 4
  | yieldBackref => 0

namespace Hsd

/-- Not enough bits for the next step. -/
def Starved (d : Hsd) : Prop :=
  d.input.bits.length < d.state.reads

/-- The next step writes. -/
def Yields (d : Hsd) : Prop :=
  d.state = .yieldLiteral ∨ d.state = .yieldBackref

/-- One round with `room` bytes left, and what it writes. -/
inductive Steps (room : ℕ) (d : Hsd) : Hsd → List UInt8 → Prop where
  | starved : d.Starved → Steps room d d []
  | blocked : d.Yields → room = 0 → Steps room d d []
  | tagLiteral {i : HsdInput} : d.state = .tagBit → d.input.bits = true :: i.bits →
      d.input.Reads i → Steps room d { d with input := i, state := .yieldLiteral } []
  | tagBackref {i : HsdInput} : d.state = .tagBit → d.input.bits = false :: i.bits →
      d.input.Reads i →
      Steps room d
        { d with input := i, outputIndex := 0, state := .backrefIndexLsb } []
  | literal {i : HsdInput} {c : UInt8} : d.state = .yieldLiteral → 0 < room →
      8 ≤ d.input.bits.length → c = byteOf (d.input.bits.take 8) →
      i.bits = d.input.bits.drop 8 → d.input.Reads i →
      Steps room d { d.pushWindow c with input := i, state := .tagBit } [c]
  | index {i : HsdInput} : d.state = .backrefIndexLsb → 8 ≤ d.input.bits.length →
      i.bits = d.input.bits.drop 8 → d.input.Reads i →
      Steps room d
        { d with
          input := i
          outputIndex := (d.outputIndex ||| natOf (d.input.bits.take 8)) + 1
          outputCount := 0
          state := .backrefCountLsb } []
  | count {i : HsdInput} : d.state = .backrefCountLsb → 4 ≤ d.input.bits.length →
      i.bits = d.input.bits.drop 4 → d.input.Reads i →
      Steps room d
        { d with
          input := i
          outputCount := (d.outputCount ||| natOf (d.input.bits.take 4)) + 1
          state := .yieldBackref } []
  | copied : d.state = .yieldBackref → 0 < room → d.outputCount ≤ room →
      Steps room d
        { (emitBackref d.outputCount d []).1 with outputCount := 0, state := .tagBit }
        (emitBackref d.outputCount d []).2
  | copying : d.state = .yieldBackref → 0 < room → room < d.outputCount →
      Steps room d
        { (emitBackref room d []).1 with outputCount := d.outputCount - room }
        (emitBackref room d []).2

theorem emitBackref_fst (count : ℕ) (d : Hsd) (out : List UInt8) :
    ∃ window, (emitBackref count d out).1 =
      { d with window := window, headIndex := d.headIndex + count } := by
  induction count generalizing d out with
  | zero => exact ⟨d.window, rfl⟩
  | succ count ih =>
      obtain ⟨window, hwindow⟩ := ih (d.pushWindow
        (d.window ((d.headIndex + 256 - d.outputIndex) % 256))) _
      refine ⟨window, hwindow.trans ?_⟩
      simp only [pushWindow, Nat.add_assoc, Nat.add_comm 1 count]

theorem length_emitBackref (count : ℕ) (d : Hsd) (out : List UInt8) :
    (emitBackref count d out).2.length = out.length + count := by
  induction count generalizing d out with
  | zero => rfl
  | succ count ih =>
      rw [emitBackref, ih, List.length_append, List.length_singleton]
      omega

theorem starved_of_length_lt {d : Hsd} {state : HsdState} (hstate : d.state = state)
    (hlen : d.input.bits.length < state.reads) : d.Starved := by
  rw [Starved, hstate]
  exact hlen

theorem steps_stTagBit {d : Hsd} (hwf : d.input.Wf) (hstate : d.state = .tagBit)
    (room : ℕ) : d.Steps room d.stTagBit [] := by
  rw [stTagBit]
  rcases HsdInput.getBits_cases hwf (show 1 ≤ 8 by decide) with
    ⟨hlen, i, hget, hdrop, hreads⟩ | ⟨hlen, hget⟩
  · obtain ⟨bit, rest, hbits⟩ := List.exists_cons_of_length_pos hlen
    rw [hbits, List.drop_succ_cons, List.drop_zero] at hdrop
    rw [← hdrop] at hbits
    rw [hget, hbits]
    cases bit with
    | true => exact .tagLiteral hstate hbits hreads
    | false => exact .tagBackref hstate hbits hreads
  · rw [hget]
    exact .starved (starved_of_length_lt hstate hlen)

theorem steps_stYieldLiteral {d : Hsd} (hwf : d.input.Wf)
    (hstate : d.state = .yieldLiteral) (room : ℕ) :
    d.Steps room (d.stYieldLiteral room).1 (d.stYieldLiteral room).2 := by
  by_cases hroom : 0 < room
  · rw [stYieldLiteral, if_pos hroom]
    rcases HsdInput.getBits_cases hwf (show 8 ≤ 8 by decide) with
      ⟨hlen, i, hget, hdrop, hreads⟩ | ⟨hlen, hget⟩
    · rw [hget]
      exact .literal hstate hroom hlen rfl hdrop hreads
    · rw [hget]
      exact .starved (starved_of_length_lt hstate hlen)
  · rw [stYieldLiteral, if_neg hroom]
    exact .blocked (Or.inl hstate) (Nat.eq_zero_of_not_pos hroom)

theorem steps_stBackrefIndexLsb {d : Hsd} (hwf : d.input.Wf)
    (hstate : d.state = .backrefIndexLsb) (room : ℕ) :
    d.Steps room d.stBackrefIndexLsb [] := by
  rw [stBackrefIndexLsb]
  rcases HsdInput.getBits_cases hwf (show 8 ≤ 8 by decide) with
    ⟨hlen, i, hget, hdrop, hreads⟩ | ⟨hlen, hget⟩
  · rw [hget]
    exact .index hstate hlen hdrop hreads
  · rw [hget]
    exact .starved (starved_of_length_lt hstate hlen)

theorem steps_stBackrefCountLsb {d : Hsd} (hwf : d.input.Wf)
    (hstate : d.state = .backrefCountLsb) (room : ℕ) :
    d.Steps room d.stBackrefCountLsb [] := by
  rw [stBackrefCountLsb]
  rcases HsdInput.getBits_cases hwf (show 4 ≤ 8 by decide) with
    ⟨hlen, i, hget, hdrop, hreads⟩ | ⟨hlen, hget⟩
  · rw [hget]
    exact .count hstate hlen hdrop hreads
  · rw [hget]
    exact .starved (starved_of_length_lt hstate hlen)

theorem steps_stYieldBackref {d : Hsd} (hstate : d.state = .yieldBackref)
    (room : ℕ) : d.Steps room (d.stYieldBackref room).1 (d.stYieldBackref room).2 := by
  by_cases hroom : 0 < room
  · have hcount (n : ℕ) : (emitBackref n d []).1.outputCount = d.outputCount := by
      obtain ⟨window, hwindow⟩ := emitBackref_fst n d []
      rw [hwindow]
    rw [stYieldBackref, if_pos hroom]
    by_cases hle : d.outputCount ≤ room
    · rw [Nat.min_eq_left hle]
      simp only [hcount, Nat.sub_self, if_true]
      exact .copied hstate hroom hle
    · have hlt := Nat.lt_of_not_le hle
      rw [Nat.min_eq_right hlt.le]
      simp only [hcount, Nat.sub_ne_zero_of_lt hlt, if_false]
      exact .copying hstate hroom hlt
  · rw [stYieldBackref, if_neg hroom]
    exact .blocked (Or.inr hstate) (Nat.eq_zero_of_not_pos hroom)

theorem steps_step {d : Hsd} (hwf : d.input.Wf) (room : ℕ) :
    d.Steps room (d.step room).1 (d.step room).2 := by
  cases hstate : d.state with
  | tagBit =>
      rw [step, hstate]
      exact steps_stTagBit hwf hstate room
  | yieldLiteral =>
      rw [step, hstate]
      exact steps_stYieldLiteral hwf hstate room
  | backrefIndexLsb =>
      rw [step, hstate]
      exact steps_stBackrefIndexLsb hwf hstate room
  | backrefCountLsb =>
      rw [step, hstate]
      exact steps_stBackrefCountLsb hwf hstate room
  | yieldBackref =>
      rw [step, hstate]
      exact steps_stYieldBackref hstate room

/-! ## The poll loop -/

theorem length_step_le (room : ℕ) (d : Hsd) : (d.step room).2.length ≤ room := by
  rw [step]
  cases d.state with
  | yieldLiteral =>
      simp only [stYieldLiteral]
      split
      · split
        · exact Nat.zero_le _
        · assumption
      · exact Nat.zero_le _
  | yieldBackref =>
      simp only [stYieldBackref]
      split
      · split
        · rw [length_emitBackref, List.length_nil, Nat.zero_add]
          exact Nat.min_le_right _ _
        · rw [length_emitBackref, List.length_nil, Nat.zero_add]
          exact Nat.min_le_right _ _
      · exact Nat.zero_le _
  | _ => exact Nat.zero_le _

theorem length_pollSteps_le {size fuel : ℕ} {d : Hsd} {out : List UInt8}
    (hout : out.length ≤ size) : (pollSteps size fuel d out).2.1.length ≤ size := by
  induction fuel generalizing d out with
  | zero => exact hout
  | succ fuel ih =>
      have hlen := length_step_le (size - out.length) d
      have hout' : (out ++ (d.step (size - out.length)).2).length ≤ size := by
        rw [List.length_append]
        omega
      rw [pollSteps]
      by_cases hsame : (d.step (size - out.length)).1.state = d.state
      · simp only [hsame, if_true]
        exact hout'
      · simp only [hsame, if_false]
        exact ih hout'

section

variable {room : ℕ} {d d' : Hsd} {emitted : List UInt8}

/-- A round only reads its input. -/
theorem Steps.reads (h : d.Steps room d' emitted) (hwf : d.input.Wf) :
    d.input.Reads d'.input := by
  cases h with
  | starved _ => exact ⟨hwf, Or.inr rfl⟩
  | blocked _ _ => exact ⟨hwf, Or.inr rfl⟩
  | tagLiteral _ _ hreads => exact hreads
  | tagBackref _ _ hreads => exact hreads
  | literal _ _ _ _ _ hreads => exact hreads
  | index _ _ _ hreads => exact hreads
  | count _ _ _ hreads => exact hreads
  | copied _ _ _ =>
      obtain ⟨window, hwindow⟩ := emitBackref_fst d.outputCount d []
      rw [hwindow]
      exact ⟨hwf, Or.inr rfl⟩
  | copying _ _ _ =>
      obtain ⟨window, hwindow⟩ := emitBackref_fst room d []
      rw [hwindow]
      exact ⟨hwf, Or.inr rfl⟩

theorem Steps.length_le (h : d.Steps room d' emitted) : emitted.length ≤ room := by
  cases h with
  | literal _ hroom => exact hroom
  | copied _ _ hle =>
      rw [length_emitBackref, List.length_nil, Nat.zero_add]
      exact hle
  | copying =>
      rw [length_emitBackref, List.length_nil, Nat.zero_add]
  | _ => exact Nat.zero_le _

/-- What the rounds use up. -/
def measure (d : Hsd) : ℕ :=
  2 * d.input.bits.length + if d.state = .yieldBackref then 1 else 0

/-- A round that stays in its state lacks bits or room; any other one uses up
something. -/
theorem Steps.settles_or_lt (h : d.Steps room d' emitted) :
    (d'.state = d.state ∧
      ((d'.Starved ∧ d' = d ∧ emitted = []) ∨ d'.Yields ∧ emitted.length = room)) ∨
      d'.state ≠ d.state ∧ d'.measure < d.measure := by
  cases h with
  | starved hstarved => exact Or.inl ⟨rfl, Or.inl ⟨hstarved, rfl, rfl⟩⟩
  | blocked hyields hroom => exact Or.inl ⟨rfl, Or.inr ⟨hyields, hroom.symm⟩⟩
  | tagLiteral hstate hbits =>
      refine Or.inr ⟨by simp [hstate], ?_⟩
      simp [measure, hstate, hbits]
  | tagBackref hstate hbits =>
      refine Or.inr ⟨by simp [hstate], ?_⟩
      simp [measure, hstate, hbits]
  | literal hstate _ hlen _ hdrop =>
      refine Or.inr ⟨by simp [hstate], ?_⟩
      simp [measure, hstate, hdrop]
      omega
  | index hstate hlen hdrop =>
      refine Or.inr ⟨by simp [hstate], ?_⟩
      simp [measure, hstate, hdrop]
      omega
  | count hstate hlen hdrop =>
      refine Or.inr ⟨by simp [hstate], ?_⟩
      simp [measure, hstate, hdrop]
      omega
  | copied hstate =>
      obtain ⟨window, hwindow⟩ := emitBackref_fst d.outputCount d []
      refine Or.inr ⟨by simp [hstate], ?_⟩
      simp [measure, hstate, hwindow]
  | copying hstate =>
      obtain ⟨window, hwindow⟩ := emitBackref_fst room d []
      refine Or.inl ⟨by rw [hwindow], Or.inr ⟨Or.inr ?_, ?_⟩⟩
      · rw [hwindow]
        exact hstate
      · rw [length_emitBackref, List.length_nil, Nat.zero_add]

/-- The rule for the poll loop: what every round keeps holds at its end, where the
decoder lacks bits or the buffer is full. -/
theorem pollSteps_rule {P : Hsd → List UInt8 → Prop} {size : ℕ}
    (hstep : ∀ d d' out emitted, d.input.Wf → P d out →
      d.Steps (size - out.length) d' emitted → P d' (out ++ emitted))
    {fuel : ℕ} {out : List UInt8} (hwf : d.input.Wf) (hP : P d out)
    (hfuel : d.measure < fuel) (hout : out.length ≤ size) :
    let r := pollSteps size fuel d out
    r.2.2.input.Wf ∧ P r.2.2 r.2.1 ∧
      (r.1 = false ∧ r.2.1.length < size ∧ r.2.2.Starved ∨
        r.1 = true ∧ r.2.1.length = size ∧ (r.2.2.Starved ∨ r.2.2.Yields)) := by
  induction fuel generalizing d out with
  | zero => exact absurd hfuel (Nat.not_lt_zero _)
  | succ fuel ih =>
      have hsteps := steps_step hwf (size - out.length)
      have hwf' := (hsteps.reads hwf).wf
      have hP' := hstep _ _ _ _ hwf hP hsteps
      have hlen := length_step_le (size - out.length) d
      rw [pollSteps]
      rcases hsteps.settles_or_lt with ⟨hsame, hend⟩ | ⟨hne, hlt⟩
      · simp only [hsame, if_true]
        refine ⟨hwf', hP', ?_⟩
        have hlength : (out ++ (d.step (size - out.length)).2).length =
            out.length + (d.step (size - out.length)).2.length := List.length_append
        by_cases hfull : (out ++ (d.step (size - out.length)).2).length = size
        · refine Or.inr ⟨decide_eq_true hfull, hfull, ?_⟩
          rcases hend with ⟨hstarved, -⟩ | ⟨hyields, -⟩
          · exact Or.inl hstarved
          · exact Or.inr hyields
        · refine Or.inl ⟨decide_eq_false hfull, by omega, ?_⟩
          rcases hend with ⟨hstarved, -⟩ | ⟨-, hroom⟩
          · exact hstarved
          · omega
      · simp only [hne, if_false]
        exact ih hwf' hP' (by omega) (by rw [List.length_append]; omega)

theorem poll_rule {P : Hsd → List UInt8 → Prop} {size : ℕ}
    (hstep : ∀ d d' out emitted, d.input.Wf → P d out →
      d.Steps (size - out.length) d' emitted → P d' (out ++ emitted))
    (hwf : d.input.Wf) (hP : P d []) :
    let r := d.poll size
    r.2.2.input.Wf ∧ P r.2.2 r.2.1 ∧
      (r.1 = false ∧ r.2.1.length < size ∧ r.2.2.Starved ∨
        r.1 = true ∧ r.2.1.length = size ∧ (r.2.2.Starved ∨ r.2.2.Yields)) := by
  refine pollSteps_rule hstep hwf hP ?_ (Nat.zero_le _)
  rw [measure, HsdInput.length_bits hwf, bitsLeft]
  split <;> omega

end

end Hsd

end LifiAuth.Heatshrink
