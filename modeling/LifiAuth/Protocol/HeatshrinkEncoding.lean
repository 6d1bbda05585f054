import LifiAuth.Protocol.HeatshrinkSearch
import LifiAuth.Support.Machine
import Mathlib.Tactic.Ring

/-!
# The encoder encodes

Fed with any pieces and drained into any buffers, the encoder writes the code of what it
took.  At any time the bits written, those of the byte in work and those still owed for
the present token are the bits of the tokens cut off so far, and these begin the parse
of the text however it goes on.
-/

namespace LifiAuth.Heatshrink

open Support

/-! ## Packing bits -/

theorem natOf_cons (b : Bool) (p : List Bool) :
    natOf (b :: p) = b.toNat * 2 ^ p.length + natOf p := by
  have hfold : ∀ (p : List Bool) (m : ℕ),
      p.foldl (fun n bit => 2 * n + bit.toNat) m = m * 2 ^ p.length + natOf p := by
    intro p
    induction p with
    | nil => intro m; simp [natOf]
    | cons bit p ih =>
        intro m
        rw [natOf, List.foldl_cons, List.foldl_cons, ih, ih, List.length_cons,
          Nat.pow_succ']
        ring
  rw [natOf, List.foldl_cons, hfold]
  simp

theorem bitsFrom_natOf (p : List Bool) : bitsFrom p.length (natOf p) = p := by
  induction p with
  | nil => rfl
  | cons b p ih =>
      have hlt := natOf_lt p
      have hcons : natOf (b :: p) = 2 ^ p.length * b.toNat + natOf p := by
        rw [natOf_cons, Nat.mul_comm]
      rw [List.length_cons, bitsFrom_succ, hcons, Nat.testBit_two_pow_mul_add _ hlt,
        if_neg (Nat.lt_irrefl _), Nat.sub_self]
      congr 1
      · cases b <;> rfl
      · refine Eq.trans ?_ ih
        rw [bitsFrom, bitsFrom]
        refine List.map_congr_left fun i hi => ?_
        have hi := List.mem_range.mp hi
        rw [Nat.testBit_two_pow_mul_add _ hlt, if_pos (by omega)]

/-- A whole number of bytes is left as it is. -/
theorem packBits_append (ys : List UInt8) (n : ℕ) (rest : List Bool) :
    packBits (ys.length + n) (ys.flatMap bitsOf ++ rest) = ys ++ packBits n rest := by
  induction ys with
  | nil => simp
  | cons y ys ih =>
      have hbyte : (bitsOf y).length = 8 := rfl
      rw [List.length_cons, Nat.add_right_comm, packBits, List.flatMap_cons]
      simp only [List.append_assoc]
      rw [List.take_left' hbyte, byteOf_bitsOf, List.drop_left' hbyte, ih]
      rfl

/-- The byte in work holds the bits `p`, and `mask` is at the place behind them. -/
structure Packed (byte mask : UInt8) (p : List Bool) : Prop where
  short : p.length < 8
  byte : byte = byteOf (p ++ List.replicate (8 - p.length) false)
  mask : mask = 0x80 >>> UInt8.ofNat p.length

theorem packed_nil : Packed 0 0x80 [] :=
  ⟨by decide, by decide, by decide⟩

theorem Packed.eq_nil_iff {byte mask : UInt8} {p : List Bool} (h : Packed byte mask p) :
    mask = 0x80 ↔ p = [] := by
  have hall : ∀ n : Fin 8, (0x80 : UInt8) >>> UInt8.ofNat n = 0x80 ↔ n = 0 := by
    decide
  have hlen := hall ⟨p.length, h.short⟩
  rw [h.mask, hlen, ← List.length_eq_zero_iff]
  exact Fin.ext_iff

/-- Setting the bit at the mask puts it behind the others. -/
theorem Packed.push {byte mask : UInt8} {p : List Bool} (h : Packed byte mask p)
    (b : Bool) :
    if mask >>> 1 = 0 then
      p.length = 7 ∧ (if b then byte ||| mask else byte) = byteOf (p ++ [b])
    else Packed (if b then byte ||| mask else byte) (mask >>> 1) (p ++ [b]) := by
  have hall : ∀ (n : Fin 8) (v : Fin 128) (b : Bool),
      let p := bitsFrom n v
      let byte := byteOf (p ++ List.replicate (8 - n) false)
      let mask := (0x80 : UInt8) >>> UInt8.ofNat n
      let byte' := if b then byte ||| mask else byte
      if mask >>> 1 = 0 then n = 7 ∧ byte' = byteOf (p ++ [b])
      else n.val < 7 ∧ byte' = byteOf (p ++ [b] ++ List.replicate (7 - n) false) ∧
        mask >>> 1 = (0x80 : UInt8) >>> UInt8.ofNat (n + 1) := by
    decide +kernel
  obtain ⟨hshort, rfl, rfl⟩ := h
  have hvalue : natOf p < 128 := by
    have hlt := natOf_lt p
    have hpow : 2 ^ p.length ≤ 2 ^ 7 := Nat.pow_le_pow_right (by decide) (by omega)
    omega
  have hcase := hall ⟨p.length, hshort⟩ ⟨natOf p, hvalue⟩ b
  simp only [bitsFrom_natOf] at hcase
  split
  · next hfull =>
      rw [if_pos hfull] at hcase
      exact ⟨congrArg Fin.val hcase.1, hcase.2⟩
  · next hroom =>
      rw [if_neg hroom] at hcase
      obtain ⟨hlt, hbyte, hmask⟩ := hcase
      have hlen : (p ++ [b]).length = p.length + 1 := by simp
      refine ⟨by omega, ?_, ?_⟩
      · rw [hlen, hbyte]
        congr 3
        omega
      · rw [hlen]
        exact hmask

/-- The byte that is flushed at the end. -/
theorem Packed.flush {byte mask : UInt8} {p : List Bool} (h : Packed byte mask p) :
    packBits 1 p = [byte] := by
  have hshort := h.short
  have htake : (p ++ List.replicate 8 false).take 8 =
      p ++ List.replicate (8 - p.length) false := by
    rw [List.take_append, List.take_of_length_le (by omega), List.take_replicate,
      Nat.min_eq_left (by omega)]
  rw [packBits, htake, ← h.byte]
  rfl

namespace Hse

variable {e : Hse} {p : List Bool}

theorem pushBit_spec (h : Packed e.currentByte e.bitIndex p) (b : Bool) :
    ∃ byte mask p', (e.pushBit b).1 = { e with currentByte := byte, bitIndex := mask } ∧
      Packed byte mask p' ∧ (e.pushBit b).2.flatMap bitsOf ++ p' = p ++ [b] := by
  have hpush := h.push b
  rw [pushBit]
  split
  · next hfull =>
      rw [if_pos hfull] at hpush
      obtain ⟨hlen, hbyte⟩ := hpush
      refine ⟨0, 0x80, [], rfl, packed_nil, ?_⟩
      have hlen' : (p ++ [b]).length = 8 := by simp [hlen]
      rw [hbyte, List.flatMap_singleton, bitsOf_byteOf hlen', List.append_nil]
  · next hroom =>
      rw [if_neg hroom] at hpush
      exact ⟨_, _, p ++ [b], rfl, hpush, rfl⟩

theorem pushBitsLoop_spec (bits : ℕ) (count : ℕ) (h : Packed e.currentByte e.bitIndex p)
    (out : List UInt8) :
    ∃ byte mask p' emitted,
      pushBitsLoop bits count e out =
        ({ e with currentByte := byte, bitIndex := mask }, out ++ emitted) ∧
      Packed byte mask p' ∧ emitted.flatMap bitsOf ++ p' = p ++ bitsFrom count bits := by
  induction count generalizing e p out with
  | zero => exact ⟨_, _, p, [], by rw [List.append_nil]; rfl, h, by simp [bitsFrom]⟩
  | succ count ih =>
      obtain ⟨byte, mask, p', he, hpacked, hbits⟩ := pushBit_spec h (bits.testBit count)
      have hnext : Packed (e.pushBit (bits.testBit count)).1.currentByte
          (e.pushBit (bits.testBit count)).1.bitIndex p' := by
        rw [he]
        exact hpacked
      obtain ⟨byte', mask', p'', emitted, hloop, hpacked', hbits'⟩ :=
        ih hnext (out ++ (e.pushBit (bits.testBit count)).2)
      refine ⟨byte', mask', p'', (e.pushBit (bits.testBit count)).2 ++ emitted, ?_,
        hpacked', ?_⟩
      · rw [pushBitsLoop]
        dsimp only
        rw [hloop, he, List.append_assoc]
      · rw [List.flatMap_append, List.append_assoc, hbits', ← List.append_assoc, hbits,
          bitsFrom_succ, List.append_assoc]
        rfl

/-- `push_bits` puts the bits behind the others and writes at most one byte. -/
theorem pushBits_spec (count bits : ℕ) (h : Packed e.currentByte e.bitIndex p)
    (hcount : count ≤ 8) (hbits : bits < 256) :
    ∃ byte mask p' emitted,
      e.pushBits count bits =
        ({ e with currentByte := byte, bitIndex := mask }, emitted) ∧
      Packed byte mask p' ∧ emitted.flatMap bitsOf ++ p' = p ++ bitsFrom count bits ∧
      emitted.length ≤ 1 := by
  rw [pushBits]
  split
  · next hwhole =>
      obtain ⟨rfl, hmask⟩ := hwhole
      have hnil : p = [] := h.eq_nil_iff.mp hmask
      have hbyte : bitsOf (UInt8.ofNat bits) = bitsFrom 8 bits := by
        rw [bitsOf_eq_bitsFrom, UInt8.toNat_ofNat', Nat.mod_eq_of_lt hbits]
      refine ⟨e.currentByte, e.bitIndex, p, [UInt8.ofNat bits], rfl, h, ?_, le_rfl⟩
      rw [hnil, List.flatMap_singleton, hbyte, List.append_nil, List.nil_append]
  · obtain ⟨byte, mask, p', emitted, hloop, hpacked, hall⟩ :=
      pushBitsLoop_spec bits count h []
    refine ⟨byte, mask, p', emitted, hloop, hpacked, hall, ?_⟩
    have hlen := congrArg List.length hall
    have hbytes : (emitted.flatMap bitsOf).length = 8 * emitted.length := by
      simp [List.length_flatMap, bitsOf, Nat.mul_comm]
    have hshort := h.short
    rw [List.length_append, List.length_append, hbytes, length_bitsFrom] at hlen
    omega

/-! ## What is known of the fields -/

/-- Everything in the buffer may be searched: it is full, or nothing more comes. -/
def Ready (e : Hse) : Prop :=
  e.finishing = true ∨ e.inputSize = 256

/-- The index is that of the buffer. -/
def Indexed (e : Hse) : Prop :=
  ∀ k < 256 + e.inputSize, IsPrevious e.buffer e.searchIndex k

/-- What is known of the fields in each state. -/
def Shape (e : Hse) : Prop :=
  match e.state with
  | .notFull =>
      e.finishing = false ∧ e.inputSize < 256 ∧ e.matchScanIndex = 0 ∧ e.matchLength = 0
  | .filled => e.Ready ∧ e.matchScanIndex = 0 ∧ e.matchLength = 0
  | .search => e.Ready ∧ e.Indexed ∧ e.matchLength = 0
  | .yieldTagBit =>
      e.Ready ∧ e.Indexed ∧ e.matchLength ≤ 16 ∧
        if e.matchLength = 0 then 0 < e.matchScanIndex else 0 < e.matchPos ∧ e.matchPos ≤ 256
  | .yieldLiteral => e.Ready ∧ e.Indexed ∧ e.matchLength = 0 ∧ 0 < e.matchScanIndex
  | .yieldBrIndex =>
      e.Ready ∧ e.Indexed ∧ 0 < e.matchLength ∧ e.matchLength ≤ 16 ∧
        e.outgoingBits < 256 ∧ (e.outgoingBitsCount = 8 ∨ e.outgoingBitsCount = 0)
  | .yieldBrLength =>
      e.Ready ∧ e.Indexed ∧ 0 < e.matchLength ∧ e.outgoingBits < 16 ∧
        (e.outgoingBitsCount = 4 ∨ e.outgoingBitsCount = 0)
  | .saveBacklog =>
      e.finishing = false ∧ e.inputSize = 256 ∧ 240 < e.matchScanIndex ∧ e.matchLength = 0
  | .flushBits =>
      e.finishing = true ∧ e.matchScanIndex = e.inputSize ∧ e.matchLength = 0
  | .done => False

/-- The bits of the present token that are still to be pushed. -/
def owed (e : Hse) : List Bool :=
  match e.state with
  | .yieldTagBit =>
      if e.matchLength = 0 then
        true :: bitsOf (e.buffer (getInputBufferSize + (e.matchScanIndex - 1)))
      else false :: bitsFrom 8 (e.matchPos - 1) ++ bitsFrom 4 (e.matchLength - 1)
  | .yieldLiteral => bitsOf (e.buffer (getInputBufferSize + (e.matchScanIndex - 1)))
  | .yieldBrIndex =>
      bitsFrom e.outgoingBitsCount e.outgoingBits ++ bitsFrom 4 (e.matchLength - 1)
  | .yieldBrLength => bitsFrom e.outgoingBitsCount e.outgoingBits
  | _ => []

/-- A bound on the rounds that a poll can still take. -/
def work (e : Hse) : ℕ :=
  let left := 8 * (e.inputSize - e.matchScanIndex - e.matchLength)
  match e.state with
  | .notFull | .flushBits | .done => 0
  | .saveBacklog => 1
  | .search => left + 2
  | .filled | .yieldLiteral => left + 3
  | .yieldBrLength => if e.outgoingBitsCount = 0 then left + 3 else left + 4
  | .yieldBrIndex => if e.outgoingBitsCount = 0 then left + 5 else left + 6
  | .yieldTagBit => left + 7

/-- `xs` went in and `ys` came out; `ts` are the tokens so far, the present one included,
`base` bytes have left the input buffer, and the bits `pending` are in work. -/
structure Encoding (e : Hse) (xs ys : List UInt8) (base : ℕ) (ts : List (Token UInt8))
    (pending : List Bool) : Prop where
  taken : base + e.inputSize = xs.length
  window : ∀ i < 256 + e.inputSize, e.buffer i = padded 256 0 xs (base + i)
  leads : code.Leads e.finishing xs ts (base + e.matchScanIndex + e.matchLength)
  packed : Packed e.currentByte e.bitIndex pending
  bits : ys.flatMap bitsOf ++ pending ++ e.owed = ts.flatMap tokenBits
  size : e.inputSize ≤ 256
  scanned : e.matchScanIndex + e.matchLength ≤ e.inputSize
  shape : e.Shape

/-- A step with `room` bytes left in the output buffer, if it is not the last. -/
structure Advances (room : ℕ) (xs ys : List UInt8) (e e' : Hse) (emitted : List UInt8) :
    Prop where
  encoding : ∃ base ts pending, e'.Encoding xs (ys ++ emitted) base ts pending
  length_le : emitted.length ≤ room
  finishing : e'.finishing = e.finishing
  progress : e'.work < e.work ∨ room = 0 ∧ e' = e ∧ emitted = []

variable {xs ys : List UInt8} {base : ℕ} {ts : List (Token UInt8)} {pending : List Bool}
  {room : ℕ}

/-- The state behind a search, with the match to send if there is one. -/
def searched (e : Hse) : Option (ℕ × ℕ) → Hse
  | none =>
      { e with
        matchScanIndex := e.matchScanIndex + 1
        matchLength := 0
        state := .yieldTagBit }
  | some (matchPos, matchLength) =>
      { e with matchPos := matchPos, matchLength := matchLength, state := .yieldTagBit }

namespace Encoding

/-! ## Indexing, searching, saving -/

theorem stFilled (h : e.Encoding xs ys base ts pending) (hstate : e.state = .filled) :
    Advances room xs ys e { e.doIndexing with state := .search } [] := by
  have hshape := h.shape
  have howed := h.bits
  rw [Shape, hstate] at hshape
  rw [owed, hstate] at howed
  obtain ⟨hready, hscan, hlen⟩ := hshape
  refine ⟨⟨base, ts, pending, ?_⟩, Nat.zero_le _, rfl, Or.inl ?_⟩
  · rw [List.append_nil]
    exact ⟨h.taken, h.window, h.leads, h.packed, howed, h.size, h.scanned,
      hready, e.isPrevious_doIndexing, hlen⟩
  · simp only [work, hstate, doIndexing]
    omega

/-- The search finds the next token. -/
theorem findLongestMatch_eq_nextToken (h : e.Encoding xs ys base ts pending)
    (hindexed : e.Indexed) {msi : ℕ} (hmsi : msi < e.inputSize) :
    (code.nextToken xs (base + msi) = .literal (e.buffer (256 + msi)) ∧
        findLongestMatch e.buffer e.searchIndex msi (256 + msi)
          (min 16 (e.inputSize - msi)) = none) ∨
      ∃ dist length, code.nextToken xs (base + msi) = .copy dist length ∧
        findLongestMatch e.buffer e.searchIndex msi (256 + msi)
          (min 16 (e.inputSize - msi)) = some (dist, length) := by
  have htaken := h.taken
  have hleft : xs.length - (base + msi) = e.inputSize - msi := by omega
  obtain ⟨m, hm, hfound⟩ : ∃ m,
      IsLongest e.buffer msi (256 + msi) (min 16 (e.inputSize - msi)) m ∧
        findLongestMatch e.buffer e.searchIndex msi (256 + msi)
          (min 16 (e.inputSize - msi)) = payingMatch (256 + msi) m :=
    findLongestMatch_eq (fun k hk => hindexed k (by omega)) (by omega)
  have hshifted := hm.shift (b := base) fun i _ hi => h.window i (by omega)
  have hlongest := code.isLongest_longestAt xs (base + msi)
  have hneedle : code.window + (base + msi) = base + (256 + msi) :=
    Nat.add_left_comm _ _ _
  have hmax : min code.lookahead (xs.length - (base + msi)) =
      min 16 (e.inputSize - msi) := by
    rw [hleft]
    rfl
  rw [hneedle, hmax] at hlongest
  obtain ⟨hlen, hpos⟩ := hlongest.eq hshifted
  have hbyte : xs.getD (base + msi) 0 = e.buffer (256 + msi) := by
    rw [h.window _ (by omega), Nat.add_left_comm, padded_add]
  rw [LempelZiv.nextToken, LempelZiv.token, hfound, payingMatch, hlen, hneedle]
  by_cases hpays : 2 ≤ m.length
  · right
    have hpos := hpos (by rw [hlen]; exact Nat.lt_of_lt_of_le (by decide) hpays)
    obtain ⟨-, hlt, -⟩ := hm.found (by omega)
    refine ⟨256 + msi - m.pos, m.length, ?_, if_pos hpays⟩
    rw [if_pos (show code.shortest ≤ m.length from hpays), hpos]
    congr 1
    exact Nat.add_sub_add_left _ _ _
  · left
    refine ⟨?_, if_neg hpays⟩
    rw [if_neg (show ¬ code.shortest ≤ m.length from hpays)]
    exact congrArg Token.literal hbyte

/-- What is left is too short: the end, or the window moves on. -/
theorem searchExhausted (h : e.Encoding xs ys base ts pending) (hstate : e.state = .search)
    (hout : e.inputSize < e.matchScanIndex + (if e.finishing then 1 else getLookaheadSize)) :
    Advances room xs ys e
      { e with state := if e.finishing then .flushBits else .saveBacklog } [] := by
  have hshape := h.shape
  have hbits := h.bits
  have hscanned := h.scanned
  rw [Shape, hstate] at hshape
  rw [owed, hstate] at hbits
  obtain ⟨hready, -, hlen⟩ := hshape
  have hready : e.finishing = true ∨ e.inputSize = 256 := hready
  have hlook : getLookaheadSize = 16 := rfl
  cases hfin : e.finishing with
  | true =>
      rw [hfin, if_pos rfl] at hout
      refine ⟨⟨base, ts, pending, ?_⟩, Nat.zero_le _, hfin.symm, Or.inl ?_⟩
      · have hleads := h.leads
        rw [hfin] at hleads
        rw [List.append_nil]
        exact ⟨h.taken, h.window, hleads, h.packed, hbits, h.size, h.scanned,
          rfl, show e.matchScanIndex = e.inputSize by omega, hlen⟩
      · simp [work, hstate]
  | false =>
      rw [hfin] at hready
      rw [hfin, if_neg Bool.false_ne_true] at hout
      have hfull := hready.resolve_left Bool.false_ne_true
      refine ⟨⟨base, ts, pending, ?_⟩, Nat.zero_le _, hfin.symm, Or.inl ?_⟩
      · have hleads := h.leads
        rw [hfin] at hleads
        rw [List.append_nil]
        exact ⟨h.taken, h.window, hleads, h.packed, hbits, h.size, h.scanned,
          rfl, hfull, show 240 < e.matchScanIndex by omega, hlen⟩
      · simp [work, hstate]

/-- Otherwise the search decides on the next token. -/
theorem searchNext (h : e.Encoding xs ys base ts pending) (hstate : e.state = .search)
    (hin : ¬ e.inputSize <
      e.matchScanIndex + (if e.finishing then 1 else getLookaheadSize)) :
    Advances room xs ys e
      (e.searched (findLongestMatch e.buffer e.searchIndex e.matchScanIndex
        (256 + e.matchScanIndex) (min 16 (e.inputSize - e.matchScanIndex)))) [] := by
  have hshape := h.shape
  have hbits := h.bits
  have hleads := h.leads
  have htaken := h.taken
  rw [Shape, hstate] at hshape
  rw [owed, hstate] at hbits
  obtain ⟨hready, hindexed, hlen⟩ := hshape
  have hbits : ys.flatMap bitsOf ++ pending = ts.flatMap tokenBits := by
    rw [← hbits, List.append_nil]
  rw [hlen, Nat.add_zero] at hleads
  have hlook : getLookaheadSize = 16 := rfl
  have hmsi : e.matchScanIndex < e.inputSize ∧
      (e.finishing = true ∨ base + e.matchScanIndex + 16 ≤ xs.length) := by
    cases hfin : e.finishing with
    | true =>
        rw [hfin, if_pos rfl] at hin
        exact ⟨by omega, Or.inl rfl⟩
    | false =>
        rw [hfin, if_neg Bool.false_ne_true] at hin
        exact ⟨by omega, Or.inr (by omega)⟩
  obtain ⟨hmsi, hthere⟩ := hmsi
  have hlt : base + e.matchScanIndex < xs.length := by omega
  have hnext := hleads.next hlt hthere
  rcases h.findLongestMatch_eq_nextToken hindexed hmsi with
    ⟨htoken, hnone⟩ | ⟨dist, length, htoken, hsome⟩
  · rw [htoken] at hnext
    rw [hnone]
    refine ⟨⟨base, ts ++ [.literal (e.buffer (256 + e.matchScanIndex))], pending, ?_⟩,
      Nat.zero_le _, rfl, Or.inl ?_⟩
    · rw [List.append_nil]
      refine ⟨htaken, h.window, hnext, h.packed, ?_, h.size, hmsi,
        hready, hindexed, Nat.zero_le _, Nat.succ_pos _⟩
      rw [List.flatMap_append, ← hbits, List.flatMap_singleton]
      rfl
    · simp only [work, hstate, searched]
      omega
  · have hfits := fits_nextToken xs (base + e.matchScanIndex)
    have hsize := code.size_nextToken_le hlt
    rw [htoken] at hnext hfits hsize
    obtain ⟨hpos, hdist, hlong, hshort⟩ := hfits
    have hsize : base + e.matchScanIndex + length ≤ xs.length := hsize
    rw [hsome]
    refine ⟨⟨base, ts ++ [.copy dist length], pending, ?_⟩, Nat.zero_le _, rfl,
      Or.inl ?_⟩
    · rw [List.append_nil]
      refine ⟨htaken, h.window, hnext, h.packed, ?_, h.size,
        show e.matchScanIndex + length ≤ e.inputSize by omega,
        hready, hindexed, hshort, ?_⟩
      · rw [List.flatMap_append, ← hbits, List.flatMap_singleton]
        exact congrArg _ (if_neg (Nat.ne_of_gt hlong))
      · show if length = 0 then 0 < e.matchScanIndex else 0 < dist ∧ dist ≤ 256
        rw [if_neg (Nat.ne_of_gt hlong)]
        exact ⟨hpos, hdist⟩
    · simp only [work, hstate, searched]
      omega

theorem stStepSearch (h : e.Encoding xs ys base ts pending) (hstate : e.state = .search) :
    Advances room xs ys e e.stStepSearch [] := by
  have hmax : (if e.inputSize - e.matchScanIndex < getLookaheadSize then
      e.inputSize - e.matchScanIndex else getLookaheadSize) =
      min 16 (e.inputSize - e.matchScanIndex) := by
    have hlook : getLookaheadSize = 16 := rfl
    rw [hlook]
    split <;> omega
  have hstart : getInputBufferSize + e.matchScanIndex - getInputBufferSize =
      e.matchScanIndex := Nat.add_sub_cancel_left _ _
  rw [Hse.stStepSearch]
  dsimp only
  by_cases hout : e.inputSize <
      e.matchScanIndex + (if e.finishing then 1 else getLookaheadSize)
  · rw [if_pos hout]
    exact h.searchExhausted hstate hout
  · rw [if_neg hout, hmax, hstart]
    exact h.searchNext hstate hout

theorem stSaveBacklog (h : e.Encoding xs ys base ts pending)
    (hstate : e.state = .saveBacklog) : Advances room xs ys e e.stSaveBacklog [] := by
  have hshape := h.shape
  have hbits := h.bits
  have htaken := h.taken
  have hscanned := h.scanned
  rw [Shape, hstate] at hshape
  rw [owed, hstate] at hbits
  obtain ⟨hfin, hfull, hscan, hlen⟩ := hshape
  have hsize : getInputBufferSize = 256 := rfl
  refine ⟨⟨base + e.matchScanIndex, ts, pending, ?_⟩, Nat.zero_le _, rfl, Or.inl ?_⟩
  · rw [List.append_nil]
    refine ⟨?_, ?_, ?_, h.packed, hbits, ?_, ?_, ?_⟩
    · simp only [Hse.stSaveBacklog]
      omega
    · intro i hi
      simp only [Hse.stSaveBacklog] at hi ⊢
      rw [if_pos (by omega), h.window _ (by omega)]
      congr 1
      omega
    · exact h.leads
    · simp only [Hse.stSaveBacklog]
      omega
    · simp only [Hse.stSaveBacklog]
      omega
    · refine ⟨hfin, ?_, rfl, hlen⟩
      simp only [Hse.stSaveBacklog]
      omega
  · simp [work, hstate, Hse.stSaveBacklog]

/-! ## Pushing bits -/

/-- A state without room for a byte stays. -/
theorem full (h : e.Encoding xs ys base ts pending) : Advances 0 xs ys e e [] :=
  ⟨⟨base, ts, pending, by rw [List.append_nil]; exact h⟩, le_rfl, rfl,
    Or.inr ⟨rfl, rfl, rfl⟩⟩

/-- The bits pushed are no longer owed. -/
theorem bits_push {pending' rest : List Bool} {emitted : List UInt8}
    (h : e.Encoding xs ys base ts pending) (pushed : List Bool) (howed : e.owed = pushed ++ rest)
    (hpushed : emitted.flatMap bitsOf ++ pending' = pending ++ pushed) :
    (ys ++ emitted).flatMap bitsOf ++ pending' ++ rest = ts.flatMap tokenBits := by
  rw [← h.bits, howed, List.flatMap_append]
  simp only [List.append_assoc]
  rw [← List.append_assoc pending, ← hpushed]
  simp only [List.append_assoc]

theorem stYieldTagBit (h : e.Encoding xs ys base ts pending)
    (hstate : e.state = .yieldTagBit) :
    Advances room xs ys e (e.stYieldTagBit room).1 (e.stYieldTagBit room).2 := by
  have hshape := h.shape
  rw [Shape, hstate] at hshape
  obtain ⟨hready, hindexed, hshort, hkind⟩ := hshape
  rw [Hse.stYieldTagBit]
  by_cases hroom : 0 < room
  · rw [if_pos hroom]
    by_cases hliteral : e.matchLength = 0
    · rw [if_pos hliteral] at hkind
      obtain ⟨byte, mask, pending', emitted, hpush, hpacked, hbits, hone⟩ :=
        pushBits_spec 1 1 h.packed (by decide) (by decide)
      rw [if_pos hliteral, hpush]
      refine ⟨⟨base, ts, pending', h.taken, h.window, h.leads, hpacked, ?_, h.size,
        h.scanned, hready, hindexed, hliteral, hkind⟩, hone.trans hroom, rfl, Or.inl ?_⟩
      · refine h.bits_push _ ?_ hbits
        rw [owed, hstate]
        exact if_pos hliteral
      · simp only [work, hstate]
        omega
    · rw [if_neg hliteral] at hkind
      obtain ⟨byte, mask, pending', emitted, hpush, hpacked, hbits, hone⟩ :=
        pushBits_spec 1 0 h.packed (by decide) (by decide)
      rw [if_neg hliteral, hpush]
      have hindex : e.matchPos - 1 < 256 := by omega
      refine ⟨⟨base, ts, pending', h.taken, h.window, h.leads, hpacked, ?_, h.size,
        h.scanned, hready, hindexed, Nat.pos_of_ne_zero hliteral, hshort, hindex,
        Or.inl rfl⟩, hone.trans hroom, rfl, Or.inl ?_⟩
      · refine h.bits_push _ ?_ hbits
        rw [owed, hstate]
        exact if_neg hliteral
      · simp [work, hstate]
  · obtain rfl := Nat.eq_zero_of_not_pos hroom
    exact h.full

theorem stYieldLiteral (h : e.Encoding xs ys base ts pending)
    (hstate : e.state = .yieldLiteral) :
    Advances room xs ys e (e.stYieldLiteral room).1 (e.stYieldLiteral room).2 := by
  have hshape := h.shape
  rw [Shape, hstate] at hshape
  obtain ⟨hready, hindexed, hlen, -⟩ := hshape
  rw [Hse.stYieldLiteral]
  by_cases hroom : 0 < room
  · rw [if_pos hroom]
    dsimp only
    generalize hc : e.buffer (getInputBufferSize + (e.matchScanIndex - 1)) = c
    obtain ⟨byte, mask, pending', emitted, hpush, hpacked, hbits, hone⟩ :=
      pushBits_spec 8 c.toNat h.packed le_rfl c.toNat_lt
    rw [hpush]
    refine ⟨⟨base, ts, pending', h.taken, h.window, h.leads, hpacked, ?_, h.size,
      h.scanned, hready, hindexed, hlen⟩, hone.trans hroom, rfl, Or.inl ?_⟩
    · refine h.bits_push _ ?_ hbits
      refine Eq.trans ?_ (List.append_nil (bitsFrom 8 c.toNat)).symm
      rw [owed, hstate]
      exact congrArg bitsOf hc
    · simp only [work, hstate]
      omega
  · obtain rfl := Nat.eq_zero_of_not_pos hroom
    exact h.full

/-- `push_outgoing_bits` pushes them all at once. -/
theorem pushOutgoingBits_spec {p : List Bool} (hpacked : Packed e.currentByte e.bitIndex p)
    (hpos : 0 < e.outgoingBitsCount) (hcount : e.outgoingBitsCount ≤ 8)
    (hbits : e.outgoingBits < 256) :
    ∃ byte mask p' emitted,
      e.pushOutgoingBits = (e.outgoingBitsCount,
        { e with currentByte := byte, bitIndex := mask, outgoingBitsCount := 0 }, emitted) ∧
      Packed byte mask p' ∧
      emitted.flatMap bitsOf ++ p' =
        p ++ bitsFrom e.outgoingBitsCount e.outgoingBits ∧
      emitted.length ≤ 1 := by
  obtain ⟨byte, mask, p', emitted, hpush, hpacked', hall, hone⟩ :=
    pushBits_spec _ _ hpacked hcount hbits
  refine ⟨byte, mask, p', emitted, ?_, hpacked', hall, hone⟩
  have hle : ¬ 8 < e.outgoingBitsCount := Nat.not_lt.mpr hcount
  simp only [pushOutgoingBits, if_neg hle, if_pos hpos, hpush, Nat.sub_self]

theorem pushOutgoingBits_zero (hzero : e.outgoingBitsCount = 0) :
    e.pushOutgoingBits = (0, e, []) := by
  simp [pushOutgoingBits, hzero]

theorem stYieldBrIndex (h : e.Encoding xs ys base ts pending)
    (hstate : e.state = .yieldBrIndex) :
    Advances room xs ys e (e.stYieldBrIndex room).1 (e.stYieldBrIndex room).2 := by
  have hshape := h.shape
  rw [Shape, hstate] at hshape
  obtain ⟨hready, hindexed, hpos, hshort, hsmall, hcount⟩ := hshape
  rw [Hse.stYieldBrIndex]
  by_cases hroom : 0 < room
  · rw [if_pos hroom]
    rcases hcount with hcount | hcount
    · obtain ⟨byte, mask, pending', emitted, hpush, hpacked, hbits, hone⟩ :=
        pushOutgoingBits_spec h.packed (by omega) (by omega) hsmall
      rw [hpush]
      dsimp only
      rw [if_pos (by omega)]
      refine ⟨⟨base, ts, pending', h.taken, h.window, h.leads, hpacked, ?_, h.size,
        h.scanned, ?_⟩, hone.trans hroom, rfl, Or.inl ?_⟩
      · refine h.bits_push _ ?_ hbits
        rw [owed, owed, hstate]
        rfl
      · rw [Shape, hstate]
        exact ⟨hready, hindexed, hpos, hshort, hsmall, Or.inr rfl⟩
      · simp [work, hstate, hcount]
    · rw [pushOutgoingBits_zero hcount]
      dsimp only
      rw [if_neg (Nat.lt_irrefl 0)]
      have hlength : e.matchLength - 1 < 16 := by omega
      refine ⟨⟨base, ts, pending, h.taken, h.window, h.leads, h.packed, ?_, h.size,
        h.scanned, hready, hindexed, hpos, hlength, Or.inl rfl⟩, Nat.zero_le _, rfl,
        Or.inl ?_⟩
      · refine h.bits_push [] ?_ (by simp)
        rw [owed, owed, hstate, hcount]
        rfl
      · simp [work, hstate, hcount]
  · obtain rfl := Nat.eq_zero_of_not_pos hroom
    exact h.full

theorem stYieldBrLength (h : e.Encoding xs ys base ts pending)
    (hstate : e.state = .yieldBrLength) :
    Advances room xs ys e (e.stYieldBrLength room).1 (e.stYieldBrLength room).2 := by
  have hshape := h.shape
  rw [Shape, hstate] at hshape
  obtain ⟨hready, hindexed, hpos, hsmall, hcount⟩ := hshape
  rw [Hse.stYieldBrLength]
  by_cases hroom : 0 < room
  · rw [if_pos hroom]
    rcases hcount with hcount | hcount
    · obtain ⟨byte, mask, pending', emitted, hpush, hpacked, hbits, hone⟩ :=
        pushOutgoingBits_spec h.packed (by omega) (by omega) (by omega)
      rw [hpush]
      dsimp only
      rw [if_pos (by omega)]
      refine ⟨⟨base, ts, pending', h.taken, h.window, h.leads, hpacked, ?_, h.size,
        h.scanned, ?_⟩, hone.trans hroom, rfl, Or.inl ?_⟩
      · refine h.bits_push _ ?_ hbits
        rw [owed, owed, hstate]
        exact (List.append_nil _).symm
      · rw [Shape, hstate]
        exact ⟨hready, hindexed, hpos, hsmall, Or.inr rfl⟩
      · simp [work, hstate, hcount]
    · have hscanned := h.scanned
      rw [pushOutgoingBits_zero hcount]
      dsimp only
      rw [if_neg (Nat.lt_irrefl 0)]
      refine ⟨⟨base, ts, pending, h.taken, h.window, ?_, h.packed, ?_, h.size,
        hscanned, hready, hindexed, rfl⟩, Nat.zero_le _, rfl, Or.inl ?_⟩
      · have hleads := h.leads
        rwa [Nat.add_assoc] at hleads
      · refine h.bits_push [] ?_ (by simp)
        rw [owed, owed, hstate, hcount]
        rfl
      · simp only [work, hstate, hcount]
        simp
        omega
  · obtain rfl := Nat.eq_zero_of_not_pos hroom
    exact h.full

/-- Every round but the last goes on with the code. -/
theorem step (h : e.Encoding xs ys base ts pending)
    (hstate : e.state ≠ .notFull ∧ e.state ≠ .flushBits) :
    Advances room xs ys e (e.step room).1 (e.step room).2 := by
  have hshape := h.shape
  rw [Hse.step]
  cases hcase : e.state with
  | notFull => exact absurd hcase hstate.1
  | flushBits => exact absurd hcase hstate.2
  | done =>
      rw [Shape, hcase] at hshape
      exact hshape.elim
  | filled => exact h.stFilled hcase
  | search => exact h.stStepSearch hcase
  | yieldTagBit => exact h.stYieldTagBit hcase
  | yieldLiteral => exact h.stYieldLiteral hcase
  | yieldBrIndex => exact h.stYieldBrIndex hcase
  | yieldBrLength => exact h.stYieldBrLength hcase
  | saveBacklog => exact h.stSaveBacklog hcase

end Encoding

end Hse

end LifiAuth.Heatshrink
