import LifiAuth.Support.Bytes
import LifiAuth.Support.Pio

/-!
# The transmitting program

`lifi_multi_tx.pio`: after each `pull` the LEDs are dark for the start bit, then show
eight bits, and stay lit.  A bit shows two cycles after its turn in the loop begins.
Before the first byte nothing has lit them.
-/

namespace LifiAuth

open Support Pio

/-- `lifi_multi_tx`; the labels are addresses 3, 7 and 8. -/
def lifiMultiTx : Program where
  instrs :=
    [⟨.pullBlock, 0⟩,
      ⟨.setPins 0, 7⟩,
      ⟨.setX 7, 0⟩,
      ⟨.outY, 0⟩,
      ⟨.jmpNotY 7, 0⟩,
      ⟨.setPins 15, 3⟩,
      ⟨.jmp 8, 0⟩,
      ⟨.setPins 0, 4⟩,
      ⟨.jmpXDec 3, 0⟩,
      ⟨.setPins 15, 7⟩]
  wrapTarget := 0
  wrap := 9
  pushThreshold := 32

/-- The word that `lifi_send_byte` puts into the fifo. -/
def lifiSendByte (byte : UInt8) : Word :=
  byte.toBitVec.setWidth 32

/-- A cycle in which the firmware puts a word, or none. -/
def txIn (w : Option Word) : In :=
  ⟨false, w⟩

/-- The machine between two instructions, its fifo empty. -/
def txAt (pc : ℕ) (x y osr pins : Word) : State :=
  ⟨pc, x, y, osr, 0, 0, 0, pins, [], 0⟩

/-! ## Light -/

/-- The pins when the LEDs are lit or dark. -/
def ledPins (light : Bool) : Word :=
  if light then 15 else 0

/-- A cycle with the LEDs lit or dark. -/
def shine (light : Bool) : Out :=
  ⟨ledPins light, none⟩

/-- The low bits of a word, in the order in which they are shifted out. -/
def lowBits : ℕ → Word → List Bool
  | 0, _ => []
  | n + 1, w => w.getLsbD 0 :: lowBits n (w >>> 1)

/-- The light during the turns of the loop, from what it was before. -/
def loopLight : Bool → List Bool → List Bool
  | _, [] => []
  | before, bit :: bits =>
      List.replicate 2 before ++ List.replicate 6 bit ++ loopLight bit bits

/-- The light after a word has been pulled. -/
def frameLight (w : Word) : List Bool :=
  List.replicate 9 false ++ loopLight false (lowBits 8 w) ++ List.replicate 8 true

theorem length_lowBits (n : ℕ) (w : Word) : (lowBits n w).length = n := by
  induction n generalizing w with
  | zero => rfl
  | succ n ih => rw [lowBits, List.length_cons, ih]

theorem length_loopLight (before : Bool) (bits : List Bool) :
    (loopLight before bits).length = 8 * bits.length := by
  induction bits generalizing before with
  | nil => rfl
  | cons bit bits ih =>
      simp only [loopLight, List.length_append, List.length_replicate, List.length_cons, ih]
      omega

/-! ## One byte -/

section

variable (lag : ℕ → ℕ) (x y osr : Word)

/-- The bit that was shifted into `y`. -/
def bitWord (bit : Bool) : Word :=
  (BitVec.ofBool bit).setWidth 32

/-- From the first to the last instruction of the loop, for either bit. -/
theorem takes_bitBranch (bit before : Bool) :
    Takes lifiMultiTx lag 6 (txAt 4 x (bitWord bit) osr (ledPins before))
      (shine before :: List.replicate 5 (shine bit))
      (txAt 8 x (bitWord bit) osr (ledPins bit)) := by
  cases bit with
  | true =>
      have hjmp : Takes lifiMultiTx lag 1 (txAt 4 x (bitWord true) osr (ledPins before))
          [shine before] (txAt 5 x (bitWord true) osr (ledPins before)) :=
        .instr ⟨.jmpNotY 7, 0⟩ rfl rfl rfl (fun _ _ => rfl) rfl rfl
      have hset : Takes lifiMultiTx lag 4 (txAt 5 x (bitWord true) osr (ledPins before))
          (List.replicate 4 (shine true)) (txAt 6 x (bitWord true) osr 15) :=
        .instr ⟨.setPins 15, 3⟩ rfl rfl rfl (fun _ _ => rfl) rfl rfl
      have hskip : Takes lifiMultiTx lag 1 (txAt 6 x (bitWord true) osr 15)
          [shine true] (txAt 8 x (bitWord true) osr 15) :=
        .instr ⟨.jmp 8, 0⟩ rfl rfl rfl (fun _ _ => rfl) rfl rfl
      exact (hjmp.append hset).append hskip
  | false =>
      have hjmp : Takes lifiMultiTx lag 1 (txAt 4 x (bitWord false) osr (ledPins before))
          [shine before] (txAt 7 x (bitWord false) osr (ledPins before)) :=
        .instr ⟨.jmpNotY 7, 0⟩ rfl rfl rfl (fun _ _ => rfl) rfl rfl
      have hset : Takes lifiMultiTx lag 5 (txAt 7 x (bitWord false) osr (ledPins before))
          (List.replicate 5 (shine false)) (txAt 8 x (bitWord false) osr 0) :=
        .instr ⟨.setPins 0, 4⟩ rfl rfl rfl (fun _ _ => rfl) rfl rfl
      exact hjmp.append hset

/-- One turn of the loop. -/
theorem takes_turn (before : Bool) :
    Takes lifiMultiTx lag 8 (txAt 3 x y osr (ledPins before))
      (List.replicate 2 (shine before) ++ List.replicate 6 (shine (osr.getLsbD 0)))
      (txAt (if x = 0 then 9 else 3) (x - 1) (bitWord (osr.getLsbD 0)) (osr >>> 1)
        (ledPins (osr.getLsbD 0))) := by
  have hout : Takes lifiMultiTx lag 1 (txAt 3 x y osr (ledPins before)) [shine before]
      (txAt 4 x (bitWord (osr.getLsbD 0)) (osr >>> 1) (ledPins before)) :=
    .instr ⟨.outY, 0⟩ rfl rfl rfl (fun _ _ => rfl) rfl rfl
  have hdec : Takes lifiMultiTx lag 1
      (txAt 8 x (bitWord (osr.getLsbD 0)) (osr >>> 1) (ledPins (osr.getLsbD 0)))
      [shine (osr.getLsbD 0)]
      (txAt (if x = 0 then 9 else 3) (x - 1) (bitWord (osr.getLsbD 0)) (osr >>> 1)
        (ledPins (osr.getLsbD 0))) :=
    .instr ⟨.jmpXDec 3, 0⟩ rfl rfl rfl (fun _ _ => rfl) rfl rfl
  exact (hout.append (takes_bitBranch lag x (osr >>> 1) (osr.getLsbD 0) before)).append hdec

theorem ofNat_succ_sub_one (n : ℕ) : BitVec.ofNat 32 (n + 1) - 1 = BitVec.ofNat 32 n := by
  rw [BitVec.ofNat_add]
  exact BitVec.add_sub_cancel _ _

theorem ofNat_succ_ne_zero {n : ℕ} (hn : n + 1 < 2 ^ 32) :
    BitVec.ofNat 32 (n + 1) ≠ 0 := by
  intro h
  have hnat := congrArg BitVec.toNat h
  rw [BitVec.toNat_ofNat, Nat.mod_eq_of_lt hn] at hnat
  exact Nat.succ_ne_zero n hnat

/-- The loop with the counter at `n`. -/
theorem takes_loop {n : ℕ} (hn : n < 2 ^ 32) (before : Bool) (y osr : Word) :
    ∃ x' y' osr' light,
      Takes lifiMultiTx lag (8 * (n + 1))
        (txAt 3 (BitVec.ofNat 32 n) y osr (ledPins before))
        ((loopLight before (lowBits (n + 1) osr)).map shine)
        (txAt 9 x' y' osr' (ledPins light)) := by
  induction n generalizing before y osr with
  | zero => exact ⟨_, _, _, _, takes_turn lag _ y osr before⟩
  | succ n ih =>
      obtain ⟨x', y', osr', light, hrest⟩ := ih (Nat.lt_of_succ_lt hn)
        (osr.getLsbD 0) (bitWord (osr.getLsbD 0)) (osr >>> 1)
      refine ⟨x', y', osr', light, ?_⟩
      have hturn := takes_turn lag (BitVec.ofNat 32 (n + 1)) y osr before
      rw [if_neg (ofNat_succ_ne_zero hn), ofNat_succ_sub_one] at hturn
      have hruns := hturn.append hrest
      rw [show 8 + 8 * (n + 1) = 8 * (n + 1 + 1) by omega] at hruns
      rw [lowBits, loopLight, List.map_append, List.map_append, List.map_replicate,
        List.map_replicate]
      exact hruns

/-- Start bit, data bits and stop bit. -/
theorem takes_frame (before : Bool) (w : Word) :
    ∃ x' y' osr', Takes lifiMultiTx lag 81 (txAt 1 x y w (ledPins before))
      ((frameLight w).map shine) (txAt 0 x' y' osr' (ledPins true)) := by
  have hstart : Takes lifiMultiTx lag 8 (txAt 1 x y w (ledPins before))
      (List.replicate 8 (shine false)) (txAt 2 x y w (ledPins false)) :=
    .instr ⟨.setPins 0, 7⟩ rfl rfl rfl (fun _ _ => rfl) rfl rfl
  have hset : Takes lifiMultiTx lag 1 (txAt 2 x y w (ledPins false)) [shine false]
      (txAt 3 (BitVec.ofNat 32 7) y w (ledPins false)) :=
    .instr ⟨.setX 7, 0⟩ rfl rfl rfl (fun _ _ => rfl) rfl rfl
  obtain ⟨x', y', osr', light, hloop⟩ :=
    takes_loop lag (by decide : 7 < 2 ^ 32) false y w
  have hstop : Takes lifiMultiTx lag 8 (txAt 9 x' y' osr' (ledPins light))
      (List.replicate 8 (shine true)) (txAt 0 x' y' osr' (ledPins true)) :=
    .instr ⟨.setPins 15, 7⟩ rfl rfl rfl (fun _ _ => rfl) rfl rfl
  refine ⟨x', y', osr', ?_⟩
  have hruns := ((hstart.append hset).append hloop).append hstop
  rw [frameLight, List.map_append, List.map_append, List.map_replicate,
    List.map_replicate]
  exact hruns

end

/-! ## What the program shows -/

/-- Waiting for a word; the LEDs are lit after every byte. -/
def txWaiting (lit : Bool) (x y osr : Word) (fifo : List Word) : State :=
  (txAt 0 x y osr (ledPins lit)).feed fifo

/-- The machine that `lifi_multi_tx_program_init` enables: no instruction has set the pins,
and the LEDs are dark. -/
def txStart : State :=
  txWaiting false 0 0 0 []

/-- The light in the cycles of a run in which the firmware sends `puts`. -/
def lifiLight (s : State) (puts : List (Option UInt8)) : List Bool :=
  ((lifiMultiTx.machine fun _ => 0).trace s
    (puts.map fun b => txIn (b.map lifiSendByte))).map fun o => o.pins != 0

theorem light_shine (light : List Bool) :
    (light.map shine).map (fun o => o.pins != 0) = light := by
  rw [List.map_map]
  refine (List.map_congr_left ?_).trans (List.map_id light)
  intro b _
  cases b
  · decide
  · decide

theorem putWords_puts (puts : List (Option UInt8)) :
    putWords (puts.map fun b => txIn (b.map lifiSendByte)) =
      puts.reduceOption.map lifiSendByte := by
  rw [putWords, List.map_map, ← List.reduceOption_map]
  rfl

variable {x y osr : Word}

/-- The LEDs stay as they are as long as there is nothing to send. -/
theorem lifiLight_idle (lit : Bool) (puts : List (Option UInt8)) :
    lifiLight (txWaiting lit x y osr []) (none :: puts) =
      lit :: lifiLight (txWaiting lit x y osr []) puts := by
  cases lit
  · rfl
  · rfl

variable (x y osr) in
theorem lifiLight_gap (lit : Bool) (gap : ℕ) (puts : List (Option UInt8)) :
    lifiLight (txWaiting lit x y osr []) (List.replicate gap none ++ puts) =
      List.replicate gap lit ++ lifiLight (txWaiting lit x y osr []) puts := by
  induction gap with
  | zero => rfl
  | succ gap ih =>
      rw [List.replicate_succ, List.cons_append, lifiLight_idle, ih]
      rfl

variable (x y osr) in
/-- A word is sent in 82 cycles, whatever the firmware puts meanwhile. -/
theorem lifiLight_frame (lit : Bool) {fifo rest : List UInt8} {put : Option UInt8}
    {byte : UInt8} (hbyte : fifo ++ put.toList = byte :: rest)
    (during puts : List (Option UInt8)) (hduring : during.length = 81) :
    ∃ x' y' osr', lifiLight (txWaiting lit x y osr (fifo.map lifiSendByte))
        (put :: (during ++ puts)) =
      (lit :: frameLight (lifiSendByte byte)) ++
        lifiLight (txWaiting true x' y' osr'
          ((rest ++ during.reduceOption).map lifiSendByte)) puts := by
  obtain ⟨x', y', osr', hframe⟩ := takes_frame (fun _ => 0) x y lit (lifiSendByte byte)
  refine ⟨x', y', osr', ?_⟩
  have hfifo : (txWaiting lit x y osr (fifo.map lifiSendByte)).feed
      (put.map lifiSendByte).toList =
        txWaiting lit x y osr (lifiSendByte byte :: rest.map lifiSendByte) := by
    have hword : (put.map lifiSendByte).toList = put.toList.map lifiSendByte := by
      cases put
      · rfl
      · rfl
    rw [txWaiting, State.feed_feed, hword, ← List.map_append, hbyte]
    rfl
  have hpull : (lifiMultiTx.machine fun _ => 0).Runs
      (txWaiting lit x y osr (fifo.map lifiSendByte)) [txIn (put.map lifiSendByte)]
      [shine lit]
      ((txAt 1 x y (lifiSendByte byte) (ledPins lit)).feed (rest.map lifiSendByte)) := by
    have hexec : lifiMultiTx.exec (fun _ => 0) false
        ((txWaiting lit x y osr (fifo.map lifiSendByte)).feed
          (put.map lifiSendByte).toList)
        .pullBlock = some ((txAt 1 x y (lifiSendByte byte) (ledPins lit)).feed
          (rest.map lifiSendByte), none) := by
      rw [hfifo]
      rfl
    have hruns := runs_instr (i := txIn (put.map lifiSendByte)) ⟨.pullBlock, 0⟩ rfl rfl
      hexec List.length_nil
    rw [putWords, List.map_nil, List.reduceOption_nil, State.feed_nil] at hruns
    exact hruns
  have hruns := hpull.append (hframe (rest.map lifiSendByte)
    (during.map fun b => txIn (b.map lifiSendByte)) (by rw [List.length_map, hduring]))
  rw [putWords_puts, ← List.map_append] at hruns
  have hlist : (put :: (during ++ puts)).map (fun b => txIn (b.map lifiSendByte)) =
      ([txIn (put.map lifiSendByte)] ++
        during.map fun b => txIn (b.map lifiSendByte)) ++
        puts.map fun b => txIn (b.map lifiSendByte) := by
    simp only [List.map_cons, List.map_append, List.cons_append, List.nil_append]
  have hlight := light_shine (lit :: frameLight (lifiSendByte byte))
  rw [lifiLight, hlist, Machine.trace_append, hruns.trace, hruns.run, List.map_append]
  exact congrArg (· ++ _) hlight

theorem length_lifiLight (s : State) (puts : List (Option UInt8)) :
    (lifiLight s puts).length = puts.length := by
  rw [lifiLight, List.length_map]
  induction puts generalizing s with
  | nil => rfl
  | cons put puts ih =>
      have hout (i : In) : ((lifiMultiTx.machine fun _ => 0).step s i).2.length = 1 :=
        length_cycle s i
      rw [List.map_cons, Machine.trace_cons, List.length_append, hout, ih, Nat.add_comm]
      rfl

/-! ## Dark turns -/

/-- As long as the bits are zero the LEDs stay dark. -/
theorem loopLight_zeros (n : ℕ) (bits : List Bool) :
    loopLight false (List.replicate n false ++ bits) =
      List.replicate (8 * n) false ++ loopLight false bits := by
  induction n with
  | zero => rfl
  | succ n ih =>
      rw [List.replicate_succ, List.cons_append, loopLight, ih,
        List.replicate_append_replicate, ← List.append_assoc,
        List.replicate_append_replicate, show 2 + 6 + 8 * n = 8 * (n + 1) by omega]

end LifiAuth
