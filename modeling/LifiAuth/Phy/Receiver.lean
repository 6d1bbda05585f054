import LifiAuth.Phy.Transmitter

/-!
# The receiving program

`lifi_rx.pio`: the start bit is noticed with a lag, and from there on everything happens
at fixed times.  With a lag of at most four cycles each sample falls on its bit, and the
program waits again before the next byte can begin.  A line that is dark before there is a
frame is taken for a start bit, too.
-/

namespace LifiAuth

open Support Pio

/-- `lifi_rx`; the label is address 2. -/
def lifiRx : Program where
  instrs :=
    [⟨.waitPin true, 0⟩,
      ⟨.setX 7, 10⟩,
      ⟨.inPin, 6⟩,
      ⟨.jmpXDec 2, 0⟩,
      ⟨.waitPin false, 0⟩]
  wrapTarget := 0
  wrap := 4
  pushThreshold := 8

/-- `~(uint8_t)(word >> 24)`. -/
def rxByte (word : Word) : UInt8 :=
  ~~~UInt8.ofBitVec ((word >>> 24).setWidth 8)

/-- The line is high where the LEDs are dark. -/
def rxIn (light : Bool) : In :=
  ⟨!light, none⟩

/-- The machine between two instructions. -/
def rxAt (pc : ℕ) (x isr : Word) (isrCount edges : ℕ) : State :=
  ⟨pc, x, 0, 0, isr, isrCount, 0, 0, [], edges⟩

/-- The words pushed during a run. -/
def pushedWords (os : List Out) : List Word :=
  (os.map Out.pushed).reduceOption

theorem pushedWords_append (os ps : List Out) :
    pushedWords (os ++ ps) = pushedWords os ++ pushedWords ps := by
  rw [pushedWords, List.map_append, List.reduceOption_append]
  rfl

variable (lag : ℕ → ℕ)

/-- In this light the program gets from `s` to `s'` and pushes `ws`. -/
def Receives (s : State) (light : List Bool) (ws : List Word) (s' : State) : Prop :=
  ∃ os, (lifiRx.machine lag).Runs s (light.map rxIn) os s' ∧ pushedWords os = ws

section

variable {lag} {s s' s'' : State} {light light' : List Bool} {ws ws' : List Word}

theorem Receives.append (h : Receives lag s light ws s')
    (h' : Receives lag s' light' ws' s'') :
    Receives lag s (light ++ light') (ws ++ ws') s'' := by
  obtain ⟨os, hruns, hpushed⟩ := h
  obtain ⟨os', hruns', hpushed'⟩ := h'
  refine ⟨os ++ os', ?_, ?_⟩
  · rw [List.map_append]
    exact hruns.append hruns'
  · rw [pushedWords_append, hpushed, hpushed']

theorem putWords_rxIn (light : List Bool) : putWords (light.map rxIn) = [] := by
  induction light with
  | nil => rfl
  | cons b light ih =>
      rw [List.map_cons, putWords_cons, ih]
      rfl

theorem pushedWords_quiet (n : ℕ) (pins : Word) :
    pushedWords (List.replicate n ⟨pins, none⟩) = [] := by
  induction n with
  | zero => rfl
  | succ n ih => exact ih

/-- An instruction takes its time, and looks at the line in its first cycle. -/
theorem Receives.instr (instr : Instr) {pushed : Option Word} {b : Bool}
    (hdelay : s.delay = 0) (hfetch : lifiRx.instrs[s.pc]? = some instr)
    (hexec : lifiRx.exec lag (!b) s instr.op = some (s', pushed))
    (hlight : light.length = s'.delay + instr.delay) :
    Receives lag s (b :: light) pushed.toList { s' with delay := 0 } := by
  have hexec' : lifiRx.exec lag (rxIn b).pin (s.feed (rxIn b).put.toList) instr.op =
      some (s', pushed) := by
    rw [rxIn, Option.toList_none, State.feed_nil]
    exact hexec
  have hlen : (light.map rxIn).length = s'.delay + instr.delay := by
    rw [List.length_map, hlight]
  have hruns := runs_instr instr hdelay hfetch hexec' hlen
  rw [putWords_rxIn, State.feed_nil] at hruns
  refine ⟨_, hruns, ?_⟩
  rw [← List.singleton_append, pushedWords_append, pushedWords_quiet, List.append_nil]
  cases pushed
  · rfl
  · rfl

/-- As long as the LEDs are lit no start bit is seen. -/
theorem receives_idle (x isr : Word) (edges n : ℕ) :
    Receives lag (rxAt 0 x isr 0 edges) (List.replicate n true) []
      (rxAt 0 x isr 0 edges) := by
  induction n with
  | zero => exact ⟨[], .nil _, rfl⟩
  | succ n ih =>
      obtain ⟨os, hruns, hpushed⟩ := ih
      have hwait : (lifiRx.machine lag).Runs (rxAt 0 x isr 0 edges) [rxIn true]
          [⟨0, none⟩] (rxAt 0 x isr 0 edges) :=
        runs_wait ⟨.waitPin true, 0⟩ rfl rfl rfl
      exact ⟨_, hwait.append hruns, hpushed⟩

/-- From the start edge to the first sample. -/
theorem receives_start (x isr : Word) (edges : ℕ) {light : List Bool}
    (hlight : light.length = lag edges + 11) :
    Receives lag (rxAt 0 x isr 0 edges) (false :: light) []
      (rxAt 2 7 isr 0 (edges + 1)) := by
  have hwait : Receives lag (rxAt 0 x isr 0 edges) (false :: light.take (lag edges)) []
      (rxAt 1 x isr 0 (edges + 1)) := by
    have hexec : lifiRx.exec lag (!false) (rxAt 0 x isr 0 edges) (.waitPin true) =
        some ({ rxAt 1 x isr 0 (edges + 1) with delay := lag edges }, none) :=
      rfl
    have hlen : (light.take (lag edges)).length = lag edges := by
      rw [List.length_take, hlight]
      exact Nat.min_eq_left (by omega)
    exact Receives.instr ⟨.waitPin true, 0⟩ rfl rfl hexec hlen
  have hrest : (light.drop (lag edges)).length = 10 + 1 := by
    rw [List.length_drop, hlight]
    omega
  obtain ⟨b, rest, hsplit⟩ := List.exists_cons_of_length_eq_add_one hrest
  have hset : Receives lag (rxAt 1 x isr 0 (edges + 1)) (b :: rest) []
      (rxAt 2 7 isr 0 (edges + 1)) := by
    refine Receives.instr ⟨.setX 7, 10⟩ rfl rfl rfl ?_
    rw [hsplit] at hrest
    exact Nat.succ.inj hrest
  have hruns := hwait.append hset
  rw [List.cons_append, ← hsplit, List.take_append_drop] at hruns
  exact hruns

/-- A sample and the rest of its turn of the loop. -/
theorem receives_turn {x isr isr' : Word} {count count' edges : ℕ}
    {pushed : Option Word} {b : Bool} {light : List Bool}
    (hexec : lifiRx.exec lag (!b) (rxAt 2 x isr count edges) .inPin =
      some (rxAt 3 x isr' count' edges, pushed)) (hlight : light.length = 7) :
    Receives lag (rxAt 2 x isr count edges) (b :: light) pushed.toList
      (rxAt (if x = 0 then 4 else 2) (x - 1) isr' count' edges) := by
  have hsample : Receives lag (rxAt 2 x isr count edges) (b :: light.take 6)
      pushed.toList (rxAt 3 x isr' count' edges) := by
    have hlen : (light.take 6).length = 6 := by
      rw [List.length_take, hlight]
      rfl
    exact Receives.instr ⟨.inPin, 6⟩ rfl rfl hexec hlen
  have hrest : (light.drop 6).length = 0 + 1 := by
    rw [List.length_drop, hlight]
  obtain ⟨c, rest, hsplit⟩ := List.exists_cons_of_length_eq_add_one hrest
  have hdec : Receives lag (rxAt 3 x isr' count' edges) (c :: rest) []
      (rxAt (if x = 0 then 4 else 2) (x - 1) isr' count' edges) := by
    have hexec : lifiRx.exec lag (!c) (rxAt 3 x isr' count' edges) (.jmpXDec 2) =
        some (rxAt (if x = 0 then 4 else 2) (x - 1) isr' count' edges, none) :=
      rfl
    rw [hsplit] at hrest
    exact Receives.instr ⟨.jmpXDec 2, 0⟩ rfl rfl hexec (Nat.succ.inj hrest)
  have hruns := hsample.append hdec
  rw [List.cons_append, ← hsplit, List.take_append_drop, List.append_nil] at hruns
  exact hruns

/-! ### One word -/

/-- What is sampled every eight cycles. -/
def sampled : ℕ → List Bool → List Bool
  | 0, _ => []
  | n + 1, light => light.headD false :: sampled n (light.drop 8)

theorem length_sampled (n : ℕ) (light : List Bool) : (sampled n light).length = n := by
  induction n generalizing light with
  | zero => rfl
  | succ n ih => rw [sampled, List.length_cons, ih]

theorem getElem?_sampled {n k : ℕ} (hk : k < n) (light : List Bool) :
    (sampled n light)[k]? = some (light.getD (8 * k) false) := by
  induction n generalizing k light with
  | zero => exact absurd hk (Nat.not_lt_zero k)
  | succ n ih =>
      cases k with
      | zero =>
          cases light
          · rfl
          · rfl
      | succ k =>
          rw [sampled, List.getElem?_cons_succ, ih (Nat.lt_of_succ_lt_succ hk),
            List.getD_eq_getElem?_getD, List.getD_eq_getElem?_getD, List.getElem?_drop,
            Nat.mul_succ, Nat.add_comm]

variable (lag) in
/-- The turns of the loop, whatever the light shows in them. -/
theorem receives_loop (isr : Word) {n count : ℕ} (hcount : count + n + 1 = 8) (edges : ℕ)
    {light : List Bool} (hlight : light.length = 8 * (n + 1)) :
    ∃ x', Receives lag (rxAt 2 (BitVec.ofNat 32 n) isr count edges) light
      [((sampled (n + 1) light).map (!·)).foldl shiftIn isr] (rxAt 4 x' 0 0 edges) := by
  induction n generalizing isr count light with
  | zero =>
      obtain ⟨bit, turn, rfl⟩ := List.exists_cons_of_length_eq_add_one hlight
      have hexec : lifiRx.exec lag (!bit) (rxAt 2 0 isr count edges) .inPin =
          some (rxAt 3 0 0 0 edges, some (shiftIn isr !bit)) :=
        if_pos hcount
      exact ⟨_, receives_turn hexec (Nat.succ.inj hlight)⟩
  | succ n ih =>
      have hfirst : (light.take 8).length = 7 + 1 := by
        rw [List.length_take, hlight]
        omega
      obtain ⟨bit, turn, hturn⟩ := List.exists_cons_of_length_eq_add_one hfirst
      have hbit : light.headD false = bit := by
        rw [← List.take_append_drop 8 light, hturn]
        rfl
      have hexec : lifiRx.exec lag (!bit)
          (rxAt 2 (BitVec.ofNat 32 (n + 1)) isr count edges) .inPin =
            some (rxAt 3 (BitVec.ofNat 32 (n + 1)) (shiftIn isr !bit) (count + 1) edges,
              none) :=
        if_neg (by omega : count + 1 ≠ 8)
      rw [hturn] at hfirst
      have hsample := receives_turn hexec (Nat.succ.inj hfirst)
      rw [if_neg (ofNat_succ_ne_zero (by omega)), ofNat_succ_sub_one, ← hturn] at hsample
      have hlater : (light.drop 8).length = 8 * (n + 1) := by
        rw [List.length_drop, hlight]
        omega
      obtain ⟨x', hrest⟩ :=
        ih (shiftIn isr !bit) (by omega : count + 1 + n + 1 = 8) hlater
      have hruns := hsample.append hrest
      rw [List.take_append_drop] at hruns
      rw [sampled, hbit]
      exact ⟨x', hruns⟩

variable (lag) in
/-- From a dark cycle on a word is pushed, whether a frame has begun or not. -/
theorem receives_word (x isr : Word) (edges : ℕ) {light : List Bool}
    (hlight : light.length = lag edges + 75) :
    ∃ x', Receives lag (rxAt 0 x isr 0 edges) (false :: light)
      [((sampled 8 (light.drop (lag edges + 11))).map (!·)).foldl shiftIn isr]
      (rxAt 4 x' 0 0 (edges + 1)) := by
  have hfirst : (light.take (lag edges + 11)).length = lag edges + 11 := by
    rw [List.length_take, hlight]
    omega
  have hlater : (light.drop (lag edges + 11)).length = 8 * (7 + 1) := by
    rw [List.length_drop, hlight]
    omega
  obtain ⟨x', hloop⟩ := receives_loop lag isr (Nat.zero_add 8) (edges + 1) hlater
  have hruns := (receives_start x isr edges hfirst).append hloop
  rw [List.cons_append, List.take_append_drop] at hruns
  exact ⟨x', hruns⟩

variable (lag) in
/-- Behind a word the program waits for light, and in the light for a start bit. -/
theorem receives_stop (x : Word) (edges k n : ℕ) :
    Receives lag (rxAt 4 x 0 0 edges)
      (List.replicate k false ++ List.replicate (n + 1) true) [] (rxAt 0 x 0 0 edges) := by
  induction k with
  | zero =>
      have hexec : lifiRx.exec lag (!true) (rxAt 4 x 0 0 edges) (.waitPin false) =
          some (rxAt 0 x 0 0 edges, none) :=
        rfl
      have hwait : Receives lag (rxAt 4 x 0 0 edges) [true] [] (rxAt 0 x 0 0 edges) :=
        Receives.instr ⟨.waitPin false, 0⟩ rfl rfl hexec rfl
      exact hwait.append (receives_idle x 0 edges n)
  | succ k ih =>
      obtain ⟨os, hruns, hpushed⟩ := ih
      have hwait : (lifiRx.machine lag).Runs (rxAt 4 x 0 0 edges) [rxIn false]
          [⟨0, none⟩] (rxAt 4 x 0 0 edges) :=
        runs_wait ⟨.waitPin false, 0⟩ rfl rfl rfl
      exact ⟨_, hwait.append hruns, hpushed⟩

/-! ### One frame -/

/-- Sampled when at most five of its eight cycles have passed, each bit is read. -/
theorem sampled_loopLight {e : ℕ} (he : e ≤ 5) (bit : Bool) (bits after : List Bool) :
    sampled (bits.length + 1)
      (List.replicate (6 - e) bit ++ loopLight bit bits ++ after) = bit :: bits := by
  induction bits generalizing bit with
  | nil =>
      rw [show 6 - e = (5 - e) + 1 by omega, List.replicate_succ]
      rfl
  | cons next bits ih =>
      have hlight : List.replicate (6 - e) bit ++ loopLight bit (next :: bits) ++ after =
          (bit :: (List.replicate (5 - e) bit ++ List.replicate 2 bit ++
            List.replicate e next)) ++
            (List.replicate (6 - e) next ++ loopLight next bits ++ after) := by
        rw [show 6 - e = (5 - e) + 1 by omega, List.replicate_succ, loopLight,
          show 6 = e + ((5 - e) + 1) by omega, ← List.replicate_append_replicate]
        simp only [List.cons_append, List.append_assoc]
      have hlen : (bit :: (List.replicate (5 - e) bit ++ List.replicate 2 bit ++
          List.replicate e next)).length = 8 := by
        simp only [List.length_cons, List.length_append, List.length_replicate]
        omega
      rw [hlight, List.length_cons, sampled, List.drop_left' hlen, ih]
      rfl

/-- A frame that begins `h` cycles after the line went dark is read if the receiver has
not noticed the dark line by then. -/
theorem receives_noticed (x isr w : Word) (edges : ℕ) (hlag : lag edges ≤ 4) {h : ℕ}
    (hnotice : h ≤ lag edges + 1) :
    ∃ x', Receives lag (rxAt 0 x isr 0 edges) (List.replicate h false ++ frameLight w)
      [((lowBits 8 w).map (!·)).foldl shiftIn isr] (rxAt 0 x' 0 0 (edges + 1)) := by
  obtain ⟨bit, bits, hbits⟩ := List.exists_cons_of_length_eq_add_one (length_lowBits 8 w)
  have hlen : bits.length = 7 := by
    have hall := length_lowBits 8 w
    rw [hbits] at hall
    exact Nat.succ.inj hall
  -- Of the six cycles that show a bit, `e` have passed when it is sampled.
  obtain ⟨e, he⟩ : ∃ e, lag edges + 1 = h + e := ⟨_, (Nat.add_sub_cancel' hnotice).symm⟩
  have hlight : List.replicate h false ++ frameLight w =
      (false :: (List.replicate (h + 10) false ++ List.replicate e bit ++
        (List.replicate (6 - e) bit ++ loopLight bit bits ++
          List.replicate (e + 2) true))) ++ List.replicate (6 - e) true := by
    have hdark : List.replicate h false ++ List.replicate 9 false ++
        List.replicate 2 false = false :: List.replicate (h + 10) false := by
      rw [List.replicate_append_replicate, List.replicate_append_replicate,
        ← List.replicate_succ]
    have hdata : List.replicate 6 bit = List.replicate e bit ++ List.replicate (6 - e) bit := by
      rw [List.replicate_append_replicate, Nat.add_sub_cancel' (by omega)]
    have hstop : List.replicate 8 true =
        List.replicate (e + 2) true ++ List.replicate (6 - e) true := by
      rw [List.replicate_append_replicate, show e + 2 + (6 - e) = 8 by omega]
    rw [frameLight, hbits, loopLight, hdata, hstop, ← List.cons_append, ← List.cons_append,
      ← hdark]
    simp only [List.append_assoc]
  have hsamples : sampled 8 ((List.replicate (h + 10) false ++ List.replicate e bit ++
      (List.replicate (6 - e) bit ++ loopLight bit bits ++
        List.replicate (e + 2) true)).drop (lag edges + 11)) = lowBits 8 w := by
    have hskip : (List.replicate (h + 10) false ++ List.replicate e bit).length =
        lag edges + 11 := by
      rw [List.length_append, List.length_replicate, List.length_replicate]
      omega
    have hread := sampled_loopLight (by omega : e ≤ 5) bit bits (List.replicate (e + 2) true)
    rw [hlen] at hread
    rw [List.drop_left' hskip, hbits]
    exact hread
  have hcycles : (List.replicate (h + 10) false ++ List.replicate e bit ++
      (List.replicate (6 - e) bit ++ loopLight bit bits ++
        List.replicate (e + 2) true)).length = lag edges + 75 := by
    simp only [List.length_append, List.length_replicate, length_loopLight, hlen]
    omega
  obtain ⟨x', hword⟩ := receives_word lag x isr edges hcycles
  rw [hsamples] at hword
  have hstop : Receives lag (rxAt 4 x' 0 0 (edges + 1)) (List.replicate (6 - e) true) []
      (rxAt 0 x' 0 0 (edges + 1)) := by
    have hwait := receives_stop lag x' (edges + 1) 0 (5 - e)
    rw [List.replicate_zero, List.nil_append, show 5 - e + 1 = 6 - e by omega] at hwait
    exact hwait
  rw [hlight]
  exact ⟨x', hword.append hstop⟩

/-- A frame after a lit cycle gives one word, and the program waits again. -/
theorem receives_frame (x isr w : Word) (edges : ℕ) (hlag : lag edges ≤ 4) :
    ∃ x', Receives lag (rxAt 0 x isr 0 edges) (true :: frameLight w)
      [((lowBits 8 w).map (!·)).foldl shiftIn isr] (rxAt 0 x' 0 0 (edges + 1)) := by
  obtain ⟨x', hframe⟩ := receives_noticed x isr w edges hlag (Nat.zero_le _)
  exact ⟨x', (receives_idle x isr edges 1).append hframe⟩

end

end LifiAuth
