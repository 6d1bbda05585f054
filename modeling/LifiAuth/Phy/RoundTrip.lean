import LifiAuth.Phy.Receiver

/-!
# The light link carries bytes

Both programs run at the same rate, and the receiver sees the light of the transmitter
inverted.  Once the LEDs are lit it pushes one word for each byte that is sent, in order and
at whatever times, and the firmware gets the byte back from it.  But they are dark until the
first byte has been sent, and the receiver takes the dark line for a start bit.
-/

namespace LifiAuth

open Support Pio

variable (lag : ℕ → ℕ)

/-- The bytes that the receiving firmware gets in a run in which the transmitting one
sends `puts`. -/
def lifiReceived (tx rx : State) (puts : List (Option UInt8)) : List UInt8 :=
  (pushedWords ((lifiRx.machine lag).trace rx
    ((lifiLight tx puts).map rxIn))).map rxByte

/-- Waiting for a start bit. -/
def rxIdle (x : Word) (edges : ℕ) : State :=
  rxAt 0 x 0 0 edges

/-- The inverted bits of a byte, shifted in one after the other, give it back. -/
theorem rxByte_samples (byte : UInt8) :
    rxByte (((lowBits 8 (lifiSendByte byte)).map (!·)).foldl shiftIn 0) = byte := by
  obtain ⟨b⟩ := byte
  revert b
  decide +kernel

section

variable {lag} {x y osr x' : Word} {edges : ℕ}

theorem lifiReceived_of_receives {tx tx' rx rx' : State}
    {puts puts' : List (Option UInt8)} {light : List Bool} {ws : List Word}
    (hlight : lifiLight tx puts = light ++ lifiLight tx' puts')
    (h : Receives lag rx light ws rx') :
    lifiReceived lag tx rx puts = ws.map rxByte ++ lifiReceived lag tx' rx' puts' := by
  obtain ⟨os, hruns, hpushed⟩ := h
  rw [lifiReceived, hlight, List.map_append, Machine.trace_append, hruns.trace, hruns.run,
    pushedWords_append, hpushed, List.map_append]
  rfl

theorem lifiReceived_idle (puts : List (Option UInt8)) :
    lifiReceived lag (txWaiting true x y osr []) (rxIdle x' edges) (none :: puts) =
      lifiReceived lag (txWaiting true x y osr []) (rxIdle x' edges) puts :=
  lifiReceived_of_receives (lifiLight_idle true puts) (receives_idle x' 0 edges 1)

variable (x y osr x') in
/-- One byte, and both programs wait again. -/
theorem lifiReceived_frame (hlag : lag edges ≤ 4) {fifo rest : List UInt8}
    {put : Option UInt8} {byte : UInt8} (hbyte : fifo ++ put.toList = byte :: rest)
    (during puts : List (Option UInt8)) (hduring : during.length = 81) :
    ∃ x₁ y₁ osr₁ x₂, lifiReceived lag (txWaiting true x y osr (fifo.map lifiSendByte))
        (rxIdle x' edges) (put :: (during ++ puts)) =
      byte :: lifiReceived lag
        (txWaiting true x₁ y₁ osr₁ ((rest ++ during.reduceOption).map lifiSendByte))
        (rxIdle x₂ (edges + 1)) puts := by
  obtain ⟨x₁, y₁, osr₁, hlight⟩ := lifiLight_frame x y osr true hbyte during puts hduring
  obtain ⟨x₂, hframe⟩ := receives_frame x' 0 (lifiSendByte byte) edges hlag
  refine ⟨x₁, y₁, osr₁, x₂, ?_⟩
  have hreceived := lifiReceived_of_receives hlight hframe
  rw [List.map_singleton, rxByte_samples] at hreceived
  exact hreceived

end

/-- After the last of `puts` there is time for everything that waits or comes. -/
def Settles (fifo : List UInt8) (puts : List (Option UInt8)) : Prop :=
  ∃ sent n, puts = sent ++ List.replicate n none ∧
    82 * (fifo.length + sent.reduceOption.length) ≤ n

section

variable {lag} {fifo rest : List UInt8} {puts : List (Option UInt8)}

theorem reduceOption_replicate_none (n : ℕ) :
    (List.replicate n (none : Option UInt8)).reduceOption = [] := by
  induction n with
  | zero => rfl
  | succ n ih => rw [List.replicate_succ, List.reduceOption_cons_of_none, ih]

theorem reduceOption_cons (put : Option UInt8) (puts : List (Option UInt8)) :
    (put :: puts).reduceOption = put.toList ++ puts.reduceOption := by
  cases put
  · rfl
  · rfl

theorem Settles.idle (h : Settles [] (none :: puts)) : Settles [] puts := by
  obtain ⟨sent, n, hputs, hn⟩ := h
  cases sent with
  | nil =>
      cases n with
      | zero => cases hputs
      | succ n => exact ⟨[], n, (List.cons.inj hputs).2, Nat.zero_le n⟩
  | cons put sent =>
      obtain ⟨rfl, htail⟩ := List.cons.inj hputs
      exact ⟨sent, n, htail, hn⟩

/-- There is time for a frame, and after it for the others. -/
theorem Settles.frame {put : Option UInt8} {byte : UInt8}
    (h : Settles fifo (put :: puts)) (hbyte : fifo ++ put.toList = byte :: rest) :
    81 ≤ puts.length ∧
      Settles (rest ++ (puts.take 81).reduceOption) (puts.drop 81) := by
  obtain ⟨sent, n, hputs, hn⟩ := h
  have hword := congrArg List.length hbyte
  rw [List.length_append, List.length_cons] at hword
  have hlen := congrArg List.length hputs
  rw [List.length_cons, List.length_append, List.length_replicate] at hlen
  have hsent : put.toList ++ puts.reduceOption = sent.reduceOption := by
    rw [← reduceOption_cons, hputs, List.reduceOption_append,
      reduceOption_replicate_none, List.append_nil]
  have hdrop : puts.drop 81 =
      sent.drop 82 ++ List.replicate (n - (82 - sent.length)) none := by
    have h := congrArg (List.drop 82) hputs
    rw [List.drop_append, List.drop_replicate, List.drop_succ_cons] at h
    exact h
  have hlate : (puts.drop 81).reduceOption = (sent.drop 82).reduceOption := by
    rw [hdrop, List.reduceOption_append, reduceOption_replicate_none, List.append_nil]
  have hsplit : (puts.take 81).reduceOption ++ (puts.drop 81).reduceOption =
      puts.reduceOption := by
    rw [← List.reduceOption_append, List.take_append_drop]
  have hcount := congrArg List.length hsent
  rw [← hsplit, hlate] at hcount
  simp only [List.length_append] at hcount
  refine ⟨by omega, sent.drop 82, n - (82 - sent.length), hdrop, ?_⟩
  rw [List.length_append]
  omega

end

/-- From waiting programs, everything sent is received. -/
theorem lifiReceived_eq (hlag : ∀ k, lag k ≤ 4) {fifo : List UInt8}
    {puts : List (Option UInt8)} (h : Settles fifo puts) (x y osr x' : Word)
    (edges : ℕ) :
    lifiReceived lag (txWaiting true x y osr (fifo.map lifiSendByte)) (rxIdle x' edges) puts =
      fifo ++ puts.reduceOption := by
  induction hn : puts.length using Nat.strong_induction_on generalizing
    fifo puts x y osr x' edges with
  | h n ih =>
      subst hn
      cases puts with
      | nil =>
          obtain ⟨sent, k, hputs, hk⟩ := h
          have hlen := congrArg List.length hputs
          rw [List.length_nil, List.length_append, List.length_replicate] at hlen
          have hfifo : fifo = [] := List.length_eq_zero_iff.mp (by omega)
          rw [hfifo]
          rfl
      | cons put puts =>
          cases hbyte : fifo ++ put.toList with
          | nil =>
              obtain ⟨rfl, hput⟩ := List.append_eq_nil_iff.mp hbyte
              obtain rfl := Option.toList_eq_nil_iff.mp hput
              rw [List.map_nil, lifiReceived_idle, List.reduceOption_cons_of_none]
              exact ih puts.length (Nat.lt_succ_self _) h.idle x y osr x' edges rfl
          | cons byte rest =>
              obtain ⟨hlong, hsettles⟩ := h.frame hbyte
              have hduring : (puts.take 81).length = 81 := by
                rw [List.length_take]
                omega
              obtain ⟨x₁, y₁, osr₁, x₂, hframe⟩ := lifiReceived_frame x y osr x'
                (hlag edges) hbyte (puts.take 81) (puts.drop 81) hduring
              rw [List.take_append_drop] at hframe
              have hrest := ih (puts.drop 81).length
                (by rw [List.length_drop, List.length_cons]; omega)
                hsettles x₁ y₁ osr₁ x₂ (edges + 1) rfl
              rw [hframe, hrest, reduceOption_cons, ← List.append_assoc, hbyte,
                List.append_assoc, ← List.reduceOption_append, List.take_append_drop]
              rfl

/-- What was received stays received. -/
theorem lifiReceived_prefix (tx rx : State) (puts later : List (Option UInt8)) :
    lifiReceived lag tx rx puts <+: lifiReceived lag tx rx (puts ++ later) := by
  simp only [lifiReceived, lifiLight, List.map_append, Machine.trace_append,
    pushedWords_append]
  exact List.prefix_append _ _

/-- The bytes received at any time are the first of those sent, and 82 cycles for each byte
after the last of them they are all of them. -/
def RoundTrips (tx rx : State) (puts : List (Option UInt8)) : Prop :=
  lifiReceived lag tx rx puts <+: puts.reduceOption ∧
    ∀ n, 82 * puts.reduceOption.length ≤ n →
      lifiReceived lag tx rx (puts ++ List.replicate n none) = puts.reduceOption

section

variable {lag} {tx rx : State} {puts : List (Option UInt8)} {x y osr x' : Word} {edges : ℕ}

theorem roundTrips_of_all (hall : ∀ n, 82 * puts.reduceOption.length ≤ n →
    lifiReceived lag tx rx (puts ++ List.replicate n none) = puts.reduceOption) :
    RoundTrips lag tx rx puts := by
  have hfirst := lifiReceived_prefix lag tx rx puts
    (List.replicate (82 * puts.reduceOption.length) none)
  rw [hall _ (Nat.le_refl _)] at hfirst
  exact ⟨hfirst, hall⟩

theorem settles_all {n : ℕ} (hn : 82 * puts.reduceOption.length ≤ n) :
    Settles [] (puts ++ List.replicate n none) :=
  ⟨puts, n, rfl, by rw [List.length_nil, Nat.zero_add]; exact hn⟩

theorem reduceOption_all (n : ℕ) :
    (puts ++ List.replicate n none).reduceOption = puts.reduceOption := by
  rw [List.reduceOption_append, reduceOption_replicate_none, List.append_nil]

/-- In the light everything comes through. -/
theorem roundTrips_lit (hlag : ∀ k, lag k ≤ 4) :
    RoundTrips lag (txWaiting true x y osr []) (rxIdle x' edges) puts := by
  refine roundTrips_of_all fun n hn => ?_
  have heq := lifiReceived_eq lag hlag (settles_all hn) x y osr x' edges
  rw [reduceOption_all] at heq
  exact heq

/-! ## In the dark -/

/-- What the first byte must be like if there is no start edge before it: all dark, or
pulled before the receiver notices that the line is dark. -/
def Unhurt (lag : ℕ) (puts : List (Option UInt8)) : Prop :=
  ∃ gap byte rest, puts = List.replicate gap none ++ some byte :: rest ∧
    (byte = 0 ∨ gap ≤ lag)

/-- The samples of a word, from the byte that it is taken for. -/
theorem lowBits_rxByte (bits : List Bool) (hbits : bits.length = 8) :
    lowBits 8 (lifiSendByte (rxByte ((bits.map (!·)).foldl shiftIn 0))) = bits := by
  obtain ⟨b₀, b₁, b₂, b₃, b₄, b₅, b₆, b₇, rfl⟩ : ∃ b₀ b₁ b₂ b₃ b₄ b₅ b₆ b₇,
      bits = [b₀, b₁, b₂, b₃, b₄, b₅, b₆, b₇] := by
    match bits, hbits with
    | [b₀, b₁, b₂, b₃, b₄, b₅, b₆, b₇], _ => exact ⟨_, _, _, _, _, _, _, _, rfl⟩
  revert b₀ b₁ b₂ b₃ b₄ b₅ b₆ b₇
  decide +kernel

theorem sampled_dark {n dark : ℕ} (hdark : 8 * n ≤ dark + 7) (after : List Bool) :
    sampled n (List.replicate dark false ++ after) = List.replicate n false := by
  refine List.ext_getElem? fun k => ?_
  rcases Nat.lt_or_ge k n with hk | hk
  · have hbefore : 8 * k < dark := by omega
    rw [getElem?_sampled hk, List.getElem?_replicate_of_lt hk, List.getD_eq_getElem?_getD,
      List.getElem?_append_left (by rw [List.length_replicate]; exact hbefore),
      List.getElem?_replicate_of_lt hbefore]
    rfl
  · rw [List.getElem?_eq_none (by rw [length_sampled]; exact hk),
      List.getElem?_eq_none (by rw [List.length_replicate]; exact hk)]

theorem sampled_take (n : ℕ) (light : List Bool) :
    sampled n (light.take (8 * n)) = sampled n light := by
  refine List.ext_getElem? fun k => ?_
  rcases Nat.lt_or_ge k n with hk | hk
  · rw [getElem?_sampled hk, getElem?_sampled hk, List.getD_eq_getElem?_getD,
      List.getD_eq_getElem?_getD, List.getElem?_take_of_lt (by omega)]
  · rw [List.getElem?_eq_none (by rw [length_sampled]; exact hk),
      List.getElem?_eq_none (by rw [length_sampled]; exact hk)]

/-- A first frame that is all dark is read, however long the line has been dark before. -/
theorem receives_darkFrame (x : Word) (hlag : lag edges ≤ 4) (gap : ℕ) :
    ∃ x', Receives lag (rxAt 0 x 0 0 edges)
      (List.replicate (gap + 1) false ++ frameLight (lifiSendByte 0))
      [((lowBits 8 (lifiSendByte 0)).map (!·)).foldl shiftIn 0]
      (rxAt 0 x' 0 0 (edges + 1)) := by
  have hframe : frameLight (lifiSendByte 0) =
      List.replicate 73 false ++ List.replicate 8 true := by decide
  have hzero : lowBits 8 (lifiSendByte 0) = List.replicate 8 false := by decide
  -- Whether the word ends before the frame or in its stop bit, it has been sampled in the dark.
  obtain ⟨dark, lit, late, n, hlight, hdark, hcycles⟩ : ∃ dark lit late n,
      List.replicate (gap + 1) false ++ frameLight (lifiSendByte 0) =
        (false :: (List.replicate dark false ++ List.replicate lit true)) ++
          (List.replicate late false ++ List.replicate (n + 1) true) ∧
      lag edges + 68 ≤ dark ∧ dark + lit = lag edges + 75 := by
    have hall : List.replicate (gap + 1) false ++ frameLight (lifiSendByte 0) =
        false :: (List.replicate (gap + 73) false ++ List.replicate 8 true) := by
      rw [hframe, ← List.append_assoc, List.replicate_append_replicate,
        show gap + 1 + 73 = (gap + 73) + 1 by omega, List.replicate_succ, List.cons_append]
    rw [hall]
    rcases Nat.le_total (lag edges + 75) (gap + 73) with hlong | hshort
    · refine ⟨lag edges + 75, 0, gap + 73 - (lag edges + 75), 7, ?_, by omega, rfl⟩
      rw [List.replicate_zero, List.append_nil, List.cons_append, ← List.append_assoc,
        List.replicate_append_replicate, Nat.add_sub_cancel' hlong]
    · refine ⟨gap + 73, lag edges + 2 - gap, 0, gap + 5 - lag edges, ?_, by omega, by omega⟩
      rw [List.replicate_zero, List.nil_append, List.cons_append, List.append_assoc,
        List.replicate_append_replicate,
        show lag edges + 2 - gap + (gap + 5 - lag edges + 1) = 8 by omega]
  have hlen : (List.replicate dark false ++ List.replicate lit true).length =
      lag edges + 75 := by
    rw [List.length_append, List.length_replicate, List.length_replicate, hcycles]
  have hsamples : sampled 8 ((List.replicate dark false ++ List.replicate lit true).drop
      (lag edges + 11)) = List.replicate 8 false := by
    rw [List.drop_append_of_le_length (by rw [List.length_replicate]; omega),
      List.drop_replicate]
    exact sampled_dark (by omega) _
  obtain ⟨x', hword⟩ := receives_word lag x 0 edges hlen
  rw [hsamples, ← hzero] at hword
  rw [hlight]
  exact ⟨x', hword.append (receives_stop lag x' (edges + 1) late n)⟩

variable (x y osr x') in
/-- From the dark a first frame that is unhurt gives its byte. -/
theorem lifiReceived_unhurt (hlag : lag edges ≤ 4) {gap : ℕ} {byte : UInt8}
    (h : byte = 0 ∨ gap ≤ lag edges) (during puts : List (Option UInt8))
    (hduring : during.length = 81) :
    ∃ x₁ y₁ osr₁ x₂, lifiReceived lag (txWaiting false x y osr []) (rxIdle x' edges)
        (List.replicate gap none ++ some byte :: (during ++ puts)) =
      byte :: lifiReceived lag
        (txWaiting true x₁ y₁ osr₁ (during.reduceOption.map lifiSendByte))
        (rxIdle x₂ (edges + 1)) puts := by
  obtain ⟨x₁, y₁, osr₁, hframe⟩ := lifiLight_frame x y osr false
    (show [] ++ (some byte).toList = byte :: [] from rfl) during puts hduring
  have hlight : lifiLight (txWaiting false x y osr [])
      (List.replicate gap none ++ some byte :: (during ++ puts)) =
        (List.replicate (gap + 1) false ++ frameLight (lifiSendByte byte)) ++
          lifiLight (txWaiting true x₁ y₁ osr₁ (during.reduceOption.map lifiSendByte))
            puts := by
    rw [lifiLight_gap]
    refine (congrArg _ hframe).trans ?_
    rw [List.replicate_add]
    simp only [List.append_assoc, List.cons_append, List.replicate_one, List.nil_append]
  obtain ⟨x₂, hreads⟩ : ∃ x₂, Receives lag (rxAt 0 x' 0 0 edges)
      (List.replicate (gap + 1) false ++ frameLight (lifiSendByte byte))
      [((lowBits 8 (lifiSendByte byte)).map (!·)).foldl shiftIn 0]
      (rxAt 0 x₂ 0 0 (edges + 1)) := by
    rcases h with rfl | hgap
    · exact receives_darkFrame x' hlag gap
    · exact receives_noticed x' 0 _ edges hlag (Nat.succ_le_succ hgap)
  have hreceived := lifiReceived_of_receives hlight hreads
  rw [List.map_singleton, rxByte_samples] at hreceived
  exact ⟨x₁, y₁, osr₁, x₂, hreceived⟩

theorem roundTrips_unhurt (hlag : ∀ k, lag k ≤ 4) (h : Unhurt (lag edges) puts) :
    RoundTrips lag (txWaiting false x y osr []) (rxIdle x' edges) puts := by
  obtain ⟨gap, byte, rest, rfl, hbyte⟩ := h
  refine roundTrips_of_all fun n hn => ?_
  have hsent : (List.replicate gap none ++ some byte :: rest).reduceOption =
      byte :: rest.reduceOption := by
    rw [List.reduceOption_append, reduceOption_replicate_none, List.nil_append,
      List.reduceOption_cons_of_some]
  rw [hsent, List.length_cons] at hn
  have hsettles : Settles [] (some byte :: (rest ++ List.replicate n none)) :=
    ⟨some byte :: rest, n, rfl, by
      rw [List.length_nil, Nat.zero_add, List.reduceOption_cons_of_some]
      exact hn⟩
  obtain ⟨hlong, hlater⟩ :=
    hsettles.frame (show [] ++ (some byte).toList = byte :: [] from rfl)
  have hduring : ((rest ++ List.replicate n none).take 81).length = 81 := by
    rw [List.length_take]
    omega
  obtain ⟨x₁, y₁, osr₁, x₂, hfirst⟩ := lifiReceived_unhurt x y osr x' (hlag edges) hbyte
    ((rest ++ List.replicate n none).take 81) ((rest ++ List.replicate n none).drop 81)
    hduring
  rw [List.nil_append] at hlater
  have hrest := lifiReceived_eq lag hlag hlater x₁ y₁ osr₁ x₂ (edges + 1)
  rw [List.take_append_drop] at hfirst
  rw [hsent, List.append_assoc, List.cons_append, hfirst, hrest,
    ← List.reduceOption_append, List.take_append_drop, reduceOption_all]

variable (lag x' edges) in
/-- From the dark a first byte is received as soon as there is time for it, and it is what
is sampled from then on. -/
theorem lifiReceived_dark {light : List Bool} (hlight : lifiLight tx puts = false :: light)
    (hlen : lag edges + 75 ≤ light.length) :
    ∃ byte later, lifiReceived lag tx (rxIdle x' edges) puts = byte :: later ∧
      lowBits 8 (lifiSendByte byte) = sampled 8 (light.drop (lag edges + 11)) := by
  have hfirst : (light.take (lag edges + 75)).length = lag edges + 75 := by
    rw [List.length_take]
    omega
  obtain ⟨x₂, os, hruns, hpushed⟩ := receives_word lag x' 0 edges hfirst
  have hsamples : sampled 8 ((light.take (lag edges + 75)).drop (lag edges + 11)) =
      sampled 8 (light.drop (lag edges + 11)) := by
    rw [List.drop_take, show lag edges + 75 - (lag edges + 11) = 8 * 8 by omega, sampled_take]
  rw [hsamples] at hpushed
  have hsplit : lifiLight tx puts =
      (false :: light.take (lag edges + 75)) ++ light.drop (lag edges + 75) := by
    rw [hlight, List.cons_append, List.take_append_drop]
  refine ⟨_, (pushedWords ((lifiRx.machine lag).trace (rxAt 4 x₂ 0 0 (edges + 1))
    ((light.drop (lag edges + 75)).map rxIn))).map rxByte, ?_,
    lowBits_rxByte _ (length_sampled 8 _)⟩
  rw [lifiReceived, hsplit, List.map_append, Machine.trace_append, rxIdle, hruns.trace,
    hruns.run, pushedWords_append, hpushed, List.map_append]
  rfl

theorem puts_cases (puts : List (Option UInt8)) :
    puts = List.replicate puts.length none ∨
      ∃ gap byte rest, puts = List.replicate gap none ++ some byte :: rest := by
  induction puts with
  | nil => exact Or.inl rfl
  | cons put puts ih =>
      cases put with
      | some byte => exact Or.inr ⟨0, byte, puts, rfl⟩
      | none =>
          rcases ih with hnone | ⟨gap, byte, rest, hputs⟩
          · exact Or.inl (congrArg (none :: ·) hnone)
          · exact Or.inr ⟨gap + 1, byte, rest, congrArg (none :: ·) hputs⟩

/-- The lowest bit that is set. -/
theorem exists_lowest {bits : List Bool} (h : true ∈ bits) :
    ∃ i rest, bits = List.replicate i false ++ true :: rest := by
  induction bits with
  | nil => cases h
  | cons bit bits ih =>
      cases bit with
      | true => exact ⟨0, bits, rfl⟩
      | false =>
          obtain ⟨i, rest, hbits⟩ := ih ((List.mem_cons.mp h).resolve_left (by decide))
          exact ⟨i + 1, rest, congrArg (false :: ·) hbits⟩

theorem exists_lowBits {byte : UInt8} (hbyte : byte ≠ 0) :
    ∃ i rest, lowBits 8 (lifiSendByte byte) = List.replicate i false ++ true :: rest := by
  refine exists_lowest ?_
  by_contra hnone
  have hzero : lowBits 8 (lifiSendByte byte) = lowBits 8 (lifiSendByte 0) := by
    rw [show lowBits 8 (lifiSendByte 0) = List.replicate 8 false by decide]
    refine List.eq_replicate_iff.mpr ⟨length_lowBits 8 _, fun bit hbit => ?_⟩
    cases bit with
    | true => exact absurd hbit hnone
    | false => rfl
  exact hbyte ((rxByte_samples byte).symm.trans (by rw [hzero, rxByte_samples]))

variable (x y osr) in
/-- From the dark the light comes only with the lowest bit that is set. -/
theorem lifiLight_lowest (gap : ℕ) {byte : UInt8} {rest : List (Option UInt8)}
    (hlong : 81 ≤ rest.length) {i : ℕ} {bits : List Bool}
    (hbits : lowBits 8 (lifiSendByte byte) = List.replicate i false ++ true :: bits) :
    ∃ light, lifiLight (txWaiting false x y osr [])
        (List.replicate gap none ++ some byte :: rest) =
      false :: (List.replicate (gap + 11 + 8 * i) false ++ light) := by
  have hduring : (rest.take 81).length = 81 := by
    rw [List.length_take]
    omega
  obtain ⟨x₁, y₁, osr₁, hframe⟩ := lifiLight_frame x y osr false
    (show [] ++ (some byte).toList = byte :: [] from rfl) (rest.take 81) (rest.drop 81)
    hduring
  rw [List.take_append_drop] at hframe
  obtain ⟨light, hlight⟩ : ∃ light, lifiLight (txWaiting false x y osr []) (some byte :: rest) =
      false :: (List.replicate (11 + 8 * i) false ++ light) := by
    have hstart : frameLight (lifiSendByte byte) = List.replicate (11 + 8 * i) false ++
        (List.replicate 6 true ++ loopLight true bits ++ List.replicate 8 true) := by
      rw [frameLight, hbits, loopLight_zeros, loopLight,
        show 11 + 8 * i = 9 + (8 * i + 2) by omega, List.replicate_add, List.replicate_add]
      simp only [List.append_assoc]
    rw [hstart, List.cons_append, List.append_assoc] at hframe
    exact ⟨_, hframe⟩
  have hdark : List.replicate gap false ++ false :: (List.replicate (11 + 8 * i) false ++ light) =
      false :: (List.replicate (gap + 11 + 8 * i) false ++ light) := by
    rw [← List.cons_append, ← List.cons_append, ← List.replicate_succ, ← List.replicate_succ,
      ← List.append_assoc, List.replicate_append_replicate,
      show gap + (11 + 8 * i + 1) = gap + 11 + 8 * i + 1 by omega]
  exact ⟨light, ((lifiLight_gap x y osr false gap _).trans (congrArg _ hlight)).trans hdark⟩

/-- From the dark the bytes come through only if the first one is unhurt. -/
theorem unhurt_of_roundTrips (hlag : lag edges ≤ 4)
    (h : RoundTrips lag (txWaiting false x y osr []) (rxIdle x' edges) puts) :
    Unhurt (lag edges) puts := by
  rcases puts_cases puts with hnone | ⟨gap, byte, rest, rfl⟩
  · -- The dark line itself is taken for a byte.
    have hsent : puts.reduceOption = [] := by
      rw [hnone, reduceOption_replicate_none]
    have hlight : lifiLight (txWaiting false x y osr [])
        (puts ++ List.replicate 80 none) =
          false :: List.replicate (puts.length + 79) false := by
      have hgap := lifiLight_gap x y osr false (puts.length + 80) []
      rw [List.append_nil, ← List.replicate_append_replicate, ← hnone] at hgap
      exact hgap.trans (List.append_nil _)
    obtain ⟨byte, later, hreceived, -⟩ := lifiReceived_dark lag x' edges hlight
      (by rw [List.length_replicate]; omega)
    have hall := h.2 80 (by rw [hsent]; exact Nat.zero_le _)
    rw [hreceived, hsent] at hall
    cases hall
  · refine ⟨gap, byte, rest, rfl, ?_⟩
    by_contra hhurt
    obtain ⟨hbyte, hgap⟩ := not_or.mp hhurt
    have hsent : (List.replicate gap none ++ some byte :: rest).reduceOption =
        byte :: rest.reduceOption := by
      rw [List.reduceOption_append, reduceOption_replicate_none, List.nil_append,
        List.reduceOption_cons_of_some]
    obtain ⟨n, hn⟩ : ∃ n, n = 82 * (byte :: rest.reduceOption).length := ⟨_, rfl⟩
    rw [List.length_cons] at hn
    have hall := h.2 n (by rw [hsent, hn, List.length_cons])
    obtain ⟨i, bits, hbits⟩ := exists_lowBits hbyte
    have hlong : 81 ≤ (rest ++ List.replicate n none).length := by
      rw [List.length_append, List.length_replicate]
      omega
    obtain ⟨light, hlight⟩ := lifiLight_lowest x y osr gap hlong hbits
    have hlen : lag edges + 75 ≤
        (List.replicate (gap + 11 + 8 * i) false ++ light).length := by
      have hcycles := congrArg List.length hlight
      rw [length_lifiLight, List.length_append, List.length_cons, List.length_cons] at hcycles
      omega
    rw [← List.cons_append, ← List.append_assoc] at hlight
    obtain ⟨byte', later, hreceived, hsampled⟩ := lifiReceived_dark lag x' edges hlight hlen
    rw [hreceived, hsent] at hall
    obtain ⟨rfl, -⟩ := List.cons.inj hall
    have hi : i < 8 := by
      have hlength := length_lowBits 8 (lifiSendByte byte')
      rw [hbits, List.length_append, List.length_replicate, List.length_cons] at hlength
      omega
    -- The lowest bit that is set is shown too late for its sample.
    have hdark : lag edges + 11 + 8 * i < gap + 11 + 8 * i := by omega
    have hbit := congrArg (·[i]?) (hbits.symm.trans hsampled)
    simp only [getElem?_sampled hi, List.getD_eq_getElem?_getD, List.getElem?_drop] at hbit
    rw [List.getElem?_append_right (List.length_replicate ..).le, List.length_replicate,
      Nat.sub_self, List.getElem?_append_left (by rw [List.length_replicate]; exact hdark),
      List.getElem?_replicate_of_lt hdark] at hbit
    cases hbit

end

/-! ## Exactly when -/

variable (x y osr x' : Word) (edges : ℕ)

/-- With start edges noticed at most four cycles late the bytes come through exactly if the
LEDs are lit when the first one is pulled or that one is unhurt. -/
theorem phy_round_trip_iff (hlag : ∀ k, lag k ≤ 4) (lit : Bool) (puts : List (Option UInt8)) :
    RoundTrips lag (txWaiting lit x y osr []) (rxIdle x' edges) puts ↔
      lit = true ∨ Unhurt (lag edges) puts := by
  cases lit with
  | true => exact iff_of_true (roundTrips_lit hlag) (Or.inl rfl)
  | false =>
      constructor
      · intro h
        exact Or.inr (unhurt_of_roundTrips (hlag edges) h)
      · rintro (hlit | h)
        · cases hlit
        · exact roundTrips_unhurt hlag h

/-- Two bytes with a gap, each start edge noticed at another time: in the light, and from
the dark if the first one comes at once. -/
theorem phy_round_trip_iff_two :
    RoundTrips (fun k => k % 5) (txWaiting true 0 0 0 []) (rxIdle 0 3)
        [none, some 0xAB, none, none, some 0xCD] ∧
      RoundTrips (fun k => k % 5) txStart (rxIdle 0 3)
        [none, some 0xAB, none, none, some 0xCD] := by
  have hlag (k : ℕ) : k % 5 ≤ 4 := Nat.le_of_lt_succ (Nat.mod_lt k (by decide))
  exact ⟨(phy_round_trip_iff (fun k => k % 5) 0 0 0 0 3 hlag true _).mpr (Or.inl rfl),
    (phy_round_trip_iff (fun k => k % 5) 0 0 0 0 3 hlag false _).mpr
      (Or.inr ⟨1, 0xAB, [none, none, some 0xCD], rfl, Or.inr (by decide)⟩)⟩

/-- A preamble a while after power-up, every edge noticed at once: the dark line is taken for
a zero byte, and the others are garbled. -/
theorem not_roundTrips_powerUp :
    lifiReceived (fun _ => 0) txStart (rxIdle 0 0)
        (List.replicate 100 none ++ [some 0xAB, some 0xCD, some 0xEF, some 0x12] ++
          List.replicate 400 none) = [0x00, 0xB5, 0xEE, 0x4F, 0xFC] ∧
      ¬ RoundTrips (fun _ => 0) txStart (rxIdle 0 0)
        (List.replicate 100 none ++ [some 0xAB, some 0xCD, some 0xEF, some 0x12]) := by
  have hreceived : lifiReceived (fun _ => 0) txStart (rxIdle 0 0)
      (List.replicate 100 none ++ [some 0xAB, some 0xCD, some 0xEF, some 0x12] ++
        List.replicate 400 none) = [0x00, 0xB5, 0xEE, 0x4F, 0xFC] := by
    decide +kernel
  refine ⟨hreceived, fun h => ?_⟩
  have hall := h.2 400 (by decide +kernel)
  rw [hreceived] at hall
  revert hall
  decide +kernel

end LifiAuth
