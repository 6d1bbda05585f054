import LifiAuth.Protocol.HeatshrinkEncoding

/-!
# Calls of the encoder

The encoder under any calls in any order, out of turn ones included.  What it has
written is always a prefix of the code of what it took, however that goes on, and once
it is done it is all of it.
-/

namespace LifiAuth.Heatshrink

open Support

/-! ## One call -/

namespace Hse

variable {e : Hse} {xs ys out : List UInt8} {n : ℕ}

/-- `xs` went in and `ys` came out. -/
inductive Encoded (e : Hse) (xs ys : List UInt8) : Prop where
  | going (base : ℕ) (ts : List (Token UInt8)) (pending : List Bool)
      (h : e.Encoding xs ys base ts pending)
  | done (hstate : e.state = .done) (hfinishing : e.finishing = true)
      (h : ys = compressed xs)

theorem compressed_eq {ts : List (Token UInt8)} {rest : List Bool}
    (h : code.parse xs 0 = ts) (hbits : ys.flatMap bitsOf ++ rest = ts.flatMap tokenBits) :
    compressed xs = ys ++ packBits ((rest.length + 7) / 8) rest := by
  have hbytes : (ys.flatMap bitsOf).length = 8 * ys.length := by
    simp [List.length_flatMap, bitsOf, Nat.mul_comm]
  have hcount : (8 * ys.length + rest.length + 7) / 8 =
      ys.length + (rest.length + 7) / 8 := by
    omega
  rw [compressed, textBits, h, ← hbits, List.length_append, hbytes, hcount,
    packBits_append]

/-- The last byte is filled up with zeros. -/
theorem Encoding.stFlushBitBuffer {base : ℕ} {ts : List (Token UInt8)}
    {pending : List Bool} (h : e.Encoding xs ys base ts pending)
    (hstate : e.state = .flushBits) (room : ℕ) :
    ((e.stFlushBitBuffer room).1.state = .done ∧
        (e.stFlushBitBuffer room).1.finishing = true ∧
        ys ++ (e.stFlushBitBuffer room).2 = compressed xs ∧
        (e.stFlushBitBuffer room).2.length ≤ room) ∨
      room = 0 ∧ e.stFlushBitBuffer room = (e, []) := by
  have hshape := h.shape
  have hbits := h.bits
  have hleads := h.leads
  have htaken := h.taken
  rw [Shape, hstate] at hshape
  rw [owed, hstate] at hbits
  obtain ⟨hfin, hend, hlen⟩ := hshape
  have hbits : ys.flatMap bitsOf ++ pending = ts.flatMap tokenBits := by
    rw [← hbits, List.append_nil]
  rw [hfin] at hleads
  have hall := compressed_eq (hleads.parse_eq (by omega)) hbits
  have hshort := h.packed.short
  rw [Hse.stFlushBitBuffer]
  by_cases hempty : e.bitIndex = 0x80
  · have hnil := h.packed.eq_nil_iff.mp hempty
    rw [if_pos hempty]
    refine Or.inl ⟨rfl, hfin, ?_, Nat.zero_le _⟩
    rw [hall, hnil]
    rfl
  · have hlong : 0 < pending.length :=
      List.length_pos_iff.mpr (mt h.packed.eq_nil_iff.mpr hempty)
    have hone : (pending.length + 7) / 8 = 1 := by omega
    rw [if_neg hempty]
    by_cases hroom : 0 < room
    · rw [if_pos hroom]
      refine Or.inl ⟨rfl, hfin, ?_, hroom⟩
      rw [hall, hone, h.packed.flush]
    · rw [if_neg hroom]
      exact Or.inr ⟨Nat.eq_zero_of_not_pos hroom, rfl⟩

/-- The window has moved up once its state is left. -/
theorem step_state_ne_saveBacklog (h : (e.step n).1.state = e.state) :
    (e.step n).1.state ≠ .saveBacklog := by
  intro hsave
  rw [hsave] at h
  rw [step, ← h] at hsave
  cases hsave

/-- How a poll can end. -/
structure Polled (n : ℕ) (xs ys : List UInt8) (e e' : Hse) (more : Bool)
    (out : List UInt8) : Prop where
  encoded : e'.Encoded xs (ys ++ out)
  length_le : out.length ≤ n
  finishing : e'.finishing = e.finishing
  between : e'.state ≠ .saveBacklog
  full_or : out.length = n ∨ more = false ∧ (e'.state = .notFull ∨ e'.state = .done)

theorem pollSteps_spec (hout : out.length ≤ n) {fuel : ℕ}
    (h : e.Encoded xs (ys ++ out)) (hwork : e.work < fuel) :
    Polled n xs ys e (pollSteps n fuel e out).2.2 (pollSteps n fuel e out).1
      (pollSteps n fuel e out).2.1 := by
  induction fuel generalizing e out with
  | zero => exact absurd hwork (Nat.not_lt_zero _)
  | succ fuel ih =>
      have hstay (hstate : e.state = .notFull ∨ e.state = .done) :
          Polled n xs ys e e false out :=
        ⟨h, hout, rfl, by rcases hstate with h | h <;> rw [h] <;> decide,
          Or.inr ⟨rfl, hstate⟩⟩
      by_cases hnotFull : e.state = .notFull
      · rw [pollSteps, hnotFull]
        exact hstay (Or.inl hnotFull)
      by_cases hdone : e.state = .done
      · rw [pollSteps, hdone]
        exact hstay (Or.inr hdone)
      cases h with
      | done hstate => exact absurd hstate hdone
      | going base ts pending h =>
          by_cases hflush : e.state = .flushBits
          · rw [pollSteps, hflush]
            dsimp only
            have hfin : e.finishing = true := by
              have hshape := h.shape
              rw [Shape, hflush] at hshape
              exact hshape.1
            rcases h.stFlushBitBuffer hflush (n - out.length) with
              ⟨hstate, hfinishing, hall, hle⟩ | ⟨hroom, hsame⟩
            · refine ⟨.done hstate hfinishing ?_, ?_, hfinishing.trans hfin.symm, ?_,
                Or.inr ⟨rfl, Or.inr hstate⟩⟩
              · rw [← hall, List.append_assoc]
              · rw [List.length_append]
                omega
              · rw [hstate]
                decide
            · rw [hsame, List.append_nil]
              refine ⟨.going base ts pending h, hout, rfl, ?_, Or.inl (by omega)⟩
              rw [hflush]
              decide
          · have hstep := @Encoding.step _ _ _ _ _ _ (n - out.length) h ⟨hnotFull, hflush⟩
            have hle := hstep.length_le
            have hlen : (out ++ (e.step (n - out.length)).2).length ≤ n := by
              rw [List.length_append]
              omega
            obtain ⟨base', ts', pending', h'⟩ := hstep.encoding
            rw [List.append_assoc] at h'
            have hround : pollSteps n (fuel + 1) e out =
                if (e.step (n - out.length)).1.state = e.state ∧
                    (out ++ (e.step (n - out.length)).2).length = n then
                  (true, out ++ (e.step (n - out.length)).2, (e.step (n - out.length)).1)
                else pollSteps n fuel (e.step (n - out.length)).1
                  (out ++ (e.step (n - out.length)).2) := by
              rw [pollSteps]
              split <;> first | contradiction | rfl
            rw [hround]
            split
            · next hend =>
                exact ⟨.going base' ts' pending' h', hlen, hstep.finishing,
                  step_state_ne_saveBacklog hend.1, Or.inl hend.2⟩
            · next hgoes =>
                have hless : (e.step (n - out.length)).1.work < e.work := by
                  rcases hstep.progress with hless | ⟨hroom, hsame, hnone⟩
                  · exact hless
                  · refine absurd ⟨by rw [hsame], ?_⟩ hgoes
                    rw [hnone, List.append_nil]
                    omega
                obtain ⟨hencoded, hle', hfin, hbetween, hfull⟩ :=
                  ih hlen (.going base' ts' pending' h') (by omega)
                exact ⟨hencoded, hle', hfin.trans hstep.finishing, hbetween, hfull⟩

theorem work_lt_rounds (h : e.Encoded xs ys) : e.work < e.rounds := by
  cases h with
  | done hstate =>
      rw [work, hstate, rounds]
      exact Nat.succ_pos _
  | going base ts pending h =>
      have hshape := h.shape
      have hscanned := h.scanned
      rw [Shape] at hshape
      rw [work, rounds]
      cases hstate : e.state with
      | yieldTagBit =>
          rw [hstate] at hshape
          obtain ⟨-, -, -, hkind⟩ := hshape
          dsimp only
          split at hkind
          · omega
          · omega
      | _ =>
          dsimp only
          first
            | omega
            | (split <;> omega)

/-- A poll fills its buffer or writes all that there is. -/
theorem poll_spec (h : e.Encoded xs ys) (hn : 0 < n) :
    Polled n xs ys e (e.poll n).2.2 (e.poll n).1 (e.poll n).2.1 := by
  rw [poll, if_neg (Nat.ne_of_gt hn)]
  exact pollSteps_spec (Nat.zero_le _) (by rwa [List.append_nil]) (work_lt_rounds h)

theorem finish_spec (h : e.Encoded xs ys) (hbetween : e.state ≠ .saveBacklog) :
    e.finish.2.Encoded xs ys ∧ e.finish.2.state ≠ .saveBacklog := by
  cases h with
  | done hstate hfinishing h =>
      have hsame : e.finish.2.state = .done := by
        simp [finish, hstate]
      refine ⟨.done hsame rfl h, ?_⟩
      rw [hsame]
      decide
  | going base ts pending h =>
      obtain ⟨htaken, hwindow, hleads, hpacked, hbits, hsize, hscanned, hshape⟩ := h
      rw [Shape] at hshape
      rw [owed] at hbits
      cases hstate : e.state with
      | saveBacklog => exact absurd hstate hbetween
      | done =>
          rw [hstate] at hshape
          exact hshape.elim
      | notFull =>
          rw [hstate] at hshape hbits
          obtain ⟨-, -, hscan, hlen⟩ := hshape
          have hnext : e.finish.2 = { e with finishing := true, state := .filled } := by
            simp [finish, hstate]
          rw [hnext]
          exact ⟨.going base ts pending ⟨htaken, hwindow, hleads.finish, hpacked, hbits,
            hsize, hscanned, Or.inl rfl, hscan, hlen⟩, by rintro ⟨⟩⟩
      | flushBits =>
          rw [hstate] at hshape hbits
          have hnext : e.finish.2 = { e with finishing := true, state := .flushBits } := by
            simp [finish, hstate]
          rw [hnext]
          exact ⟨.going base ts pending ⟨htaken, hwindow, hleads.finish, hpacked, hbits,
            hsize, hscanned, rfl, hshape.2⟩, by rintro ⟨⟩⟩
      | _ =>
          rw [hstate] at hshape hbits
          have hnext : e.finish.2 = { e with finishing := true } := by
            simp [finish, hstate]
          rw [hnext]
          refine ⟨.going base ts pending ⟨htaken, hwindow, hleads.finish, hpacked, ?_,
            hsize, hscanned, ?_⟩, by rw [hstate]; decide⟩
          · rw [owed, hstate]
            exact hbits
          · rw [Shape, hstate]
            exact ⟨Or.inl rfl, hshape.2⟩

theorem sink_spec (h : e.Encoded xs ys) (hbetween : e.state ≠ .saveBacklog)
    (inBuf : List UInt8) :
    (e.sink inBuf).2.Encoded (xs ++ inBuf.take ((e.sink inBuf).1.getD 0)) ys ∧
      (e.sink inBuf).2.state ≠ .saveBacklog := by
  rw [sink]
  by_cases hfin : e.finishing = true
  · rw [if_pos hfin]
    simp only [Option.getD_none, List.take_zero, List.append_nil]
    exact ⟨h, hbetween⟩
  rw [if_neg hfin]
  by_cases hstate : e.state = .notFull
  · rw [if_neg (not_not.mpr hstate)]
    cases h with
    | done hdone =>
        rw [hstate] at hdone
        cases hdone
    | going base ts pending h =>
        obtain ⟨htaken, hwindow, hleads, hpacked, hbits, hsize, hscanned, hshape⟩ := h
        rw [Shape, hstate] at hshape
        rw [owed, hstate] at hbits
        obtain ⟨hfin, hroom, hscan, hlen⟩ := hshape
        have hbuf : getInputBufferSize = 256 := rfl
        have hsz : (if getInputBufferSize - e.inputSize < inBuf.length then
            getInputBufferSize - e.inputSize else inBuf.length) =
            (inBuf.take (getInputBufferSize - e.inputSize)).length := by
          rw [List.length_take]
          split <;> omega
        have htake : inBuf.take (inBuf.take (getInputBufferSize - e.inputSize)).length =
            inBuf.take (getInputBufferSize - e.inputSize) := by
          rw [List.length_take, ← List.take_take, List.take_length]
        dsimp only
        rw [hsz, Option.getD_some, htake]
        have hle : (inBuf.take (getInputBufferSize - e.inputSize)).length ≤
            getInputBufferSize - e.inputSize := List.length_take_le _ _
        have hget : ∀ i, i < (inBuf.take (getInputBufferSize - e.inputSize)).length →
            inBuf.getD i 0 = (inBuf.take (getInputBufferSize - e.inputSize)).getD i 0 := by
          intro i hi
          rw [List.getD_eq_getElem?_getD, List.getD_eq_getElem?_getD,
            List.getElem?_take_of_lt (by omega)]
        generalize inBuf.take (getInputBufferSize - e.inputSize) = data at hle hget ⊢
        rw [hfin] at hleads
        refine ⟨.going base ts pending ⟨?_, ?_, ?_, hpacked, ?_, ?_, ?_, ?_⟩, ?_⟩
        · show base + (e.inputSize + data.length) = _
          rw [List.length_append, ← htaken, Nat.add_assoc]
        · intro i hi
          have hi : i < 256 + (e.inputSize + data.length) := hi
          show (if 256 + e.inputSize ≤ i ∧ i < 256 + e.inputSize + data.length then
            inBuf.getD (i - (256 + e.inputSize)) 0 else e.buffer i) = _
          by_cases hnew : 256 + e.inputSize ≤ i
          · have hwhere : base + i = 256 + (xs.length + (i - (256 + e.inputSize))) := by
              omega
            rw [if_pos ⟨hnew, by omega⟩, hget _ (by omega), hwhere, padded_add,
              List.getD_append_right _ _ _ _ (by omega), Nat.add_sub_cancel_left]
          · rw [if_neg fun hin => hnew hin.1, hwindow i (by omega),
              padded_append (by omega)]
        · show code.Leads e.finishing (xs ++ data) ts _
          rw [hfin]
          exact hleads.append data
        · have howed : owed { e with
              buffer := fun i =>
                if getInputBufferSize + e.inputSize ≤ i ∧
                    i < getInputBufferSize + e.inputSize + data.length then
                  inBuf.getD (i - (getInputBufferSize + e.inputSize)) 0
                else e.buffer i
              inputSize := e.inputSize + data.length
              state := if data.length = getInputBufferSize - e.inputSize then .filled
                else e.state } = [] := by
            rw [owed, hstate]
            by_cases hfull : data.length = getInputBufferSize - e.inputSize <;> simp [hfull]
          rw [howed]
          exact hbits
        · show e.inputSize + data.length ≤ 256
          omega
        · show e.matchScanIndex + e.matchLength ≤ e.inputSize + data.length
          omega
        · rw [Shape, hstate]
          by_cases hfull : data.length = getInputBufferSize - e.inputSize
          · simp only [if_pos hfull]
            exact ⟨Or.inr (show e.inputSize + data.length = 256 by omega), hscan, hlen⟩
          · simp only [if_neg hfull]
            exact ⟨hfin, show e.inputSize + data.length < 256 by omega, hscan, hlen⟩
        · show (if data.length = getInputBufferSize - e.inputSize then HseState.filled
            else e.state) ≠ _
          rw [hstate]
          split <;> decide
  · rw [if_pos hstate]
    simp only [Option.getD_none, List.take_zero, List.append_nil]
    exact ⟨h, hbetween⟩

theorem encoded_reset (searchIndex : ℕ → Option ℕ) : (reset searchIndex).Encoded [] [] := by
  refine .going 0 [] [] ⟨rfl, ?_, LempelZiv.Leads.start, packed_nil, rfl, Nat.zero_le _,
    le_rfl, rfl, Nat.zero_lt_succ 255, rfl, rfl⟩
  intro i hi
  rw [padded]
  split
  · rfl
  · rfl

/-- What is written begins the code of what was taken, however that goes on. -/
theorem Encoded.prefix_compressed (h : e.Encoded xs ys) {more : List UInt8}
    (hmore : e.finishing = true → more = []) : ys <+: compressed (xs ++ more) := by
  cases h with
  | done _ hfinishing h =>
      rw [hmore hfinishing, List.append_nil, h]
  | going base ts pending h =>
      have hparse := h.leads more hmore
      have hbits : ys.flatMap bitsOf ++ (pending ++ e.owed ++
          (code.parse (xs ++ more) (base + e.matchScanIndex + e.matchLength)).flatMap
            tokenBits) = (code.parse (xs ++ more) 0).flatMap tokenBits := by
        rw [hparse, List.flatMap_append, ← h.bits]
        simp only [List.append_assoc]
      rw [compressed_eq rfl hbits]
      exact List.prefix_append _ _

theorem Encoded.prefix_taken (h : e.Encoded xs ys) : ys <+: compressed xs := by
  have hprefix := h.prefix_compressed fun _ => rfl
  rwa [List.append_nil] at hprefix

theorem Encoded.eq_compressed (h : e.Encoded xs ys) (hdone : e.state = .done) :
    ys = compressed xs := by
  cases h with
  | done _ _ h => exact h
  | going base ts pending h =>
      have hshape := h.shape
      rw [Shape, hdone] at hshape
      exact hshape.elim

/-- An encoder that is finishing waits for no input. -/
theorem Encoded.state_ne_notFull (h : e.Encoded xs ys) (hfin : e.finishing = true) :
    e.state ≠ .notFull := by
  intro hstate
  cases h with
  | done hdone =>
      rw [hstate] at hdone
      cases hdone
  | going base ts pending h =>
      have hshape := h.shape
      rw [Shape, hstate] at hshape
      rw [hshape.1] at hfin
      cases hfin

end Hse

/-! ## Any calls -/

inductive HseCall where
  | sink (inBuf : List UInt8)
  | poll (outBufSize : ℕ)
  | finish

/-- What the calls of an encoder move. -/
inductive HseEvent where
  | sunk (xs : List UInt8)
  | written (ys : List UInt8)

/-- An encoder under its three calls. -/
def hseCalls : Machine Hse HseCall HseEvent where
  step e
    | .sink inBuf => ((e.sink inBuf).2, [.sunk (inBuf.take ((e.sink inBuf).1.getD 0))])
    | .poll outBufSize => ((e.poll outBufSize).2.2, [.written (e.poll outBufSize).2.1])
    | .finish => (e.finish.2, [])

/-- All that went in. -/
def sunk (t : List HseEvent) : List UInt8 :=
  t.flatMap fun
    | .sunk xs => xs
    | .written _ => []

/-- All that came out. -/
def written (t : List HseEvent) : List UInt8 :=
  t.flatMap fun
    | .sunk _ => []
    | .written ys => ys

/-- What holds of an encoder between two calls. -/
structure Between (e : Hse) (xs ys : List UInt8) : Prop where
  encoded : e.Encoded xs ys
  state_ne : e.state ≠ .saveBacklog

namespace Between

variable {e : Hse} {xs ys : List UInt8}

theorem reset (searchIndex : ℕ → Option ℕ) : Between (.reset searchIndex) [] [] :=
  ⟨Hse.encoded_reset searchIndex, nofun⟩

theorem sink (h : Between e xs ys) (inBuf : List UInt8) :
    Between (e.sink inBuf).2 (xs ++ inBuf.take ((e.sink inBuf).1.getD 0)) ys := by
  obtain ⟨hencoded, hstate⟩ := Hse.sink_spec h.encoded h.state_ne inBuf
  exact ⟨hencoded, hstate⟩

theorem finish (h : Between e xs ys) : Between e.finish.2 xs ys := by
  obtain ⟨hencoded, hstate⟩ := Hse.finish_spec h.encoded h.state_ne
  exact ⟨hencoded, hstate⟩

theorem poll (h : Between e xs ys) (n : ℕ) :
    Between (e.poll n).2.2 xs (ys ++ (e.poll n).2.1) := by
  by_cases hn : n = 0
  · rw [Hse.poll, if_pos hn, List.append_nil]
    exact h
  · have hpolled := Hse.poll_spec h.encoded (Nat.pos_of_ne_zero hn)
    exact ⟨hpolled.encoded, hpolled.between⟩

/-- What a call takes and writes. -/
theorem step (h : Between e xs ys) (call : HseCall) :
    Between (hseCalls.step e call).1 (xs ++ sunk (hseCalls.step e call).2)
      (ys ++ written (hseCalls.step e call).2) := by
  cases call with
  | sink inBuf => simpa [hseCalls, sunk, written] using h.sink inBuf
  | poll outBufSize => simpa [hseCalls, sunk, written] using h.poll outBufSize
  | finish => simpa [hseCalls, sunk, written] using h.finish

end Between

theorem written_append (t t' : List HseEvent) :
    written (t ++ t') = written t ++ written t' :=
  List.flatMap_append

theorem sunk_append (t t' : List HseEvent) : sunk (t ++ t') = sunk t ++ sunk t' :=
  List.flatMap_append

theorem between_run (searchIndex : ℕ → Option ℕ) (calls : List HseCall) :
    Between (hseCalls.run (.reset searchIndex) calls)
      (sunk (hseCalls.trace (.reset searchIndex) calls))
      (written (hseCalls.trace (.reset searchIndex) calls)) := by
  refine Machine.past_run (P := fun t e => Between e (sunk t) (written t)) ?_
    (Between.reset searchIndex) calls
  intro t e call h
  rw [sunk_append, written_append]
  exact h.step call

/-- Whatever calls are made, in whatever order and with whatever buffers, the encoder has
written a beginning of the code of what it took, however that goes on, and all of the
code once it is done. -/
theorem encoder_writes_code (searchIndex : ℕ → Option ℕ) (calls : List HseCall) :
    let e := hseCalls.run (.reset searchIndex) calls
    let t := hseCalls.trace (.reset searchIndex) calls
    (∀ more, (e.finishing = true → more = []) → written t <+: compressed (sunk t ++ more)) ∧
      (e.state = .done → written t = compressed (sunk t)) := by
  have h := between_run searchIndex calls
  exact ⟨fun _ hmore => h.encoded.prefix_compressed hmore, h.encoded.eq_compressed⟩

/-! ## Draining -/

namespace Between

variable {e : Hse} {xs ys : List UInt8}

/-- A poll of an encoder that is finishing fills its buffer or is the last. -/
theorem poll_finishing (h : Between e xs ys) (hfin : e.finishing = true) {n : ℕ}
    (hn : 0 < n) :
    (e.poll n).2.2.finishing = true ∧
      ((e.poll n).2.1.length = n ∨ (e.poll n).2.2.state = .done) := by
  have hpolled := Hse.poll_spec h.encoded hn
  have hfin' := hpolled.finishing.trans hfin
  refine ⟨hfin', ?_⟩
  rcases hpolled.full_or with hfull | ⟨-, hnotFull | hdone⟩
  · exact Or.inl hfull
  · exact absurd hnotFull (hpolled.encoded.state_ne_notFull hfin')
  · exact Or.inr hdone

theorem state_poll_of_done (hdone : e.state = .done) (n : ℕ) : (e.poll n).2.2 = e := by
  rw [Hse.poll]
  split
  · rfl
  · rw [Hse.rounds, Hse.pollSteps, hdone]

theorem state_polls_of_done (hdone : e.state = .done) (sizes : List ℕ) :
    (hseCalls.run e (sizes.map .poll)).state = .done := by
  induction sizes with
  | nil => exact hdone
  | cons n sizes ih =>
      have hsame : (hseCalls.step e (.poll n)).1 = e := state_poll_of_done hdone n
      rw [List.map_cons, Machine.run_cons, hsame]
      exact ih

/-- Buffers with more room than what is left bring a finishing encoder to its end. -/
theorem polls (h : Between e xs ys) (hfin : e.finishing = true) {sizes : List ℕ}
    (hsizes : ∀ n ∈ sizes, 0 < n)
    (hroom : (compressed xs).length < ys.length + sizes.sum) :
    (hseCalls.run e (sizes.map .poll)).state = .done := by
  induction sizes generalizing e ys with
  | nil =>
      have hle := h.encoded.prefix_taken.length_le
      rw [List.sum_nil] at hroom
      omega
  | cons n sizes ih =>
      obtain ⟨hn, hsizes⟩ := List.forall_mem_cons.mp hsizes
      obtain ⟨hfin', hend⟩ := h.poll_finishing hfin hn
      rw [List.map_cons, Machine.run_cons]
      rcases hend with hfull | hdone
      · refine ih (h.poll n) hfin' hsizes ?_
        rw [List.sum_cons] at hroom
        rw [List.length_append, hfull]
        omega
      · exact state_polls_of_done hdone sizes

end Between

theorem sunk_polls (e : Hse) (sizes : List ℕ) :
    sunk (hseCalls.trace e (sizes.map .poll)) = [] := by
  induction sizes generalizing e with
  | nil => rfl
  | cons n sizes ih =>
      rw [List.map_cons, Machine.trace_cons, sunk_append, ih]
      rfl

/-- After `finish`, buffers with room for more than what is left of the code get all of
it, whatever was done before and however small they are. -/
theorem encoder_drains (searchIndex : ℕ → Option ℕ) (calls : List HseCall)
    (sizes : List ℕ) (hsizes : ∀ n ∈ sizes, 0 < n) :
    let t := hseCalls.trace (.reset searchIndex) calls
    let calls' := calls ++ .finish :: sizes.map .poll
    (compressed (sunk t)).length < (written t).length + sizes.sum →
      (hseCalls.run (.reset searchIndex) calls').state = .done ∧
        written (hseCalls.trace (.reset searchIndex) calls') = compressed (sunk t) := by
  intro t calls' hroom
  have hdone : (hseCalls.run (.reset searchIndex) calls').state = .done := by
    rw [Machine.run_append, Machine.run_cons]
    exact (between_run searchIndex calls).finish.polls rfl hsizes hroom
  refine ⟨hdone, ?_⟩
  have hsunk : sunk (hseCalls.trace (.reset searchIndex) calls') = sunk t := by
    rw [Machine.trace_append, Machine.trace_cons, sunk_append, sunk_append, sunk_polls]
    exact List.append_nil _
  rw [((between_run searchIndex calls').encoded.eq_compressed hdone), hsunk]

/-- The code of three bytes, a byte at a time. -/
theorem encoder_drains_bytewise :
    let calls : List HseCall := [.sink [97, 98, 99], .finish, .poll 1, .poll 1, .poll 1,
      .poll 1, .poll 1]
    written (hseCalls.trace (.reset fun _ => none) calls) = compressed [97, 98, 99] := by
  have hsize := length_compressed_le [97, 98, 99]
  exact (encoder_drains (fun _ => none) [.sink [97, 98, 99]] [1, 1, 1, 1, 1] (by decide)
    (Nat.lt_of_le_of_lt hsize (by decide))).2

end LifiAuth.Heatshrink
