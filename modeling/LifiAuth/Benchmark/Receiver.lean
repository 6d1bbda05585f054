import LifiAuth.Benchmark.Messages
import LifiAuth.Support.Machine

/-!
# The receiver of the benchmark

`receiver_pico/src/main.c` looks for the preamble byte by byte, collects a line, and
acts on the messages of a test.  A receiver that listens handles every whole message of
the sender and listens again; what a message does then only depends on four variables.
-/

namespace LifiAuth

open Support

/-- `rx_state_t`. -/
inductive RxState where
  | hunt
  | pre1
  | pre2
  | pre3
  | payload
  deriving DecidableEq

/-- What the receiver prints. -/
inductive TestLine where
  | raw (byte : UInt8)
  | baudSwitch (baud : UInt32)
  | testStart (baud : UInt32)
  | testResult (baud sent recv : UInt32)
  | testDone
  | message (count : UInt32) (text : List UInt8)
  | truncated (count : UInt32) (text : List UInt8)
  deriving DecidableEq

/-- The globals of the receiver; `buf` is the array up to `buf_idx`. -/
structure TestReceiver where
  currentBaud : UInt32
  buf : List UInt8
  state : RxState
  msgCount : UInt32
  rawMode : Bool
  testActive : Bool
  testRecv : UInt32
  testBaud : UInt32
  deriving DecidableEq

namespace TestReceiver

/-- The globals after startup. -/
def start : TestReceiver where
  currentBaud := 9600
  buf := []
  state := .hunt
  msgCount := 0
  rawMode := false
  testActive := false
  testRecv := 0
  testBaud := 0

/-- The test protocol dispatch on a complete line. -/
def dispatch (r : TestReceiver) (buf : List UInt8) : TestReceiver × List TestLine :=
  if ascii "__BAUD:" <+: buf then
    let nb := strtoul (buf.drop 7)
    if acceptsBaud nb then ({ r with currentBaud := nb }, [.baudSwitch nb]) else (r, [])
  else if buf = ascii "__TEST_START__" then
    ({ r with testActive := true, testRecv := 0, testBaud := r.currentBaud },
      [.testStart r.currentBaud])
  else if ascii "__TEST_END:" <+: buf then
    let sent := strtoul (buf.drop 11)
    ({ r with testActive := false }, [.testResult r.testBaud sent r.testRecv])
  else if buf = ascii "__DONE__" then (r, [.testDone])
  else if r.testActive ∧ ascii "PKT" <+: buf then
    ({ r with testRecv := r.testRecv + 1 }, [])
  else (r, [.message r.msgCount buf])

/-- The end of a line in `STATE_PAYLOAD`. -/
def endLine (r : TestReceiver) : TestReceiver × List TestLine :=
  let (r, lines) := { r with msgCount := r.msgCount + 1 }.dispatch (cstr r.buf)
  ({ r with state := .hunt }, lines)

/-- The body of `main` for a byte from the light link. -/
def receiveByte (r : TestReceiver) (byte : UInt8) : TestReceiver × List TestLine :=
  if r.rawMode then (r, [.raw byte])
  else
    match r.state with
    | .hunt => (if byte = preambleByte1 then { r with state := .pre1 } else r, [])
    | .pre1 => ({ r with state := if byte = preambleByte2 then .pre2 else .hunt }, [])
    | .pre2 => ({ r with state := if byte = preambleByte3 then .pre3 else .hunt }, [])
    | .pre3 =>
        (if byte = preambleByte4 then { r with state := .payload, buf := [] }
          else { r with state := .hunt }, [])
    | .payload =>
        if byte = 10 ∨ byte = 13 then r.endLine
        else if r.buf.length < 511 then ({ r with buf := r.buf ++ [byte] }, [])
        else
          ({ r with state := .hunt, msgCount := r.msgCount + 1 },
            [.truncated (r.msgCount + 1) (cstr r.buf)])

/-- The receiver waits for a preamble. -/
structure Listening (r : TestReceiver) : Prop where
  state : r.state = .hunt
  rawMode : r.rawMode = false

end TestReceiver

/-- The receiver and the bytes that arrive. -/
def testReceiver : Machine TestReceiver UInt8 TestLine where
  step := TestReceiver.receiveByte

/-! ## Whole messages -/

namespace TestReceiver

variable {r : TestReceiver}

/-- In raw mode a byte is printed and changes nothing. -/
theorem runs_raw (hraw : r.rawMode = true) (bytes : List UInt8) :
    testReceiver.Runs r bytes (bytes.map TestLine.raw) r := by
  induction bytes with
  | nil => exact Machine.Runs.nil r
  | cons b bytes ih =>
      have hstep : testReceiver.step r b = (r, [.raw b]) := by
        simp [testReceiver, receiveByte, hraw]
      exact Machine.Runs.cons hstep ih

/-- A preamble starts a line. -/
theorem runs_preamble (hr : r.Listening) :
    testReceiver.Runs r preamble [] { r with state := .payload, buf := [] } := by
  obtain ⟨hstate, hraw⟩ := hr
  constructor
  · simp [testReceiver, receiveByte, hstate, hraw, preamble]
  · simp [testReceiver, receiveByte, hstate, hraw, preamble]

/-- The bytes of a line are collected. -/
theorem runs_payload (hstate : r.state = .payload) (hraw : r.rawMode = false)
    {msg : List UInt8} (hend : ∀ c ∈ msg, c ≠ 10 ∧ c ≠ 13)
    (hlen : r.buf.length + msg.length ≤ 511) :
    testReceiver.Runs r msg [] { r with buf := r.buf ++ msg } := by
  induction msg generalizing r with
  | nil => simpa using Machine.Runs.nil r
  | cons c msg ih =>
      obtain ⟨hc, hmsg⟩ := List.forall_mem_cons.mp hend
      rw [List.length_cons] at hlen
      have hstep : testReceiver.step r c = ({ r with buf := r.buf ++ [c] }, []) := by
        simp only [testReceiver, receiveByte, hraw, hstate, Bool.false_eq_true, if_false]
        rw [if_neg (not_or.mpr hc), if_pos (by omega)]
      have hrest := @ih { r with buf := r.buf ++ [c] } hstate hraw hmsg (by
        rw [List.length_append, List.length_singleton]
        omega)
      simpa using Machine.Runs.cons hstep hrest

/-- A listening receiver handles a whole message at its end. -/
theorem runs_lifiMessage (hr : r.Listening) {msg : List UInt8}
    (hmsg : ∀ c ∈ msg, c ≠ 10 ∧ c ≠ 13) (hlen : msg.length ≤ 511) :
    testReceiver.Runs r (lifiMessage msg)
      ({ r with state := .payload, buf := msg } : TestReceiver).endLine.2
      ({ r with state := .payload, buf := msg } : TestReceiver).endLine.1 := by
  have hpayload := runs_payload (r := { r with state := .payload, buf := [] }) rfl hr.rawMode
    hmsg (by simpa using hlen)
  have hend : testReceiver.step { r with state := .payload, buf := msg } 10 =
      ({ r with state := .payload, buf := msg } : TestReceiver).endLine := by
    simp [testReceiver, receiveByte, hr.rawMode]
  have hlast := Machine.Runs.single (M := testReceiver)
    { r with state := .payload, buf := msg } 10
  rw [hend] at hlast
  simpa [lifiMessage] using ((runs_preamble hr).append hpayload).append hlast

/-- A dispatch leaves the parser alone. -/
theorem dispatch_frame (r : TestReceiver) (buf : List UInt8) :
    (r.dispatch buf).1.state = r.state ∧ (r.dispatch buf).1.rawMode = r.rawMode := by
  simp only [dispatch]
  split_ifs <;> exact ⟨rfl, rfl⟩

end TestReceiver

/-! ## What the messages of a test do -/

/-- The variables of the receiver that a test depends on. -/
structure TestCounters where
  currentBaud : UInt32
  testActive : Bool
  testRecv : UInt32
  testBaud : UInt32
  deriving DecidableEq

def TestReceiver.counters (r : TestReceiver) : TestCounters :=
  ⟨r.currentBaud, r.testActive, r.testRecv, r.testBaud⟩

/-- A `[TEST_RESULT]` line. -/
structure TestResult where
  baud : UInt32
  sent : UInt32
  recv : UInt32
  deriving DecidableEq

def TestLine.result? : TestLine → Option TestResult
  | testResult baud sent recv => some ⟨baud, sent, recv⟩
  | _ => none

namespace TestCounters

/-- The meaning of a message. -/
def receive (c : TestCounters) : TestMessage → TestCounters
  | .baud rate => if acceptsBaud rate then { c with currentBaud := rate } else c
  | .testStart => { c with testActive := true, testRecv := 0, testBaud := c.currentBaud }
  | .pkt _ => if c.testActive then { c with testRecv := c.testRecv + 1 } else c
  | .testEnd _ => { c with testActive := false }
  | .done => c

/-- The result that a message makes the receiver print. -/
def result (c : TestCounters) : TestMessage → Option TestResult
  | .testEnd sent => some ⟨c.testBaud, sent, c.testRecv⟩
  | _ => none

end TestCounters

/-- A longer text with another beginning. -/
theorem not_prefix_append {p q : List UInt8} (hlen : p.length ≤ q.length) (h : ¬ p <+: q)
    (t : List UInt8) : ¬ p <+: q ++ t := fun hp =>
  h (List.prefix_of_prefix_length_le hp (List.prefix_append q t) hlen)

namespace TestReceiver

theorem strtoul_decimal_ascii (n : UInt32) :
    strtoul (decimal n.toNat ++ ascii "__") = n := by
  refine strtoul_decimal n ?_
  intro c hc
  obtain rfl : 95 = c := Option.some.inj hc
  decide

/-- The dispatch on the text of a message. -/
theorem dispatch_text (r : TestReceiver) (m : TestMessage) :
    (r.dispatch m.text).1.counters = r.counters.receive m ∧
      (r.dispatch m.text).2.filterMap TestLine.result? = (r.counters.result m).toList := by
  cases m with
  | baud rate =>
      have hprefix : ascii "__BAUD:" <+: (TestMessage.baud rate).text := List.prefix_append ..
      have hvalue : strtoul ((TestMessage.baud rate).text.drop 7) = rate :=
        strtoul_decimal_ascii rate
      simp only [dispatch, if_pos hprefix, hvalue, TestCounters.receive, TestCounters.result]
      split
      · exact ⟨rfl, rfl⟩
      · exact ⟨rfl, rfl⟩
  | testStart => exact ⟨rfl, rfl⟩
  | pkt i =>
      -- The texts of the other messages start with an underscore.
      have hne {p : List UInt8} (hp : p.head? = some 95) :
          ¬ p <+: (TestMessage.pkt i).text := by
        obtain ⟨q, rfl⟩ := List.head?_eq_some_iff.mp hp
        intro h
        exact absurd (List.cons_prefix_cons.mp h).1 (by decide)
      have heq {p : List UInt8} (hp : p.head? = some 95) : (TestMessage.pkt i).text ≠ p := by
        intro h
        exact hne hp (by rw [h])
      have hpkt : ascii "PKT" <+: (TestMessage.pkt i).text := List.prefix_append ..
      simp only [dispatch, TestCounters.receive, TestCounters.result,
        if_neg (hne (p := ascii "__BAUD:") rfl), if_neg (heq (p := ascii "__TEST_START__") rfl),
        if_neg (hne (p := ascii "__TEST_END:") rfl), if_neg (heq (p := ascii "__DONE__") rfl)]
      by_cases hactive : r.testActive = true
      · rw [if_pos ⟨hactive, hpkt⟩, if_pos (show r.counters.testActive = true from hactive)]
        exact ⟨rfl, rfl⟩
      · rw [if_neg (fun h => hactive h.1),
          if_neg (show ¬ r.counters.testActive = true from hactive)]
        exact ⟨rfl, rfl⟩
  | testEnd sent =>
      have hbaud : ¬ ascii "__BAUD:" <+: (TestMessage.testEnd sent).text :=
        not_prefix_append (by decide) (by decide) _
      have hstart : (TestMessage.testEnd sent).text ≠ ascii "__TEST_START__" := by
        intro h
        have hprefix : ascii "__TEST_END:" <+: ascii "__TEST_START__" :=
          h ▸ List.prefix_append ..
        exact absurd hprefix (by decide)
      have hend : ascii "__TEST_END:" <+: (TestMessage.testEnd sent).text :=
        List.prefix_append ..
      have hvalue : strtoul ((TestMessage.testEnd sent).text.drop 11) = sent :=
        strtoul_decimal_ascii sent
      simp only [dispatch, if_neg hbaud, if_neg hstart, if_pos hend, hvalue]
      exact ⟨rfl, rfl⟩
  | done => exact ⟨rfl, rfl⟩

variable {r : TestReceiver}

/-- A listening receiver does what a whole message means, and listens again. -/
theorem receive_message (hr : r.Listening) (m : TestMessage) :
    (testReceiver.run r (lifiMessage m.text)).Listening ∧
      (testReceiver.run r (lifiMessage m.text)).counters = r.counters.receive m ∧
      (testReceiver.trace r (lifiMessage m.text)).filterMap TestLine.result? =
        (r.counters.result m).toList := by
  have hmem (c) (hc : c ∈ m.text) := TestMessage.text_mem hc
  have hruns := runs_lifiMessage hr (fun c hc => ⟨(hmem c hc).1, (hmem c hc).2.1⟩)
    (show m.text.length ≤ 511 by have := m.length_text_lt; omega)
  have hcstr : cstr m.text = m.text := cstr_of_not_mem fun h => (hmem 0 h).2.2 rfl
  rw [hruns.run, hruns.trace]
  simp only [endLine, hcstr]
  obtain ⟨hcounters, hresult⟩ := dispatch_text
    { r with state := .payload, buf := m.text, msgCount := r.msgCount + 1 } m
  refine ⟨⟨rfl, ?_⟩, hcounters, hresult⟩
  exact (dispatch_frame _ _).2.trans hr.rawMode

end TestReceiver

end LifiAuth
