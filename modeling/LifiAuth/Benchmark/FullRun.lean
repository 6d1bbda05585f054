import LifiAuth.Benchmark.RateAgreement
import LifiAuth.Benchmark.TestCommand

/-!
# A benchmark that nobody interrupts

Without a key `run_auto_test` comes to its end, and over a lossless link the receiver
prints what the operator asked for: for each rate the switch, the start and a result that
has lost nothing, and at last the way back to 9600.
-/

namespace LifiAuth

open Support AutoTest

/-! ## The sender without a key -/

section Sender

variable (n : UInt32) (bauds : List UInt32)

/-- Looks at the keyboard that find no key lead from `a` to `a'`. -/
def Unattended (a : AutoTest) (sent : List Sent) (a' : AutoTest) : Prop :=
  ∃ looks, (autoTest n bauds).Runs a (List.replicate looks false) sent a'

/-- `count` packets from number `i` on. -/
def packetsFrom (s : ℕ) (rate i : UInt32) : ℕ → List Sent
  | 0 => []
  | count + 1 => ⟨s, rate, .pkt i⟩ :: packetsFrom s rate (i + 1) count

/-- The messages of a step behind its announcement. -/
def stepMessages (s : ℕ) : List Sent :=
  ⟨s, rateOf bauds s, .testStart⟩ ::
    (packetsFrom s (rateOf bauds s) 1 n.toNat ++ [⟨s, rateOf bauds s, .testEnd n⟩])

/-- All messages from step `s` on, with `left` steps to go. -/
def messagesFrom : ℕ → ℕ → UInt32 → List Sent
  | 0, s, rate => [⟨s, rate, .baud 9600⟩, ⟨s, 9600, .done⟩]
  | left + 1, s, rate =>
      ⟨s, rate, .baud (rateOf bauds s)⟩ ::
        (stepMessages n bauds s ++ messagesFrom left (s + 1) (rateOf bauds s))

variable {n bauds} {a a' a'' : AutoTest} {sent sent' : List Sent}

theorem Unattended.refl (a : AutoTest) : Unattended n bauds a [] a :=
  ⟨0, Machine.Runs.nil a⟩

theorem Unattended.trans (h : Unattended n bauds a sent a')
    (h' : Unattended n bauds a' sent' a'') : Unattended n bauds a (sent ++ sent') a'' := by
  obtain ⟨looks, h⟩ := h
  obtain ⟨looks', h'⟩ := h'
  refine ⟨looks + looks', ?_⟩
  rw [List.replicate_add]
  exact h.append h'

theorem Unattended.step (h : poll n bauds a false = (a', sent)) :
    Unattended n bauds a sent a' := by
  have hruns := Machine.Runs.single (M := autoTest n bauds) a false
  have hstep : (autoTest n bauds).step a false = (a', sent) := h
  rw [hstep] at hruns
  exact ⟨1, hruns⟩

/-- What follows a wait does not depend on how long it has been going on. -/
theorem afterWait_phase (a : AutoTest) (w : TestWait) (p : TestPhase) :
    afterWait n bauds { a with phase := p } w = afterWait n bauds a w := by
  cases w with
  | settling => simp only [afterWait, enterPacket]
  | _ => rfl

variable (n bauds) in
/-- A wait that no key ends comes to its end. -/
theorem unattended_wait {w : TestWait} {done : ℕ} (h : a.phase = .waiting w done) :
    Unattended n bauds a (afterWait n bauds a w).2 (afterWait n bauds a w).1 := by
  induction hleft : w.ms - done using Nat.strongRecOn generalizing a done with
  | ind left ih =>
      have hpoll : poll n bauds a false =
          if done + 10 < w.ms then ({ a with phase := .waiting w (done + 10) }, [])
          else afterWait n bauds a w := by
        rw [poll, h]
        rfl
      by_cases hlonger : done + 10 < w.ms
      · rw [if_pos hlonger] at hpoll
        have hrest := ih (w.ms - (done + 10)) (by omega)
          (a := { a with phase := .waiting w (done + 10) }) rfl rfl
        rw [afterWait_phase] at hrest
        exact (Unattended.step hpoll).trans hrest
      · rw [if_neg hlonger] at hpoll
        exact Unattended.step hpoll

variable (bauds) in
/-- From packet `i` on the loop sends the packets that are left, and the end. -/
theorem unattended_enterPacket (hn : n.toNat + 1 < 2 ^ 32) {i : UInt32} {left : ℕ}
    (hleft : i.toNat + left = n.toNat + 1) (a : AutoTest) :
    ∃ sent, (enterPacket n a i).2 ++ sent =
        packetsFrom a.s a.currentBaud i left ++ [⟨a.s, a.currentBaud, .testEnd n⟩] ∧
      Unattended n bauds (enterPacket n a i).1 sent { a with phase := .waiting .ended 0 } := by
  induction left generalizing i a with
  | zero =>
      rcases enterPacket_cases n a i with ⟨hi, -⟩ | ⟨-, heq⟩
      · have hi : i.toNat ≤ n.toNat := hi
        omega
      · rw [heq]
        exact ⟨[], rfl, Unattended.refl _⟩
  | succ left ih =>
      rcases enterPacket_cases n a i with ⟨-, heq⟩ | ⟨hi, -⟩
      · have hnext : (i + 1).toNat = i.toNat + 1 := by
          rw [UInt32.toNat_add]
          exact Nat.mod_eq_of_lt (by simp; omega)
        obtain ⟨sent, hsent, hrest⟩ :=
          ih (i := i + 1) (by omega) { a with phase := .packets i }
        have hpoll : poll n bauds { a with phase := .packets i } false =
            ((enterPacket n { a with phase := .packets i } (i + 1)).1,
              ⟨a.s, a.currentBaud, .pkt i⟩ ::
                (enterPacket n { a with phase := .packets i } (i + 1)).2) := rfl
        rw [heq]
        refine ⟨_, ?_, (Unattended.step hpoll).trans hrest⟩
        exact congrArg (List.cons _) hsent
      · have hi : n.toNat < i.toNat := hi
        omega

variable (bauds) in
/-- A step sends all its messages and comes to the head of the next. -/
theorem unattended_step (hn : n.toNat + 1 < 2 ^ 32) (s : ℕ) (rate : UInt32) :
    Unattended n bauds ⟨s, .waiting .announced 0, rate⟩
      (stepMessages n bauds s ++ (enterStep bauds (s + 1) (rateOf bauds s)).2)
      (enterStep bauds (s + 1) (rateOf bauds s)).1 := by
  have hannounced := unattended_wait n bauds
    (a := ⟨s, .waiting .announced 0, rate⟩) rfl
  have hsettled := unattended_wait n bauds
    (a := ⟨s, .waiting .settling 0, rateOf bauds s⟩) rfl
  obtain ⟨sent, hsent, hpackets⟩ := unattended_enterPacket bauds hn
    (show (1 : UInt32).toNat + n.toNat = n.toNat + 1 from Nat.add_comm 1 n.toNat)
    ⟨s, .waiting .settling 0, rateOf bauds s⟩
  have hended := unattended_wait n bauds
    (a := ⟨s, .waiting .ended 0, rateOf bauds s⟩) rfl
  have hall := hannounced.trans (hsettled.trans (hpackets.trans hended))
  have hmessages : stepMessages n bauds s =
      ⟨s, rateOf bauds s, .testStart⟩ ::
        ((enterPacket n ⟨s, .waiting .settling 0, rateOf bauds s⟩ 1).2 ++ sent) := by
    rw [hsent]
    rfl
  rw [hmessages]
  simpa [afterWait] using hall

variable (bauds) in
/-- From the head of a step the benchmark comes to its end. -/
theorem unattended_from (hn : n.toNat + 1 < 2 ^ 32) {left s : ℕ}
    (hleft : s + left = bauds.length) (rate : UInt32) :
    ∃ sent a', (enterStep bauds s rate).2 ++ sent = messagesFrom n bauds left s rate ∧
      Unattended n bauds (enterStep bauds s rate).1 sent a' ∧
      a'.phase = .returned ∧ a'.currentBaud = 9600 := by
  induction left generalizing s rate with
  | zero =>
      have hlast : ¬ s < bauds.length := by omega
      have hwait := unattended_wait n bauds
        (a := ⟨s, .waiting .resetting 0, rate⟩) rfl
      rw [enterStep, if_neg hlast]
      exact ⟨_, _, rfl, hwait, rfl, rfl⟩
  | succ left ih =>
      have hmore : s < bauds.length := by omega
      obtain ⟨sent, a', hsent, hrest, hend⟩ := ih (s := s + 1) (by omega) (rateOf bauds s)
      have hstep := unattended_step bauds hn s rate
      rw [enterStep, if_pos hmore]
      refine ⟨_, a', ?_, hstep.trans hrest, hend⟩
      rw [messagesFrom, ← hsent]
      simp

/-- A benchmark that has returned sends nothing more. -/
theorem runs_returned (h : a.phase = .returned) (keys : List Bool) :
    (autoTest n bauds).Runs a keys [] a := by
  induction keys with
  | nil => exact Machine.Runs.nil a
  | cons key keys ih =>
      have hstep : (autoTest n bauds).step a key = (a, []) := by
        simp [autoTest, poll, h]
      exact Machine.Runs.cons hstep ih

variable (bauds) in
/-- Left alone for long enough, the benchmark has sent all its messages and returned. -/
theorem unattended_all (hn : n.toNat + 1 < 2 ^ 32) (rate : UInt32) :
    ∃ looks, ∀ k, looks ≤ k →
      sentMessages n bauds rate (List.replicate k false) =
          messagesFrom n bauds bauds.length 0 rate ∧
        ((autoTest n bauds).run (AutoTest.start bauds rate)
          (List.replicate k false)).phase = .returned := by
  obtain ⟨sent, a', hsent, ⟨looks, hruns⟩, hend, -⟩ :=
    unattended_from bauds hn (Nat.zero_add _) rate
  refine ⟨looks, fun k hk => ?_⟩
  have hrest := hruns.append (runs_returned hend (List.replicate (k - looks) false))
  rw [← List.replicate_add, Nat.add_sub_cancel' hk, List.append_nil] at hrest
  refine ⟨?_, ?_⟩
  · rw [sentMessages, AutoTest.start, hrest.trace, hsent]
  · rw [AutoTest.start, hrest.run]
    exact hend

end Sender

/-! ## What the receiver prints -/

section Receiver

variable {garble : UInt32 → Sent → List UInt8}

/-- The receiver and the lines that it prints for the messages sent. -/
def hearing (garble : UInt32 → Sent → List UInt8) :
    Machine TestReceiver Sent TestLine where
  step r o :=
    (receiveSent garble r o, testReceiver.trace r
      (if o.rate = r.currentBaud then lifiMessage o.message.text
        else garble r.currentBaud o))

theorem run_hearing (r : TestReceiver) (sent : List Sent) :
    (hearing garble).run r sent = sent.foldl (receiveSent garble) r := by
  induction sent generalizing r with
  | nil => rfl
  | cons o sent ih => exact ih (receiveSent garble r o)

/-- The receiver of a run has heard what was sent. -/
theorem snd_run (x : AutoTest × TestReceiver) (keys : List Bool) {n : UInt32}
    {bauds : List UInt32} :
    ((benchLink n bauds garble).run x keys).2 =
      (hearing garble).run x.2 ((autoTest n bauds).trace x.1 keys) := by
  induction keys generalizing x with
  | nil => rfl
  | cons key keys ih =>
      rw [Machine.run_cons, ih, Machine.trace_cons, Machine.run_append,
        run_hearing x.2]
      rfl

/-- The sender runs on its own, and the receiver hears what is sent. -/
theorem run_benchStart (n : UInt32) (bauds : List UInt32) (r : TestReceiver)
    (keys : List Bool) :
    (benchLink n bauds garble).run (benchStart bauds garble r) keys =
      ((autoTest n bauds).run (AutoTest.start bauds r.currentBaud) keys,
        (hearing garble).run r (sentMessages n bauds r.currentBaud keys)) := by
  refine Prod.ext (fst_run _ keys) ?_
  rw [snd_run, sentMessages, Machine.run_append, run_hearing r]
  rfl

/-- The line that a message makes a receiver print that counts packets. -/
def TestCounters.line (c : TestCounters) : TestMessage → Option TestLine
  | .baud rate => if acceptsBaud rate then some (.baudSwitch rate) else none
  | .testStart => some (.testStart c.currentBaud)
  | .pkt _ => none
  | .testEnd sent => some (.testResult c.testBaud sent c.testRecv)
  | .done => some .testDone

/-- The receiver listens with these counters. -/
structure Counting (r : TestReceiver) (c : TestCounters) : Prop where
  listening : r.Listening
  counters : r.counters = c

/-- The messages `sent` take the counters from `c` to `c'` and make the receiver print
`lines`. -/
def Heard (garble : UInt32 → Sent → List UInt8) (c : TestCounters) (sent : List Sent)
    (lines : List TestLine) (c' : TestCounters) : Prop :=
  ∀ r, Counting r c → ∃ r', Counting r' c' ∧ (hearing garble).Runs r sent lines r'

variable {c c' c'' : TestCounters} {sent sent' : List Sent} {lines lines' : List TestLine}

theorem Heard.nil (c : TestCounters) : Heard garble c [] [] c := fun r hr =>
  ⟨r, hr, Machine.Runs.nil r⟩

theorem Heard.append (h : Heard garble c sent lines c') (h' : Heard garble c' sent' lines' c'') :
    Heard garble c (sent ++ sent') (lines ++ lines') c'' := by
  intro r hr
  obtain ⟨r', hr', hruns⟩ := h r hr
  obtain ⟨r'', hr'', hruns'⟩ := h' r' hr'
  exact ⟨r'', hr'', hruns.append hruns'⟩

/-- The dispatch on the text of a message prints its line. -/
theorem TestReceiver.lines_dispatch (r : TestReceiver) {m : TestMessage}
    (hactive : m.IsPkt → r.testActive = true) :
    (r.dispatch m.text).2 = (r.counters.line m).toList := by
  cases m with
  | baud rate =>
      have hprefix : ascii "__BAUD:" <+: (TestMessage.baud rate).text := List.prefix_append ..
      have hvalue : strtoul ((TestMessage.baud rate).text.drop 7) = rate :=
        strtoul_decimal_ascii rate
      simp only [dispatch, if_pos hprefix, hvalue, TestCounters.line]
      split
      · rfl
      · rfl
  | testStart => rfl
  | pkt i =>
      have hactive := hactive trivial
      have hpkt : (TestMessage.pkt i).text =
          80 :: 75 :: 84 :: TestMessage.paddedDecimal i.toNat := rfl
      simp [dispatch, hpkt, ascii, hactive, TestCounters.line]
  | testEnd sent =>
      have hvalue : strtoul (decimal sent.toNat ++ [95, 95]) = sent :=
        strtoul_decimal_ascii sent
      simp [dispatch, TestMessage.text, ascii, TestCounters.line, hvalue, counters]
  | done => rfl

/-- A message at the common rate is counted and prints its line. -/
theorem heard_message (garble : UInt32 → Sent → List UInt8) (c : TestCounters) (s : ℕ)
    {m : TestMessage} (hactive : m.IsPkt → c.testActive = true) :
    Heard garble c [⟨s, c.currentBaud, m⟩] (c.line m).toList (c.receive m) := by
  rintro r ⟨hr, rfl⟩
  obtain ⟨hlisten, hcounters, -⟩ := TestReceiver.receive_message hr m
  have hmem (c) (hc : c ∈ m.text) := TestMessage.text_mem hc
  have hruns := TestReceiver.runs_lifiMessage hr
    (fun c hc => ⟨(hmem c hc).1, (hmem c hc).2.1⟩)
    (show m.text.length ≤ 511 by have := m.length_text_lt; omega)
  have hcstr : cstr m.text = m.text := cstr_of_not_mem fun h => (hmem 0 h).2.2 rfl
  have hlines : testReceiver.trace r (lifiMessage m.text) = (r.counters.line m).toList := by
    rw [hruns.trace]
    simp only [TestReceiver.endLine, hcstr]
    exact TestReceiver.lines_dispatch { r with
      state := .payload, buf := m.text, msgCount := r.msgCount + 1 } hactive
  have hsent : (hearing garble).step r ⟨s, r.counters.currentBaud, m⟩ =
      (testReceiver.run r (lifiMessage m.text), testReceiver.trace r (lifiMessage m.text)) := by
    simp [hearing, receiveSent, TestReceiver.counters]
  have hone := Machine.Runs.single (M := hearing garble) r ⟨s, r.counters.currentBaud, m⟩
  rw [hsent, hlines] at hone
  exact ⟨_, ⟨hlisten, hcounters⟩, hone⟩

variable (garble) in
/-- Packets in a test are counted without a word. -/
theorem heard_packets (hactive : c.testActive = true) (s : ℕ) (i : UInt32) (count : ℕ) :
    Heard garble c (packetsFrom s c.currentBaud i count) []
      { c with testRecv := c.testRecv + UInt32.ofNat count } := by
  induction count generalizing c i with
  | zero =>
      have hzero : c.testRecv + UInt32.ofNat 0 = c.testRecv := by simp
      rw [hzero]
      exact Heard.nil c
  | succ count ih =>
      have hfirst := heard_message garble c s (m := .pkt i) fun _ => hactive
      have hstep : c.receive (.pkt i) = { c with testRecv := c.testRecv + 1 } := if_pos hactive
      rw [hstep] at hfirst
      have hrest := ih (c := { c with testRecv := c.testRecv + 1 }) hactive (i + 1)
      have hcount : c.testRecv + 1 + UInt32.ofNat count =
          c.testRecv + UInt32.ofNat (count + 1) := by
        rw [UInt32.ofNat_add, UInt32.add_assoc, UInt32.add_comm 1]
        rfl
      have hall := hfirst.append hrest
      rw [hcount] at hall
      exact hall

/-- What the receiver prints for a step. -/
def stepLines (n rate : UInt32) : List TestLine :=
  [.baudSwitch rate, .testStart rate, .testResult rate n n]

variable (garble) in
/-- A step is reported without a loss. -/
theorem heard_step (n : UInt32) (bauds : List UInt32) (c : TestCounters) (s : ℕ)
    (hrate : acceptsBaud (rateOf bauds s) = true) :
    Heard garble c (⟨s, c.currentBaud, .baud (rateOf bauds s)⟩ :: stepMessages n bauds s)
      (stepLines n (rateOf bauds s)) ⟨rateOf bauds s, false, n, rateOf bauds s⟩ := by
  have hbaud := heard_message garble c s (m := .baud (rateOf bauds s)) nofun
  have hswitch : c.receive (.baud (rateOf bauds s)) =
      { c with currentBaud := rateOf bauds s } := if_pos hrate
  have hline : c.line (.baud (rateOf bauds s)) = some (.baudSwitch (rateOf bauds s)) :=
    if_pos hrate
  rw [hswitch, hline] at hbaud
  have hstart := heard_message garble { c with currentBaud := rateOf bauds s } s
    (m := .testStart) nofun
  have hpackets := heard_packets garble
    (c := ⟨rateOf bauds s, true, 0, rateOf bauds s⟩) rfl s 1 n.toNat
  have hzero : (0 : UInt32) + UInt32.ofNat n.toNat = n := by simp
  rw [hzero] at hpackets
  have hend := heard_message garble ⟨rateOf bauds s, true, n, rateOf bauds s⟩ s
    (m := .testEnd n) nofun
  exact hbaud.append (hstart.append (hpackets.append hend))

variable (garble) in
/-- All steps are reported, and then both are back at 9600. -/
theorem heard_from {n : UInt32} {bauds : List UInt32}
    (hbauds : ∀ b ∈ bauds, acceptsBaud b = true) {left s : ℕ}
    (hleft : s + left = bauds.length) (c : TestCounters) :
    ∃ c', c'.currentBaud = 9600 ∧
      Heard garble c (messagesFrom n bauds left s c.currentBaud)
        ((bauds.drop s).flatMap (stepLines n) ++ [.baudSwitch 9600, .testDone]) c' := by
  induction left generalizing s c with
  | zero =>
      have hdrop : bauds.drop s = [] := List.drop_eq_nil_of_le (by omega)
      have hbaud := heard_message garble c s (m := .baud 9600) nofun
      have hdone := heard_message garble { c with currentBaud := 9600 } s (m := .done) nofun
      rw [hdrop]
      exact ⟨_, rfl, hbaud.append hdone⟩
  | succ left ih =>
      have hs : s < bauds.length := by omega
      obtain ⟨c', hend, hrest⟩ := ih (s := s + 1) (by omega)
        ⟨rateOf bauds s, false, n, rateOf bauds s⟩
      have hstep := heard_step garble n bauds c s (acceptsBaud_rateOf hbauds s)
      have hrate : bauds[s] = rateOf bauds s := by simp [rateOf, hs]
      refine ⟨c', hend, ?_⟩
      rw [List.drop_eq_getElem_cons hs, hrate, List.flatMap_cons, List.append_assoc,
        messagesFrom]
      exact hstep.append hrest

end Receiver

/-! ## The command from the operator to the screen -/

/-- The call that a `test` command makes is within the range that the benchmark counts
in, and its rates are accepted ones. -/
theorem TestCall.inRange {line : CommandLine} {fuel : ℕ} {call : TestCall}
    (hcall : testCommand line fuel = some call) :
    call.n.toNat + 1 < 2 ^ 32 ∧ ∀ b ∈ call.bauds, acceptsBaud b = true := by
  have hcount (n : UInt32) : (packetCount n).toNat + 1 < 2 ^ 32 := by
    rw [packetCount]
    split
    · decide
    · next h =>
        have hle : n.toNat ≤ 10000 := UInt32.not_lt.mp fun hlt => h (Or.inr hlt)
        omega
  have hstandard : ∀ b ∈ testBauds, acceptsBaud b = true := by decide
  have hbauds (n : UInt32) {customBauds : List UInt32}
      (h : ∀ b ∈ customBauds, acceptsBaud b = true) (accesses) :
      ∀ b ∈ (TestCall.mk n customBauds accesses).bauds, acceptsBaud b = true := by
    rw [TestCall.bauds]
    split
    · exact h
    · exact hstandard
  simp only [testCommand] at hcall
  split at hcall
  · split at hcall
    · obtain ⟨s, hs, rfl⟩ := Option.map_eq_some_iff.mp hcall
      have haccepted : ∀ b ∈ s.customBauds, acceptsBaud b = true := by
        refine While.run_invariant
          (P := fun s : RateScan => ∀ b ∈ s.customBauds, acceptsBaud b = true)
          ?_ (List.forall_mem_nil _) hs
        intro s h htest
        simp only [rateLoop]
        split
        · next hb => exact List.forall_mem_append.mpr ⟨h, List.forall_mem_singleton.mpr hb⟩
        · exact h
      exact ⟨hcount _, hbauds _ haccepted _⟩
    · obtain rfl := Option.some.inj hcall
      exact ⟨hcount _, hbauds _ (List.forall_mem_nil _) _⟩
  · obtain rfl := Option.some.inj hcall
    exact ⟨by decide, hbauds _ (List.forall_mem_nil _) _⟩

/-- What the receiver prints for a whole benchmark. -/
def reportLines (n : UInt32) (bauds : List UInt32) : List TestLine :=
  bauds.flatMap (stepLines n) ++ [.baudSwitch 9600, .testDone]

/-- Left alone for long enough, the benchmark has returned and the receiver has heard it
to its end. -/
theorem heard_test {line : CommandLine} {fuel : ℕ} {call : TestCall}
    (hcall : testCommand line fuel = some call) (garble : UInt32 → Sent → List UInt8)
    {r : TestReceiver} (hr : r.Listening) :
    ∃ looks, ∀ k, looks ≤ k →
      ((autoTest call.n call.bauds).run (AutoTest.start call.bauds r.currentBaud)
        (List.replicate k false)).phase = .returned ∧
      ∃ r', r'.currentBaud = 9600 ∧ (hearing garble).Runs r
        (sentMessages call.n call.bauds r.currentBaud (List.replicate k false))
        (reportLines call.n call.bauds) r' := by
  obtain ⟨hn, hbauds⟩ := TestCall.inRange hcall
  obtain ⟨looks, hall⟩ := unattended_all call.bauds hn r.currentBaud
  obtain ⟨c', hend, hheard⟩ :=
    heard_from garble (n := call.n) hbauds (Nat.zero_add _) r.counters
  obtain ⟨r', ⟨-, hcounters⟩, hruns⟩ := hheard r ⟨hr, rfl⟩
  refine ⟨looks, fun k hk => ?_⟩
  obtain ⟨hsent, hreturned⟩ := hall k hk
  rw [hsent]
  exact ⟨hreturned, r', (congrArg TestCounters.currentBaud hcounters).trans hend, hruns⟩

/-- Over a lossless link and without a key a `test` command whose rates are a list is parsed
and comes to its end, with both sides at 9600; the receiver has printed, for each rate in
turn, the switch, the start and a result that has lost nothing. -/
theorem test_reports_every_rate {line : CommandLine}
    (hrates : ∀ rates ∈ line.rates, RateList 0 rates)
    (garble : UInt32 → Sent → List UInt8) {r : TestReceiver} (hr : r.Listening) :
    (∃ fuel call, testCommand line fuel = some call) ∧
      ∀ fuel call, testCommand line fuel = some call → ∃ looks, ∀ k, looks ≤ k →
        let keys := List.replicate k false
        let x := (benchLink call.n call.bauds garble).run (benchStart call.bauds garble r) keys
        x.1.phase = .returned ∧ x.1.currentBaud = 9600 ∧ x.2.currentBaud = 9600 ∧
          (hearing garble).trace r (sentMessages call.n call.bauds r.currentBaud keys) =
            reportLines call.n call.bauds := by
  refine ⟨exists_testCommand hrates, fun fuel call hcall => ?_⟩
  obtain ⟨looks, hall⟩ := heard_test hcall garble hr
  refine ⟨looks, fun k hk => ?_⟩
  obtain ⟨hreturned, r', hrate, hruns⟩ := hall k hk
  simp only [run_benchStart, hruns.run, hruns.trace]
  exact ⟨hreturned, currentBaud_of_returned hreturned, hrate, trivial⟩

theorem testCommand_ratesLine : ∃ accesses,
    testCommand ratesLine 5 = some ⟨5, [1000, 9600], accesses⟩ :=
  ⟨_, rfl⟩

/-- Five packets at 1000 and at 9600 baud, to a receiver that has just started. -/
theorem test_reports_every_rate_twoRates : ∃ looks, ∀ k, looks ≤ k →
    let keys := List.replicate k false
    let x := (benchLink 5 [1000, 9600] fun _ _ => []).run
      (benchStart [1000, 9600] (fun _ _ => []) TestReceiver.start) keys
    x.1.phase = .returned ∧ x.1.currentBaud = 9600 ∧ x.2.currentBaud = 9600 ∧
      (hearing fun _ _ => []).trace TestReceiver.start
          (sentMessages 5 [1000, 9600] 9600 keys) =
        [.baudSwitch 1000, .testStart 1000, .testResult 1000 5 5, .baudSwitch 9600,
          .testStart 9600, .testResult 9600 5 5, .baudSwitch 9600, .testDone] := by
  obtain ⟨accesses, hcall⟩ := testCommand_ratesLine
  exact (test_reports_every_rate rateList_ratesLine (fun _ _ => []) ⟨rfl, rfl⟩).2 5 _ hcall

end LifiAuth
