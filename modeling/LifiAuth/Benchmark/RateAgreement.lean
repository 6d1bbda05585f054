import LifiAuth.Benchmark.AutoTest
import LifiAuth.Benchmark.Receiver

/-!
# The two rates after a benchmark

Sender and receiver change their rate at different moments, but every message is sent
while they agree, and after a whole benchmark both are at 9600.  A key sends the sender
back to 9600 alone: the receiver stays at the rate announced last.
-/

namespace LifiAuth

open Support AutoTest

/-- A message at the receiver's rate arrives as it is; one at another rate arrives as
whatever bytes `garble` makes of it. -/
def receiveSent (garble : UInt32 → Sent → List UInt8) (r : TestReceiver) (o : Sent) :
    TestReceiver :=
  testReceiver.run r
    (if o.rate = r.currentBaud then lifiMessage o.message.text else garble r.currentBaud o)

/-- The sender and the receiver, which processes each message as it is sent. -/
def benchLink (n : UInt32) (bauds : List UInt32) (garble : UInt32 → Sent → List UInt8) :
    Machine (AutoTest × TestReceiver) Bool Sent where
  step x key :=
    let (a, sent) := poll n bauds x.1 key
    ((a, sent.foldl (receiveSent garble) x.2), sent)

/-- The link when `run_auto_test` first looks at the keyboard, called at the receiver's
rate. -/
def benchStart (bauds : List UInt32) (garble : UInt32 → Sent → List UInt8)
    (r : TestReceiver) : AutoTest × TestReceiver :=
  let (a, sent) := enterStep bauds 0 r.currentBaud
  (a, sent.foldl (receiveSent garble) r)

/-! ## Raw mode -/

variable {n : UInt32} {bauds : List UInt32} {garble : UInt32 → Sent → List UInt8}

theorem foldl_receiveSent_raw (garble : UInt32 → Sent → List UInt8) {r : TestReceiver}
    (hraw : r.rawMode = true) (sent : List Sent) :
    sent.foldl (receiveSent garble) r = r := by
  induction sent with
  | nil => rfl
  | cons o sent ih => rw [List.foldl_cons, receiveSent, (TestReceiver.runs_raw hraw _).run, ih]

theorem run_raw {x : AutoTest × TestReceiver} (hraw : x.2.rawMode = true)
    (keys : List Bool) : ((benchLink n bauds garble).run x keys).2 = x.2 := by
  induction keys generalizing x with
  | nil => rfl
  | cons key keys ih =>
      have hstep : ((benchLink n bauds garble).step x key).1.2 = x.2 :=
        foldl_receiveSent_raw garble hraw _
      rw [Machine.run_cons, ih (by rw [hstep, hraw]), hstep]

/-- The sender takes no notice of the receiver. -/
theorem fst_run (x : AutoTest × TestReceiver) (keys : List Bool) :
    ((benchLink n bauds garble).run x keys).1 = (autoTest n bauds).run x.1 keys := by
  have h := Machine.abs_run (N := autoTest n bauds) Prod.fst
    (M := benchLink n bauds garble) (fun _ _ => rfl) x keys
  rwa [List.map_id'] at h

/-! ## Messages at the common rate -/

section

variable {r : TestReceiver} {o : Sent}

variable (garble) in
theorem receiveSent_common (hr : r.Listening) (hrate : o.rate = r.currentBaud) :
    (receiveSent garble r o).Listening ∧
      (receiveSent garble r o).counters = r.counters.receive o.message := by
  rw [receiveSent, if_pos hrate]
  obtain ⟨hlisten, hcounters, -⟩ := TestReceiver.receive_message hr o.message
  exact ⟨hlisten, hcounters⟩

variable (garble) in
/-- An announcement is followed. -/
theorem receiveSent_baud (hr : r.Listening) (step : ℕ) {rate : UInt32}
    (hrate : acceptsBaud rate = true) :
    (receiveSent garble r ⟨step, r.currentBaud, .baud rate⟩).Listening ∧
      (receiveSent garble r ⟨step, r.currentBaud, .baud rate⟩).currentBaud = rate := by
  obtain ⟨hlisten, hcounters⟩ :=
    receiveSent_common garble (o := ⟨step, r.currentBaud, .baud rate⟩) hr rfl
  refine ⟨hlisten, (congrArg TestCounters.currentBaud hcounters).trans ?_⟩
  simp [TestCounters.receive, hrate]

variable (garble) in
/-- No other message changes the rate. -/
theorem receiveSent_other (hr : r.Listening) (hrate : o.rate = r.currentBaud)
    (hother : ∀ rate, o.message ≠ .baud rate) :
    (receiveSent garble r o).Listening ∧
      (receiveSent garble r o).currentBaud = r.currentBaud := by
  obtain ⟨hlisten, hcounters⟩ := receiveSent_common garble hr hrate
  refine ⟨hlisten, (congrArg TestCounters.currentBaud hcounters).trans ?_⟩
  cases hm : o.message with
  | baud rate => exact absurd hm (hother rate)
  | pkt i =>
      simp only [TestCounters.receive]
      split
      · rfl
      · rfl
  | _ => rfl

end

/-! ## The receiver follows -/

/-- What the sender's rate is in each phase. -/
def AutoTest.RateOk (bauds : List UInt32) (a : AutoTest) : Prop :=
  match a.phase with
  | .waiting .announced _ | .draining => True
  | .waiting .resetting _ => bauds.length ≤ a.s
  | .returned => a.currentBaud = 9600
  | .waiting .settling _ | .waiting .ended _ | .packets _ => a.currentBaud = rateOf bauds a.s

theorem AutoTest.rateOk_enterStep (s : ℕ) (currentBaud : UInt32) :
    (enterStep bauds s currentBaud).1.RateOk bauds := by
  rcases enterStep_cases bauds s currentBaud with ⟨-, h⟩ | ⟨hle, h⟩
  · rw [h]
    trivial
  · rw [h]
    exact hle

theorem AutoTest.rateOk_enterPacket {a : AutoTest} (h : a.currentBaud = rateOf bauds a.s)
    (i : UInt32) : (enterPacket n a i).1.RateOk bauds := by
  rcases enterPacket_cases n a i with ⟨-, hi⟩ | ⟨-, hi⟩
  · rw [hi]
    exact h
  · rw [hi]
    exact h

theorem AutoTest.RateOk.poll {a : AutoTest} (h : a.RateOk bauds) (key : Bool) :
    (AutoTest.poll n bauds a key).1.RateOk bauds := by
  have hpolled := polled n bauds a key
  generalize AutoTest.poll n bauds a key = y at hpolled
  cases hpolled with
  | abort hrun => trivial
  | @wait w done hphase =>
      rw [AutoTest.RateOk, hphase] at h
      cases w <;> exact h
  | announced hphase => exact rfl
  | settling hphase =>
      rw [AutoTest.RateOk, hphase] at h
      exact rateOk_enterPacket h 1
  | ended hphase => exact rateOk_enterStep _ _
  | resetting hphase => exact rfl
  | @packet i hphase =>
      rw [AutoTest.RateOk, hphase] at h
      exact rateOk_enterPacket h (i + 1)
  | drain hphase => exact h
  | stop hphase => exact rfl
  | idle hphase => exact h

/-- The sender ends at 9600. -/
theorem currentBaud_of_returned {currentBaud : UInt32} {keys : List Bool}
    (hreturned : ((autoTest n bauds).run (AutoTest.start bauds currentBaud) keys).phase =
      .returned) :
    ((autoTest n bauds).run (AutoTest.start bauds currentBaud) keys).currentBaud = 9600 := by
  have hrate : ((autoTest n bauds).run (AutoTest.start bauds currentBaud) keys).RateOk bauds :=
    Machine.past_run (P := fun _ => AutoTest.RateOk bauds) (fun _ _ key h => h.poll key)
      (rateOk_enterStep 0 currentBaud) keys
  rwa [AutoTest.RateOk, hreturned] at hrate

/-- The receiver is at the rate announced last, and the sender has followed. -/
structure Together (bauds : List UInt32) (x : AutoTest × TestReceiver) : Prop where
  listening : x.2.Listening
  receiver : x.2.currentBaud = rateOf bauds x.1.s
  sender : x.1.RateOk bauds

theorem acceptsBaud_rateOf (hbauds : ∀ b ∈ bauds, acceptsBaud b = true) (s : ℕ) :
    acceptsBaud (rateOf bauds s) = true := by
  rcases Nat.lt_or_ge s bauds.length with hlt | hge
  · have hget : rateOf bauds s = bauds[s] := by simp [rateOf, hlt]
    rw [hget]
    exact hbauds _ (List.getElem_mem hlt)
  · rw [rateOf_of_le hge]
    decide

/-- What is announced is what the receiver changes over to. -/
theorem together_enterStep (hbauds : ∀ b ∈ bauds, acceptsBaud b = true) {r : TestReceiver}
    (hr : r.Listening) (s : ℕ) :
    Together bauds ((enterStep bauds s r.currentBaud).1,
      (enterStep bauds s r.currentBaud).2.foldl (receiveSent garble) r) := by
  obtain ⟨hlisten, hrate⟩ :=
    receiveSent_baud garble hr s (acceptsBaud_rateOf hbauds s)
  have hsender : (enterStep bauds s r.currentBaud).1.RateOk bauds := rateOk_enterStep s _
  rcases enterStep_cases bauds s r.currentBaud with ⟨-, h⟩ | ⟨-, h⟩
  · rw [h] at hsender ⊢
    exact ⟨hlisten, hrate, hsender⟩
  · rw [h] at hsender ⊢
    exact ⟨hlisten, hrate, hsender⟩

/-- Packets and the end of a step are sent at the common rate. -/
theorem together_enterPacket {a : AutoTest} {r : TestReceiver} (hr : r.Listening)
    (hrate : r.currentBaud = rateOf bauds a.s) (hsender : a.currentBaud = rateOf bauds a.s)
    (i : UInt32) :
    Together bauds ((enterPacket n a i).1,
      (enterPacket n a i).2.foldl (receiveSent garble) r) := by
  have hnext := rateOk_enterPacket (n := n) hsender i
  rcases enterPacket_cases n a i with ⟨-, h⟩ | ⟨-, h⟩
  · rw [h] at hnext ⊢
    exact ⟨hr, hrate, hnext⟩
  · rw [h] at hnext ⊢
    obtain ⟨hlisten, hkept⟩ := receiveSent_other garble
      (o := ⟨a.s, a.currentBaud, .testEnd n⟩) hr (hsender.trans hrate.symm)
      (fun rate => TestMessage.noConfusion)
    exact ⟨hlisten, hkept.trans hrate, hnext⟩

theorem Together.step (hbauds : ∀ b ∈ bauds, acceptsBaud b = true)
    {x : AutoTest × TestReceiver} (h : Together bauds x) (key : Bool) :
    Together bauds ((benchLink n bauds garble).step x key).1 := by
  obtain ⟨a, r⟩ := x
  obtain ⟨hlisten, hrate, hsender⟩ := h
  have hnext := hsender.poll (n := n) key
  have hpolled := polled n bauds a key
  simp only [benchLink]
  generalize poll n bauds a key = y at hpolled hnext
  -- What is sent here is sent at the common rate.
  have hother (o : Sent) (ho : o.rate = r.currentBaud) (hm : ∀ rate, o.message ≠ .baud rate) :=
    receiveSent_other garble hlisten ho hm
  cases hpolled with
  | settling hphase =>
      have hsame : a.currentBaud = rateOf bauds a.s := by
        simpa [AutoTest.RateOk, hphase] using hsender
      obtain ⟨hlisten', hkept⟩ := hother ⟨a.s, a.currentBaud, .testStart⟩
        (hsame.trans hrate.symm) (fun rate => TestMessage.noConfusion)
      exact together_enterPacket hlisten' (hkept.trans hrate) hsame 1
  | ended hphase =>
      have hsame : a.currentBaud = r.currentBaud := by
        rw [hrate]
        simpa [AutoTest.RateOk, hphase] using hsender
      rw [hsame]
      exact together_enterStep hbauds hlisten (a.s + 1)
  | resetting hphase =>
      have hlast : bauds.length ≤ a.s := by simpa [AutoTest.RateOk, hphase] using hsender
      obtain ⟨hlisten', hkept⟩ := hother ⟨a.s, 9600, .done⟩
        ((rateOf_of_le hlast).symm.trans hrate.symm) (fun rate => TestMessage.noConfusion)
      exact ⟨hlisten', hkept.trans hrate, hnext⟩
  | @packet i hphase =>
      have hsame : a.currentBaud = rateOf bauds a.s := by
        simpa [AutoTest.RateOk, hphase] using hsender
      obtain ⟨hlisten', hkept⟩ := hother ⟨a.s, a.currentBaud, .pkt i⟩
        (hsame.trans hrate.symm) (fun rate => TestMessage.noConfusion)
      exact together_enterPacket hlisten' (hkept.trans hrate) hsame (i + 1)
  | abort | wait | announced | drain | stop | idle => exact ⟨hlisten, hrate, hnext⟩

/-! ## Keys -/

/-- A key that ends the test finds the rate announced last at 9600. -/
def EndsAt9600 (bauds : List UInt32) (_ : List Sent) (x : AutoTest × TestReceiver)
    (key : Bool) : Prop :=
  key = true → x.1.phase.Running → rateOf bauds x.1.s = 9600

instance (t : List Sent) (x : AutoTest × TestReceiver) (key : Bool) :
    Decidable (EndsAt9600 bauds t x key) :=
  inferInstanceAs (Decidable (_ → _ → _))

/-- The test has not ended, or it ended with 9600 announced last. -/
def AutoTest.EndedAt9600 (bauds : List UInt32) (a : AutoTest) : Prop :=
  ¬ a.phase.Running → rateOf bauds a.s = 9600

theorem endedAt9600_of_running {a : AutoTest} (h : a.phase.Running) :
    a.EndedAt9600 bauds := fun hnot => absurd h hnot

theorem running_enterPacket (a : AutoTest) (i : UInt32) :
    (enterPacket n a i).1.phase.Running := by
  rcases enterPacket_cases n a i with ⟨-, h⟩ | ⟨-, h⟩
  · rw [h]
    trivial
  · rw [h]
    trivial

theorem running_enterStep (s : ℕ) (currentBaud : UInt32) :
    (enterStep bauds s currentBaud).1.phase.Running := by
  rcases enterStep_cases bauds s currentBaud with ⟨-, h⟩ | ⟨-, h⟩
  · rw [h]
    trivial
  · rw [h]
    trivial

/-- Only a key in a step with another rate ends the test at another rate. -/
theorem endedAt9600_step_iff {x : AutoTest × TestReceiver} (h : Together bauds x)
    (t : List Sent) (key : Bool) :
    ((benchLink n bauds garble).step x key).1.1.EndedAt9600 bauds ↔
      x.1.EndedAt9600 bauds ∧ EndsAt9600 bauds t x key := by
  obtain ⟨a, r⟩ := x
  have hsender := h.sender
  have hpolled := polled n bauds a key
  simp only [benchLink, EndsAt9600]
  generalize poll n bauds a key = y at hpolled
  -- Without a key the test goes on as it was.
  have hgoes {a' : AutoTest} (hrun : a.phase.Running) (hnext : a'.EndedAt9600 bauds) :
      a'.EndedAt9600 bauds ↔ a.EndedAt9600 bauds ∧
        (false = true → a.phase.Running → rateOf bauds a.s = 9600) :=
    iff_of_true hnext ⟨endedAt9600_of_running hrun, fun hkey => absurd hkey Bool.false_ne_true⟩
  cases hpolled with
  | abort hrun =>
      constructor
      · intro hended
        exact ⟨endedAt9600_of_running hrun, fun _ _ => hended id⟩
      · rintro ⟨-, hkey⟩ -
        exact hkey rfl hrun
  | wait hphase | announced hphase =>
      exact hgoes (by rw [hphase]; trivial) (endedAt9600_of_running trivial)
  | settling hphase | packet hphase =>
      exact hgoes (by rw [hphase]; trivial) (endedAt9600_of_running (running_enterPacket a _))
  | ended hphase =>
      exact hgoes (by rw [hphase]; trivial) (endedAt9600_of_running (running_enterStep _ _))
  | resetting hphase =>
      have hlast : bauds.length ≤ a.s := by simpa [AutoTest.RateOk, hphase] using hsender
      exact hgoes (by rw [hphase]; trivial) fun _ => rateOf_of_le hlast
  | drain hphase | idle hphase =>
      have hnot : ¬ a.phase.Running := by rw [hphase]; exact id
      exact ⟨fun hended => ⟨hended, fun _ hrun => absurd hrun hnot⟩, And.left⟩
  | stop hphase =>
      have hnot : ¬ a.phase.Running := by rw [hphase]; exact id
      constructor
      · intro hended
        exact ⟨fun _ => hended id, fun hkey => absurd hkey Bool.false_ne_true⟩
      · rintro ⟨hended, -⟩ -
        exact hended hnot

/-! ## Whole benchmarks -/

/-- Once the benchmark has returned, the rates agree exactly if it ended at 9600. -/
theorem currentBaud_eq_iff (hbauds : ∀ b ∈ bauds, acceptsBaud b = true) (t : List Sent)
    {x : AutoTest × TestReceiver} (h : Together bauds x) (keys : List Bool)
    (hreturned : ((benchLink n bauds garble).run x keys).1.phase = .returned) :
    ((benchLink n bauds garble).run x keys).2.currentBaud =
        ((benchLink n bauds garble).run x keys).1.currentBaud ↔
      x.1.EndedAt9600 bauds ∧
        (benchLink n bauds garble).Admissible (EndsAt9600 bauds) t x keys := by
  induction keys generalizing t x with
  | nil =>
      have hsender : x.1.currentBaud = 9600 := by
        simpa [AutoTest.RateOk, show x.1.phase = .returned from hreturned] using h.sender
      have hnot : ¬ x.1.phase.Running := by
        rw [show x.1.phase = .returned from hreturned]
        exact id
      rw [Machine.run_nil, h.receiver, hsender]
      exact ⟨fun hrate => ⟨fun _ => hrate, trivial⟩, fun hended => hended.1 hnot⟩
  | cons key keys ih =>
      rw [Machine.run_cons, ih _ (h.step hbauds key) hreturned, endedAt9600_step_iff h t key,
        and_assoc]
      rfl

/-- When the benchmark returns, the receiver is at the sender's rate exactly if no key
ended it while another rate than 9600 was announced; a receiver in raw mode follows no
announcement and has to be at 9600 from the beginning. -/
theorem rate_agreement_iff (hbauds : ∀ b ∈ bauds, acceptsBaud b = true) {r : TestReceiver}
    (hr : r.state = .hunt) (keys : List Bool)
    (hreturned : ((benchLink n bauds garble).run (benchStart bauds garble r) keys).1.phase =
      .returned) :
    ((benchLink n bauds garble).run (benchStart bauds garble r) keys).2.currentBaud =
        ((benchLink n bauds garble).run (benchStart bauds garble r) keys).1.currentBaud ↔
      if r.rawMode then r.currentBaud = 9600
      else (benchLink n bauds garble).Admissible (EndsAt9600 bauds) []
        (benchStart bauds garble r) keys := by
  split
  · next hraw =>
      have hstart : (benchStart bauds garble r).2 = r := foldl_receiveSent_raw garble hraw _
      have hsender : (benchStart bauds garble r).1 = AutoTest.start bauds r.currentBaud := rfl
      rw [run_raw (by rw [hstart, hraw]), hstart]
      rw [fst_run, hsender] at hreturned ⊢
      rw [currentBaud_of_returned hreturned]
  · next hraw =>
      have hstart : Together bauds (benchStart bauds garble r) :=
        together_enterStep hbauds ⟨hr, Bool.eq_false_iff.mpr hraw⟩ 0
      rw [currentBaud_eq_iff hbauds [] hstart keys hreturned]
      exact and_iff_right (endedAt9600_of_running (running_enterStep 0 r.currentBaud))

/-- A step at 100000 has been done when two keys come, right after 9600 was announced. -/
def keysInSecondStep : List Bool :=
  List.replicate 200 false ++ [true, true, false]

/-- Bytes at the wrong rate. -/
def brokenBytes (_ : UInt32) (_ : Sent) : List UInt8 :=
  [0xFF, 0xAB]

/-- Both are back at 9600. -/
theorem rate_agreement_keysInSecondStep :
    ((benchLink 2 [100000, 9600] brokenBytes).run
        (benchStart [100000, 9600] brokenBytes TestReceiver.start)
        keysInSecondStep).2.currentBaud =
      ((benchLink 2 [100000, 9600] brokenBytes).run
        (benchStart [100000, 9600] brokenBytes TestReceiver.start)
        keysInSecondStep).1.currentBaud := by
  have hbauds : ∀ b ∈ [(100000 : UInt32), 9600], acceptsBaud b = true := by decide
  have hhunt : TestReceiver.start.state = .hunt := rfl
  have hreturned : ((benchLink 2 [100000, 9600] brokenBytes).run
      (benchStart [100000, 9600] brokenBytes TestReceiver.start) keysInSecondStep).1.phase =
        .returned := by
    decide +kernel
  refine (rate_agreement_iff hbauds hhunt keysInSecondStep hreturned).mpr ?_
  rw [if_neg (by decide)]
  decide +kernel

/-- A key right after 100000 has been announced leaves the receiver there. -/
theorem key_at_100000_splits_rates :
    ((benchLink 5 [100000] fun _ _ => []).run
        (benchStart [100000] (fun _ _ => []) TestReceiver.start) [true, false]).1.phase =
      .returned ∧
    ((benchLink 5 [100000] fun _ _ => []).run
        (benchStart [100000] (fun _ _ => []) TestReceiver.start) [true, false]).2.currentBaud ≠
      ((benchLink 5 [100000] fun _ _ => []).run
        (benchStart [100000] (fun _ _ => []) TestReceiver.start) [true, false]).1.currentBaud := by
  have hbauds : ∀ b ∈ [(100000 : UInt32)], acceptsBaud b = true := by decide
  have hstart : Together [100000] (benchStart [100000] (fun _ _ => []) TestReceiver.start) :=
    together_enterStep hbauds ⟨rfl, rfl⟩ 0
  have hreturned : ((benchLink 5 [100000] fun _ _ => []).run
      (benchStart [100000] (fun _ _ => []) TestReceiver.start) [true, false]).1.phase =
        .returned := by
    rw [fst_run]
    rfl
  refine ⟨hreturned, ?_⟩
  rw [Ne, currentBaud_eq_iff hbauds [] hstart _ hreturned]
  rintro ⟨-, hkey, -⟩
  exact absurd (hkey rfl trivial) (by decide)

end LifiAuth
