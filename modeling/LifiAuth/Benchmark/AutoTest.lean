import LifiAuth.Benchmark.Messages
import LifiAuth.Support.Machine

/-!
# The automatic benchmark

`run_auto_test` of `pico_speed_test_sender.c` from one look at the keyboard to the next.
It announces each rate, changes over to it, sends the packets of the step between a start
and an end message, and goes back to 9600 at last; a key ends it at any look.
-/

namespace LifiAuth

open Support

/-- The waits of `test_sleep_abortable`. -/
inductive TestWait where
  | announced
  | settling
  | ended
  | resetting
  deriving DecidableEq

def TestWait.ms : TestWait → ℕ
  | announced => 500
  | settling => 100
  | ended => 1200
  | resetting => 400

/-- Where `run_auto_test` looks at the keyboard next. -/
inductive TestPhase where
  | waiting (w : TestWait) (done : ℕ)
  | packets (i : UInt32)
  /-- `drain_stdin_buf` after the jump to `aborted`. -/
  | draining
  | returned
  deriving DecidableEq

/-- The variables of `run_auto_test`; `s` counts the steps. -/
structure AutoTest where
  s : ℕ
  phase : TestPhase
  currentBaud : UInt32
  deriving DecidableEq

/-- A message, with the step and the rate it was sent in. -/
structure Sent where
  step : ℕ
  rate : UInt32
  message : TestMessage
  deriving DecidableEq

namespace AutoTest

variable (n : UInt32) (bauds : List UInt32)

/-- The rate that a step announces; after the last step it is 9600. -/
def rateOf (s : ℕ) : UInt32 :=
  bauds.getD s 9600

/-- The head of the loop over the rates, or what follows it. -/
def enterStep (s : ℕ) (currentBaud : UInt32) : AutoTest × List Sent :=
  if s < bauds.length then
    (⟨s, .waiting .announced 0, currentBaud⟩,
      [⟨s, currentBaud, .baud (rateOf bauds s)⟩])
  else (⟨s, .waiting .resetting 0, currentBaud⟩, [⟨s, currentBaud, .baud 9600⟩])

/-- The head of the loop over the packets, or what follows it. -/
def enterPacket (a : AutoTest) (i : UInt32) : AutoTest × List Sent :=
  if i ≤ n then ({ a with phase := .packets i }, [])
  else ({ a with phase := .waiting .ended 0 }, [⟨a.s, a.currentBaud, .testEnd n⟩])

/-- What follows a wait that no key has ended. -/
def afterWait (a : AutoTest) : TestWait → AutoTest × List Sent
  | .announced =>
      ({ a with phase := .waiting .settling 0, currentBaud := rateOf bauds a.s }, [])
  | .settling =>
      let (next, sent) := enterPacket n a 1
      (next, ⟨a.s, a.currentBaud, .testStart⟩ :: sent)
  | .ended => enterStep bauds (a.s + 1) a.currentBaud
  | .resetting =>
      ({ a with phase := .returned, currentBaud := 9600 }, [⟨a.s, 9600, .done⟩])

/-- From one `getchar_timeout_us(0)` to the next; `key` says whether it found a key. -/
def poll (a : AutoTest) (key : Bool) : AutoTest × List Sent :=
  match a.phase with
  | .waiting w done =>
      if key then ({ a with phase := .draining }, [])
      else if done + 10 < w.ms then ({ a with phase := .waiting w (done + 10) }, [])
      else afterWait n bauds a w
  | .packets i =>
      if key then ({ a with phase := .draining }, [])
      else
        let (next, sent) := enterPacket n a (i + 1)
        (next, ⟨a.s, a.currentBaud, .pkt i⟩ :: sent)
  | .draining =>
      if key then (a, []) else ({ a with phase := .returned, currentBaud := 9600 }, [])
  | .returned => (a, [])

end AutoTest

/-! ## What a look at the keyboard can lead to -/

/-- A key ends the test here. -/
def TestPhase.Running : TestPhase → Prop
  | waiting _ _ | packets _ => True
  | draining | returned => False

instance : DecidablePred TestPhase.Running
  | .waiting _ _ | .packets _ => isTrue trivial
  | .draining | .returned => isFalse id

namespace AutoTest

variable {n : UInt32} {bauds : List UInt32}

/-- The cases of a look at the keyboard. -/
inductive Polled (n : UInt32) (bauds : List UInt32) (a : AutoTest) :
    Bool → AutoTest × List Sent → Prop where
  | abort (h : a.phase.Running) : Polled n bauds a true ({ a with phase := .draining }, [])
  | wait {w : TestWait} {done : ℕ} (h : a.phase = .waiting w done) :
      Polled n bauds a false ({ a with phase := .waiting w (done + 10) }, [])
  | announced {done : ℕ} (h : a.phase = .waiting .announced done) :
      Polled n bauds a false ({ a with
        phase := .waiting .settling 0, currentBaud := rateOf bauds a.s }, [])
  | settling {done : ℕ} (h : a.phase = .waiting .settling done) :
      Polled n bauds a false ((enterPacket n a 1).1,
        ⟨a.s, a.currentBaud, .testStart⟩ :: (enterPacket n a 1).2)
  | ended {done : ℕ} (h : a.phase = .waiting .ended done) :
      Polled n bauds a false (enterStep bauds (a.s + 1) a.currentBaud)
  | resetting {done : ℕ} (h : a.phase = .waiting .resetting done) :
      Polled n bauds a false ({ a with phase := .returned, currentBaud := 9600 },
        [⟨a.s, 9600, .done⟩])
  | packet {i : UInt32} (h : a.phase = .packets i) :
      Polled n bauds a false ((enterPacket n a (i + 1)).1,
        ⟨a.s, a.currentBaud, .pkt i⟩ :: (enterPacket n a (i + 1)).2)
  | drain (h : a.phase = .draining) : Polled n bauds a true (a, [])
  | stop (h : a.phase = .draining) :
      Polled n bauds a false ({ a with phase := .returned, currentBaud := 9600 }, [])
  | idle (h : a.phase = .returned) (key : Bool) : Polled n bauds a key (a, [])

variable (n bauds) in
theorem polled (a : AutoTest) (key : Bool) : Polled n bauds a key (poll n bauds a key) := by
  rw [poll]
  split
  · next w done h =>
      split
      · next hkey =>
          rw [hkey]
          exact .abort (by rw [h]; trivial)
      · next hkey =>
          rw [Bool.eq_false_iff.mpr hkey]
          split
          · exact .wait h
          · cases w with
            | announced => exact .announced h
            | settling => exact .settling h
            | ended => exact .ended h
            | resetting => exact .resetting h
  · next i h =>
      split
      · next hkey =>
          rw [hkey]
          exact .abort (by rw [h]; trivial)
      · next hkey =>
          rw [Bool.eq_false_iff.mpr hkey]
          exact .packet h
  · next h =>
      split
      · next hkey =>
          rw [hkey]
          exact .drain h
      · next hkey =>
          rw [Bool.eq_false_iff.mpr hkey]
          exact .stop h
  · next h => exact .idle h key

variable (n) in
theorem enterPacket_cases (a : AutoTest) (i : UInt32) :
    (i ≤ n ∧ enterPacket n a i = ({ a with phase := .packets i }, [])) ∨
      (n < i ∧ enterPacket n a i = ({ a with phase := .waiting .ended 0 },
        [⟨a.s, a.currentBaud, .testEnd n⟩])) := by
  rw [enterPacket]
  split
  · next h => exact Or.inl ⟨h, rfl⟩
  · next h => exact Or.inr ⟨UInt32.not_le.mp h, rfl⟩

theorem rateOf_of_le {s : ℕ} (h : bauds.length ≤ s) : rateOf bauds s = 9600 := by
  simp [rateOf, h]

variable (bauds) in
theorem enterStep_cases (s : ℕ) (currentBaud : UInt32) :
    (s < bauds.length ∧ enterStep bauds s currentBaud =
        (⟨s, .waiting .announced 0, currentBaud⟩,
          [⟨s, currentBaud, .baud (rateOf bauds s)⟩])) ∨
      (bauds.length ≤ s ∧ enterStep bauds s currentBaud =
        (⟨s, .waiting .resetting 0, currentBaud⟩,
          [⟨s, currentBaud, .baud (rateOf bauds s)⟩])) := by
  rw [enterStep]
  split
  · next h => exact Or.inl ⟨h, rfl⟩
  · next h =>
      have hle := Nat.le_of_not_lt h
      exact Or.inr ⟨hle, by rw [rateOf_of_le hle]⟩

end AutoTest

/-- `run_auto_test` and what each look at the keyboard finds. -/
def autoTest (n : UInt32) (bauds : List UInt32) : Machine AutoTest Bool Sent where
  step := AutoTest.poll n bauds

/-- The state at the first look at the keyboard, when the rate was `currentBaud`. -/
def AutoTest.start (bauds : List UInt32) (currentBaud : UInt32) : AutoTest :=
  (enterStep bauds 0 currentBaud).1

/-- All messages sent until then and at the looks that follow. -/
def sentMessages (n : UInt32) (bauds : List UInt32) (currentBaud : UInt32)
    (keys : List Bool) : List Sent :=
  (AutoTest.enterStep bauds 0 currentBaud).2 ++
    (autoTest n bauds).trace (AutoTest.start bauds currentBaud) keys

end LifiAuth
