import LifiAuth.Benchmark.Receiver

/-!
# The main loop of the receiver

Each round of `main` in `receiver_pico/src/main.c` may print a heartbeat, takes one
character of a command from the USB side and one byte from the light link.  Everything
that is printed is one line of text.
-/

namespace LifiAuth

open Support

/-- What the main loop prints. -/
inductive RxLine where
  | alive (raw : Bool) (baud msgs : UInt32)
  | rawMode (on : Bool)
  | status (baud : UInt32) (raw : Bool) (msgs : UInt32)
  | sampling
  | transitions (count : UInt32) (level : Bool)
  | invalidBaud
  | baudSet (baud : UInt32)
  | unknown (cmd : List UInt8)
  | test (line : TestLine)
  deriving DecidableEq

/-- The globals of the receiver and its command line up to `cmd_idx`. -/
structure RxMain where
  receiver : TestReceiver
  cmd : List UInt8
  deriving DecidableEq

/-- What a round finds: whether two seconds have passed, a character and a byte if there
are any, and what 'pintest' would count and see on the pin. -/
structure RxRound where
  heartbeat : Bool
  key : Option UInt8
  byte : Option UInt8
  transitions : UInt32
  level : Bool

namespace RxMain

/-- The globals when the loop is entered. -/
def start : RxMain where
  receiver := TestReceiver.start
  cmd := []

/-- A complete command. -/
def command (r : TestReceiver) (cmd : List UInt8) (transitions : UInt32) (level : Bool) :
    TestReceiver × List RxLine :=
  if cmd = ascii "raw on" then ({ r with rawMode := true }, [.rawMode true])
  else if cmd = ascii "raw off" then ({ r with rawMode := false }, [.rawMode false])
  else if cmd = ascii "status" then (r, [.status r.currentBaud r.rawMode r.msgCount])
  else if cmd = ascii "pintest" then (r, [.sampling, .transitions transitions level])
  else if ascii "baud " <+: cmd then
    let b := strtoul (cmd.drop 5)
    if b < 1000 ∨ b > 4000000 then (r, [.invalidBaud])
    else ({ r with currentBaud := b }, [.baudSet b])
  else if cmd ≠ [] then (r, [.unknown cmd])
  else (r, [])

/-- A character from the USB side. -/
def readKey (s : RxMain) (c : UInt8) (transitions : UInt32) (level : Bool) :
    RxMain × List RxLine :=
  if c = 10 ∨ c = 13 then
    let (r, lines) := command s.receiver (cstr s.cmd) transitions level
    (⟨r, []⟩, lines)
  else if s.cmd.length < 63 then ({ s with cmd := s.cmd ++ [c] }, [])
  else (s, [])

/-- A byte from the light link. -/
def readByte (s : RxMain) (byte : UInt8) : RxMain × List RxLine :=
  let (r, lines) := s.receiver.receiveByte byte
  ({ s with receiver := r }, lines.map .test)

/-- One round of the loop. -/
def loop (s : RxMain) (round : RxRound) : RxMain × List RxLine :=
  let alive := if round.heartbeat then
    [.alive s.receiver.rawMode s.receiver.currentBaud s.receiver.msgCount] else []
  let (s, answers) :=
    round.key.elim (s, []) fun c => s.readKey c round.transitions round.level
  let (s, lines) := round.byte.elim (s, []) s.readByte
  (s, alive ++ answers ++ lines)

end RxMain

/-- The receiver, round by round. -/
def rxMain : Machine RxMain RxRound RxLine where
  step := RxMain.loop

/-! ## Text without a line end -/

/-- The characters are no line ends. -/
def NoLineEnd (s : List UInt8) : Prop :=
  ∀ c ∈ s, c ≠ 10 ∧ c ≠ 13

theorem NoLineEnd.cstr {s : List UInt8} (h : NoLineEnd s) : NoLineEnd (LifiAuth.cstr s) :=
  fun c hc => h c (List.takeWhile_subset _ hc)

theorem NoLineEnd.append {s : List UInt8} (h : NoLineEnd s) {c : UInt8}
    (hc : ¬ (c = 10 ∨ c = 13)) : NoLineEnd (s ++ [c]) :=
  List.forall_mem_append.mpr ⟨h, List.forall_mem_singleton.mpr (not_or.mp hc)⟩

/-- What comes from outside is printed without its line end. -/
def RxLine.NoLineEnd : RxLine → Prop
  | unknown cmd => LifiAuth.NoLineEnd cmd
  | test (.message _ text) | test (.truncated _ text) => LifiAuth.NoLineEnd text
  | _ => True

/-- The two buffers are within their arrays and hold no line end. -/
structure RxMain.Inv (s : RxMain) : Prop where
  buf_le : s.receiver.buf.length ≤ 511
  buf_clean : NoLineEnd s.receiver.buf
  cmd_le : s.cmd.length ≤ 63
  cmd_clean : NoLineEnd s.cmd

namespace RxMain

theorem start_inv : start.Inv :=
  ⟨Nat.zero_le _, List.forall_mem_nil _, Nat.zero_le _, List.forall_mem_nil _⟩

/-- A command leaves the buffer alone and is printed as it is. -/
theorem command_inv (r : TestReceiver) {cmd : List UInt8} (hcmd : NoLineEnd cmd)
    (transitions : UInt32) (level : Bool) :
    (command r cmd transitions level).1.buf = r.buf ∧
      ∀ l ∈ (command r cmd transitions level).2, l.NoLineEnd := by
  simp only [command]
  split_ifs <;> simp [RxLine.NoLineEnd, hcmd]

theorem dispatch_inv (r : TestReceiver) {text : List UInt8} (htext : NoLineEnd text) :
    (r.dispatch text).1.buf = r.buf ∧
      ∀ l ∈ (r.dispatch text).2, (RxLine.test l).NoLineEnd := by
  simp only [TestReceiver.dispatch]
  split_ifs <;> simp [RxLine.NoLineEnd, htext]

/-- A byte from the link keeps the buffer in order. -/
theorem receiveByte_inv {r : TestReceiver} (hlen : r.buf.length ≤ 511)
    (hbuf : NoLineEnd r.buf) (byte : UInt8) :
    (r.receiveByte byte).1.buf.length ≤ 511 ∧ NoLineEnd (r.receiveByte byte).1.buf ∧
      ∀ l ∈ (r.receiveByte byte).2, (RxLine.test l).NoLineEnd := by
  simp only [TestReceiver.receiveByte]
  split
  · exact ⟨hlen, hbuf, by simp [RxLine.NoLineEnd]⟩
  split
  · split <;> exact ⟨hlen, hbuf, List.forall_mem_nil _⟩
  · exact ⟨hlen, hbuf, List.forall_mem_nil _⟩
  · exact ⟨hlen, hbuf, List.forall_mem_nil _⟩
  · split
    · exact ⟨Nat.zero_le _, List.forall_mem_nil _, List.forall_mem_nil _⟩
    · exact ⟨hlen, hbuf, List.forall_mem_nil _⟩
  · split
    · obtain ⟨hkept, hlines⟩ := dispatch_inv { r with msgCount := r.msgCount + 1 }
        hbuf.cstr
      simp only [TestReceiver.endLine, hkept]
      exact ⟨hlen, hbuf, hlines⟩
    next hend =>
      split
      · refine ⟨?_, hbuf.append hend, List.forall_mem_nil _⟩
        rw [List.length_append, List.length_singleton]
        omega
      · refine ⟨hlen, hbuf, ?_⟩
        rw [List.forall_mem_singleton]
        exact hbuf.cstr

theorem Inv.readKey {s : RxMain} (h : s.Inv) (c : UInt8) (transitions : UInt32)
    (level : Bool) : (s.readKey c transitions level).1.Inv ∧
      ∀ l ∈ (s.readKey c transitions level).2, l.NoLineEnd := by
  simp only [RxMain.readKey]
  split
  · obtain ⟨hkept, hlines⟩ :=
      command_inv s.receiver h.cmd_clean.cstr transitions level
    refine ⟨⟨?_, ?_, Nat.zero_le _, List.forall_mem_nil _⟩, hlines⟩
    · simpa only [hkept] using h.buf_le
    · simpa only [hkept] using h.buf_clean
  · next hend =>
      split
      · refine ⟨⟨h.buf_le, h.buf_clean, ?_, h.cmd_clean.append hend⟩, List.forall_mem_nil _⟩
        rw [List.length_append, List.length_singleton]
        omega
      · exact ⟨h, List.forall_mem_nil _⟩

theorem Inv.readByte {s : RxMain} (h : s.Inv) (byte : UInt8) :
    (s.readByte byte).1.Inv ∧ ∀ l ∈ (s.readByte byte).2, l.NoLineEnd := by
  obtain ⟨hlen, hbuf, hlines⟩ := receiveByte_inv h.buf_le h.buf_clean byte
  refine ⟨⟨hlen, hbuf, h.cmd_le, h.cmd_clean⟩, ?_⟩
  rintro l hl
  obtain ⟨line, hline, rfl⟩ := List.mem_map.mp hl
  exact hlines line hline

/-- A round stays within the arrays and prints lines. -/
theorem Inv.loop {s : RxMain} (h : s.Inv) (round : RxRound) :
    (s.loop round).1.Inv ∧ ∀ l ∈ (s.loop round).2, l.NoLineEnd := by
  have halive : ∀ l ∈ (if round.heartbeat then [RxLine.alive s.receiver.rawMode
      s.receiver.currentBaud s.receiver.msgCount] else []), l.NoLineEnd := by
    split <;> simp [RxLine.NoLineEnd]
  have hkey : (round.key.elim (s, []) fun c =>
      s.readKey c round.transitions round.level).1.Inv ∧
      ∀ l ∈ (round.key.elim (s, []) fun c =>
        s.readKey c round.transitions round.level).2, l.NoLineEnd := by
    cases round.key with
    | none => exact ⟨h, List.forall_mem_nil _⟩
    | some c => exact h.readKey c _ _
  simp only [RxMain.loop]
  generalize (round.key.elim (s, []) fun c =>
    s.readKey c round.transitions round.level) = after at hkey
  have hbyte : (round.byte.elim (after.1, []) after.1.readByte).1.Inv ∧
      ∀ l ∈ (round.byte.elim (after.1, []) after.1.readByte).2, l.NoLineEnd := by
    cases round.byte with
    | none => exact ⟨hkey.1, List.forall_mem_nil _⟩
    | some b => exact hkey.1.readByte b
  refine ⟨hbyte.1, ?_⟩
  exact List.forall_mem_append.mpr
    ⟨List.forall_mem_append.mpr ⟨halive, hkey.2⟩, hbyte.2⟩

/-- Whatever comes in, everything that is printed is a line. -/
theorem noLineEnd_of_mem_trace {s : RxMain} (h : s.Inv) (rounds : List RxRound) :
    ∀ l ∈ rxMain.trace s rounds, l.NoLineEnd := by
  induction rounds generalizing s with
  | nil => exact List.forall_mem_nil _
  | cons round rounds ih =>
      obtain ⟨hnext, hlines⟩ := h.loop round
      exact List.forall_mem_append.mpr ⟨hlines, ih hnext⟩

end RxMain

end LifiAuth
