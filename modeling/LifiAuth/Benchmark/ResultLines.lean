import LifiAuth.Benchmark.FullRun
import LifiAuth.Benchmark.ReceiverMain
import LifiAuth.Support.LineReader
import Mathlib.Data.List.DropRight

/-!
# Results on the dashboard

The receiver prints results as text between everything else that it prints, and the
dashboard finds them with a regular expression.  It finds exactly those that were printed:
no text that comes over the light link or from a command is taken for a result.
-/

namespace LifiAuth

open Support

/-! ## The text of a line -/

/-- A digit of `%X`. -/
def upperHexDigit (n : ℕ) : UInt8 :=
  if n < 10 then UInt8.ofNat (48 + n) else UInt8.ofNat (55 + n)

/-- `%lu` of a 32-bit number. -/
def luText (n : UInt32) : List UInt8 :=
  decimal n.toNat

/-- The C library and the USB driver under the `printf` of the receiver. -/
structure RxStdio where
  /-- `%.3f` of the divider for a rate. -/
  divider : UInt32 → List UInt8
  divider_clean : ∀ baud, NoLineEnd (divider baud)
  /-- The driver sends a carriage return in front of a newline. -/
  crlf : Bool

/-- The formats of the test protocol, without the newline. -/
def TestLine.text : TestLine → List UInt8
  | raw byte =>
      ascii "[RAW] 0x" ++ [upperHexDigit (byte.toNat / 16), upperHexDigit (byte.toNat % 16)] ++
        ascii " '" ++ [if 32 ≤ byte ∧ byte < 127 then byte else 46] ++ ascii "'"
  | baudSwitch baud => ascii "[TEST] baud_switch=" ++ luText baud
  | testStart baud => ascii "[TEST_START] baud=" ++ luText baud
  | testResult baud sent recv =>
      ascii "[TEST_RESULT] baud=" ++ (luText baud ++ (ascii " sent=" ++ (luText sent ++
        (ascii " recv=" ++ luText recv))))
  | testDone => ascii "[TEST_DONE]"
  | message count text => ascii "[RX #" ++ luText count ++ ascii "] " ++ text
  | truncated count text =>
      ascii "[RX #" ++ luText count ++ ascii "] " ++ text ++ ascii " ... [TRUNCATED]"

namespace RxStdio

variable (io : RxStdio)

/-- The formats of `main`, without the newline. -/
def text : RxLine → List UInt8
  | .alive raw baud msgs =>
      ascii "[ALIVE] " ++ (if raw then ascii "RAW MODE" else ascii "listening...") ++
        ascii " | baud=" ++ luText baud ++ ascii " | msgs=" ++ luText msgs
  | .rawMode on => ascii "Raw mode " ++ (if on then ascii "ON" else ascii "OFF")
  | .status baud raw msgs =>
      ascii "RX: GP27 | Baud: " ++ luText baud ++ ascii " | Mode: " ++
        (if raw then ascii "RAW" else ascii "SST") ++ ascii " | Msgs: " ++ luText msgs
  | .sampling => ascii "Sampling GP27 for 3s..."
  | .transitions count level =>
      ascii "GP27 transitions in 3s: " ++ luText count ++ ascii " (idle level: " ++
        decimal level.toNat ++ ascii ")"
  | .invalidBaud => ascii "Invalid baud rate (1000-4000000)"
  | .baudSet baud =>
      ascii "Baud set to " ++ luText baud ++ ascii " (div=" ++ io.divider baud ++ ascii ")"
  | .unknown cmd => ascii "Unknown: '" ++ cmd ++ ascii "'"
  | .test line => line.text

/-- The bytes that the host receives for a line, up to the newline. -/
def write (l : RxLine) : List UInt8 :=
  io.text l ++ if io.crlf then [13] else []

/-- The bytes that the host receives. -/
def output (lines : List RxLine) : List UInt8 :=
  lines.flatMap fun l => io.write l ++ [10]

end RxStdio

/-! ## The dashboard -/

/-- The character of a byte below 128. -/
def pyChar (c : UInt8) : Char :=
  Char.ofNat c.toNat

/-- What `app.py` relies on of Python's text: how bytes are decoded, what `rstrip` strips
and what `\d` and `int` take for a digit. -/
structure PythonText where
  /-- `decode('utf-8', errors='replace')`. -/
  decode : List UInt8 → List Char
  decode_nil : decode [] = []
  decode_ascii : ∀ s c t, c < 128 → decode (s ++ c :: t) = decode s ++ pyChar c :: decode t
  isSpace : Char → Bool
  isSpace_ascii : ∀ c : UInt8, c < 128 →
    isSpace (pyChar c) = (c == 32 || (9 ≤ c && c ≤ 13) || (28 ≤ c && c ≤ 31))
  digit : Char → Option ℕ
  digit_ascii : ∀ c : UInt8, c < 128 →
    digit (pyChar c) = if isDigit c then some (c.toNat - 48) else none

/-- What the dashboard emits for the receiver. -/
inductive SocketEvent where
  | log (data : List Char)
  | result (baud sent recv loss : ℕ)
  deriving DecidableEq

/-- A literal of a regular expression. -/
def matchLiteral (p : String) (s : List Char) : Option (List Char) :=
  if p.toList <+: s then some (s.drop p.toList.length) else none

/-- `_emit_test_result`. -/
def emitTestResult (baud sent recv : ℕ) : SocketEvent :=
  .result baud sent recv (sent - recv)

namespace PythonText

variable (py : PythonText)

/-- `int` of digits. -/
def int (digits : List Char) : ℕ :=
  digits.foldl (fun acc c => 10 * acc + (py.digit c).getD 0) 0

/-- `(\d+)`. -/
def matchNumber (s : List Char) : Option (ℕ × List Char) :=
  let digits := s.takeWhile fun c => (py.digit c).isSome
  if digits = [] then none else some (py.int digits, s.drop digits.length)

/-- `RESULT_RE.match`. -/
def resultMatch (s : List Char) : Option (ℕ × ℕ × ℕ) := do
  let s ← matchLiteral "[TEST_RESULT] baud=" s
  let (baud, s) ← py.matchNumber s
  let s ← matchLiteral " sent=" s
  let (sent, s) ← py.matchNumber s
  let s ← matchLiteral " recv=" s
  let (recv, _) ← py.matchNumber s
  return (baud, sent, recv)

/-- A line as it is shown: decoded and without the space at its end. -/
def shown (raw : List UInt8) : List Char :=
  (py.decode raw).rdropWhile py.isSpace

/-- The body of the loop for a line. -/
def handleLine (raw : List UInt8) : List SocketEvent :=
  let line := py.shown raw
  if line = [] then []
  else .log line ::
    ((py.resultMatch line).map fun (baud, sent, recv) => emitTestResult baud sent recv).toList

/-- `read_from_rx_serial`: the dashboard handles each line that it reads. -/
def readFromRxSerial (stream : List (Option UInt8)) : List SocketEvent :=
  ((lineReader 10).trace [] stream).flatMap py.handleLine

end PythonText

/-! ## No line holds another -/

theorem noLineEnd_append {s t : List UInt8} :
    NoLineEnd (s ++ t) ↔ NoLineEnd s ∧ NoLineEnd t :=
  List.forall_mem_append

theorem noLineEnd_decimal (n : ℕ) : NoLineEnd (decimal n) := fun _ hc =>
  have hdigit := isDigit_of_mem_decimal hc
  ⟨ne_of_isDigit hdigit rfl, ne_of_isDigit hdigit rfl⟩

instance (s : List UInt8) : Decidable (NoLineEnd s) :=
  inferInstanceAs (Decidable (∀ c ∈ s, _))

theorem noLineEnd_hexByte (byte : UInt8) :
    NoLineEnd [upperHexDigit (byte.toNat / 16), upperHexDigit (byte.toNat % 16)] := by
  have hdigit : ∀ n : Fin 16, NoLineEnd [upperHexDigit n] := by decide
  have hlt := byte.toNat_lt
  have hhigh := hdigit ⟨byte.toNat / 16, by omega⟩
  have hlow := hdigit ⟨byte.toNat % 16, by omega⟩
  exact noLineEnd_append.mpr ⟨hhigh, hlow⟩

/-- The character that stands for a byte can be printed. -/
theorem noLineEnd_printable (byte : UInt8) :
    NoLineEnd [if 32 ≤ byte ∧ byte < 127 then byte else 46] := by
  split
  · next h =>
      refine List.forall_mem_singleton.mpr ⟨?_, ?_⟩
      · rintro rfl
        exact absurd h.1 (by decide)
      · rintro rfl
        exact absurd h.1 (by decide)
  · decide

namespace RxStdio

variable (io : RxStdio)

theorem noLineEnd_text {l : RxLine} (h : l.NoLineEnd) : NoLineEnd (io.text l) := by
  have hlu (n : UInt32) : NoLineEnd (luText n) := noLineEnd_decimal n.toNat
  cases l with
  | alive raw baud msgs =>
      cases raw <;> simp +decide [text, noLineEnd_append, hlu]
  | rawMode on => cases on <;> simp +decide [text, noLineEnd_append]
  | status baud raw msgs =>
      cases raw <;> simp +decide [text, noLineEnd_append, hlu]
  | sampling | invalidBaud => simp +decide [text]
  | transitions count level =>
      simp +decide [text, noLineEnd_append, hlu, noLineEnd_decimal]
  | baudSet baud =>
      simp +decide [text, noLineEnd_append, hlu, io.divider_clean]
  | unknown cmd =>
      have hcmd : NoLineEnd cmd := h
      simp +decide [text, noLineEnd_append, hcmd]
  | test line =>
      cases line with
      | raw byte =>
          have hhex := noLineEnd_hexByte byte
          have hchar := noLineEnd_printable byte
          simp +decide only [text, TestLine.text, noLineEnd_append, hhex, hchar]
      | baudSwitch baud | testStart baud =>
          simp +decide [text, TestLine.text, noLineEnd_append, hlu]
      | testResult baud sent recv =>
          simp +decide [text, TestLine.text, noLineEnd_append, hlu]
      | testDone => simp +decide [text, TestLine.text]
      | message count message | truncated count message =>
          have hmessage : NoLineEnd message := h
          simp +decide [text, TestLine.text, noLineEnd_append, hlu, hmessage]

theorem not_mem_write {l : RxLine} (h : l.NoLineEnd) : 10 ∉ io.write l := by
  rw [write, List.mem_append, not_or]
  refine ⟨fun hmem => (io.noLineEnd_text h 10 hmem).1 rfl, ?_⟩
  split <;> decide

end RxStdio

/-! ## Texts of Python -/

namespace PythonText

variable (py : PythonText)

/-- An ASCII text in front decodes to itself. -/
theorem decode_append {p : List UInt8} (hp : ∀ c ∈ p, c < 128) (t : List UInt8) :
    py.decode (p ++ t) = p.map pyChar ++ py.decode t := by
  induction p with
  | nil => rfl
  | cons c p ih =>
      obtain ⟨hc, hp⟩ := List.forall_mem_cons.mp hp
      have hfirst := py.decode_ascii [] c (p ++ t) hc
      rw [List.nil_append, py.decode_nil, ih hp] at hfirst
      exact hfirst

theorem digit_decimal {n : ℕ} {c : UInt8} (hc : c ∈ decimal n) :
    py.digit (pyChar c) = some (c.toNat - 48) := by
  have hdigit := isDigit_of_mem_decimal hc
  have hlt : c < 128 := by
    simp only [isDigit, Bool.and_eq_true, decide_eq_true_iff] at hdigit
    exact UInt8.lt_of_le_of_lt hdigit.2 (by decide)
  rw [py.digit_ascii c hlt, if_pos hdigit]

/-- A number is read as it was printed. -/
theorem matchNumber_decimal (n : ℕ) {rest : List Char}
    (hrest : ∀ c ∈ rest.head?, py.digit c = none) :
    py.matchNumber ((decimal n).map pyChar ++ rest) = some (n, rest) := by
  have hdigits : ((decimal n).map pyChar ++ rest).takeWhile
      (fun c => (py.digit c).isSome) = (decimal n).map pyChar := by
    have hall : ∀ c ∈ (decimal n).map pyChar, (py.digit c).isSome := by
      rw [List.forall_mem_map]
      intro c hc
      rw [py.digit_decimal hc]
      rfl
    rw [List.takeWhile_append_of_pos hall]
    cases rest with
    | nil => rw [List.takeWhile_nil, List.append_nil]
    | cons c rest =>
        have hc : py.digit c = none := hrest c rfl
        rw [List.takeWhile_cons_of_neg (by simp [hc]), List.append_nil]
  have hvalue : py.int ((decimal n).map pyChar) = n := by
    rw [int, List.foldl_map]
    refine Eq.trans (List.foldl_ext _ _ _ fun acc c hc => ?_) (decimalValue_decimal n)
    rw [py.digit_decimal hc, Option.getD_some]
  have hne : (decimal n).map pyChar ≠ [] := by
    simpa using decimal_ne_nil n
  simp only [matchNumber, hdigits, if_neg hne, hvalue, List.drop_left]

/-- A literal is read as it was printed. -/
theorem matchLiteral_append {p : String} {rest : List Char} :
    matchLiteral p (p.toList ++ rest) = some rest := by
  rw [matchLiteral, if_pos (List.prefix_append ..), List.drop_left]

/-- A printed result is read with the numbers that were printed. -/
theorem resultMatch_text (baud sent recv : UInt32) :
    py.resultMatch ((TestLine.testResult baud sent recv).text.map pyChar) =
      some (baud.toNat, sent.toNat, recv.toNat) := by
  have htext : (TestLine.testResult baud sent recv).text.map pyChar =
      "[TEST_RESULT] baud=".toList ++ ((decimal baud.toNat).map pyChar ++
        (" sent=".toList ++ ((decimal sent.toNat).map pyChar ++
          (" recv=".toList ++ ((decimal recv.toNat).map pyChar ++ []))))) := by
    simp only [TestLine.text, luText, List.map_append, List.append_nil]
    rfl
  have hblank : py.digit ' ' = none := py.digit_ascii 32 (by decide)
  have hmark (p : String) (rest : List Char) (hp : p.toList.head? = some ' ') :
      ∀ c ∈ (p.toList ++ rest).head?, py.digit c = none := by
    obtain ⟨t, ht⟩ := List.head?_eq_some_iff.mp hp
    rw [ht]
    rintro c ⟨⟩
    exact hblank
  rw [htext, resultMatch]
  simp only [matchLiteral_append, Option.bind_eq_bind, Option.bind_some]
  rw [py.matchNumber_decimal _ (hmark " sent=" _ rfl)]
  simp only [matchLiteral_append, Option.bind_some]
  rw [py.matchNumber_decimal _ (hmark " recv=" _ rfl)]
  simp only [matchLiteral_append, Option.bind_some]
  rw [py.matchNumber_decimal _ (by simp)]
  rfl

/-- The text that a result starts with. -/
def resultStart : List Char :=
  "[TEST_RESULT] baud=".toList

/-- Text that is shown and that no result starts with. -/
structure Opening (p : List UInt8) : Prop where
  ascii : ∀ c ∈ p, c < 128
  length_le : p.length ≤ resultStart.length
  other : ¬ p.map pyChar <+: resultStart
  visible : ∃ c ∈ p, 32 < c

instance (p : List UInt8) : Decidable (Opening p) :=
  decidable_of_iff
    ((∀ c ∈ p, c < 128) ∧ p.length ≤ resultStart.length ∧ ¬ p.map pyChar <+: resultStart ∧
      ∃ c ∈ p, 32 < c)
    ⟨fun ⟨h₁, h₂, h₃, h₄⟩ => ⟨h₁, h₂, h₃, h₄⟩, fun ⟨h₁, h₂, h₃, h₄⟩ => ⟨h₁, h₂, h₃, h₄⟩⟩

theorem isSpace_of_visible {c : UInt8} (hc : c < 128) (h : 32 < c) :
    py.isSpace (pyChar c) = false := by
  have hne : c ≠ 32 := by
    rintro rfl
    exact absurd h (by decide)
  have hle {d : UInt8} (hd : d ≤ 32) : ¬ c ≤ d := fun hcd =>
    absurd (UInt8.lt_of_lt_of_le h (UInt8.le_trans hcd hd)) (UInt8.lt_irrefl 32)
  rw [py.isSpace_ascii c hc]
  simp [hne, hle (d := 13) (by decide), hle (d := 31) (by decide)]

/-- What stands at the end of a line is not shown. -/
theorem shown_of_visible {p : List UInt8} (hp : ∀ c ∈ p, c < 128)
    (hvisible : ∃ c ∈ p, 32 < c) (t : List UInt8) : py.shown (p ++ t) ≠ [] := by
  rw [shown, Ne, List.rdropWhile_eq_nil_iff, py.decode_append hp]
  obtain ⟨c, hc, hgt⟩ := hvisible
  intro h
  have hspace := h (pyChar c) (List.mem_append_left _ (List.mem_map_of_mem hc))
  rw [py.isSpace_of_visible (hp c hc) hgt] at hspace
  exact Bool.false_ne_true hspace

/-- A line that starts otherwise is no result. -/
theorem resultMatch_of_opening {p : List UInt8} (hp : Opening p) (t : List UInt8) :
    py.resultMatch (py.shown (p ++ t)) = none := by
  have hnot : ¬ resultStart <+: py.shown (p ++ t) := by
    intro h
    have hwhole : resultStart <+: p.map pyChar ++ py.decode t := by
      rw [← py.decode_append hp.ascii]
      exact h.trans (List.rdropWhile_prefix ..)
    refine hp.other (List.prefix_of_prefix_length_le (List.prefix_append ..) hwhole ?_)
    rw [List.length_map]
    exact hp.length_le
  have hliteral : matchLiteral "[TEST_RESULT] baud=" (py.shown (p ++ t)) = none := if_neg hnot
  rw [resultMatch, hliteral]
  rfl

theorem decode_concat (s : List UInt8) {c : UInt8} (hc : c < 128) :
    py.decode (s ++ [c]) = py.decode s ++ [pyChar c] := by
  rw [py.decode_ascii s c [] hc, py.decode_nil]

/-- Space at the end of a line is not shown. -/
theorem shown_concat_space (s : List UInt8) {c : UInt8} (hc : 9 ≤ c ∧ c ≤ 13) :
    py.shown (s ++ [c]) = py.shown s := by
  have hlt : c < 128 := UInt8.lt_of_le_of_lt hc.2 (by decide)
  rw [shown, py.decode_concat s hlt]
  refine List.rdropWhile_concat_pos _ _ _ ?_
  rw [py.isSpace_ascii c hlt]
  simp [hc.1, hc.2]

/-- Up to its last visible character a text is shown as a whole. -/
theorem shown_concat_visible (s : List UInt8) {c : UInt8} (hc : c < 128) (h : 32 < c) :
    py.shown (s ++ [c]) = py.decode (s ++ [c]) := by
  rw [shown, py.decode_concat s hc]
  refine List.rdropWhile_concat_neg _ _ _ ?_
  rw [py.isSpace_of_visible hc h]
  exact Bool.false_ne_true

/-- A printed result is shown as it was printed. -/
theorem shown_result (io : RxStdio) (baud sent recv : UInt32) :
    py.shown (io.write (.test (.testResult baud sent recv)) ++ [10]) =
      (TestLine.testResult baud sent recv).text.map pyChar := by
  have hdigit (n : UInt32) {c : UInt8} (hc : c ∈ luText n) : 32 < c ∧ c < 128 := by
    have h := isDigit_of_mem_decimal hc
    simp only [isDigit, Bool.and_eq_true, decide_eq_true_iff] at h
    exact ⟨UInt8.lt_of_lt_of_le (by decide) h.1, UInt8.lt_of_le_of_lt h.2 (by decide)⟩
  have hascii : ∀ c ∈ (TestLine.testResult baud sent recv).text, c < 128 := by
    have hlu (n : UInt32) : ∀ c ∈ luText n, c < 128 := fun c hc => (hdigit n hc).2
    have hbaud : ∀ c ∈ ascii "[TEST_RESULT] baud=", c < 128 := by decide
    have hsent : ∀ c ∈ ascii " sent=", c < 128 := by decide
    have hrecv : ∀ c ∈ ascii " recv=", c < 128 := by decide
    simp only [TestLine.text, List.forall_mem_append]
    exact ⟨hbaud, hlu baud, hsent, hlu sent, hrecv, hlu recv⟩
  -- The text ends with a digit of the last number.
  obtain ⟨s, d, hlast⟩ := List.eq_nil_or_concat (luText recv) |>.resolve_left (decimal_ne_nil _)
  obtain ⟨t, htext⟩ : ∃ t, (TestLine.testResult baud sent recv).text = t ++ [d] :=
    ⟨ascii "[TEST_RESULT] baud=" ++ (luText baud ++ (ascii " sent=" ++ (luText sent ++
      (ascii " recv=" ++ s)))), by simp [TestLine.text, hlast]⟩
  have hd := hdigit recv (show d ∈ luText recv by simp [hlast])
  have hend : py.shown (io.write (.test (.testResult baud sent recv)) ++ [10]) =
      py.shown (TestLine.testResult baud sent recv).text := by
    rw [py.shown_concat_space _ (by decide), RxStdio.write]
    split
    · exact py.shown_concat_space _ (by decide)
    · rw [List.append_nil]
      rfl
  have hdecode := py.decode_append hascii []
  rw [List.append_nil, py.decode_nil, List.append_nil] at hdecode
  rw [hend, ← hdecode, htext]
  exact py.shown_concat_visible t hd.2 hd.1

end PythonText

/-- What a line that is no result starts with. -/
def RxLine.opening : RxLine → List UInt8
  | alive .. => ascii "[ALIVE]"
  | rawMode .. => ascii "Raw mode"
  | status .. => ascii "RX:"
  | sampling => ascii "Sampling"
  | transitions .. => ascii "GP27"
  | invalidBaud => ascii "Invalid"
  | baudSet .. => ascii "Baud"
  | unknown .. => ascii "Unknown:"
  | test (.raw ..) => ascii "[RAW]"
  | test (.baudSwitch ..) => ascii "[TEST]"
  | test (.testStart ..) => ascii "[TEST_START]"
  | test (.testResult ..) => ascii "[TEST_RESULT]"
  | test .testDone => ascii "[TEST_DONE]"
  | test (.message ..) | test (.truncated ..) => ascii "[RX #"

/-- The result that a line reports. -/
def RxLine.result? : RxLine → Option TestResult
  | test line => line.result?
  | _ => none

theorem RxLine.opening_prefix (io : RxStdio) (l : RxLine) : l.opening <+: io.text l := by
  cases l with
  | test line => cases line <;> exact ⟨_, rfl⟩
  | _ => exact ⟨_, rfl⟩

/-- A line starts otherwise than a result, or it is one. -/
theorem RxLine.opening_of_result? {l : RxLine} (h : l.result? = none) :
    PythonText.Opening l.opening := by
  have hall : ∀ s ∈ ["[ALIVE]", "Raw mode", "RX:", "Sampling", "GP27", "Invalid", "Baud",
      "Unknown:", "[RAW]", "[TEST]", "[TEST_START]", "[TEST_DONE]", "[RX #"],
      PythonText.Opening (ascii s) := by decide
  cases l with
  | test line =>
      cases line with
      | testResult baud sent recv => cases h
      | _ => exact hall _ (by decide)
  | _ => exact hall _ (by decide)

/-! ## What the dashboard shows -/

/-- What is emitted for a result of the receiver. -/
def TestResult.event (res : TestResult) : SocketEvent :=
  emitTestResult res.baud.toNat res.sent.toNat res.recv.toNat

/-- What is emitted for a line: the line, and a result if it reports one. -/
def RxLine.events (py : PythonText) (io : RxStdio) (l : RxLine) : List SocketEvent :=
  .log (py.shown (io.write l ++ [10])) :: (l.result?.map TestResult.event).toList

theorem handleLine_write (py : PythonText) (io : RxStdio) (l : RxLine) :
    py.handleLine (io.write l ++ [10]) = l.events py io := by
  have hsome {res : TestResult} (h : l.result? = some res) :
      l = .test (.testResult res.baud res.sent res.recv) := by
    cases l with
    | test line =>
        cases line with
        | testResult baud sent recv =>
            obtain rfl := Option.some.inj h
            rfl
        | _ => cases h
    | _ => cases h
  cases hres : l.result? with
  | none =>
      have hopening := RxLine.opening_of_result? hres
      obtain ⟨t, ht⟩ := RxLine.opening_prefix io l
      have hwrite : io.write l ++ [10] =
          l.opening ++ (t ++ (if io.crlf then [13] else []) ++ [10]) := by
        rw [RxStdio.write, ← ht]
        simp only [List.append_assoc]
      have hshown := py.shown_of_visible hopening.ascii hopening.visible
        (t ++ (if io.crlf then [13] else []) ++ [10])
      have hnone := py.resultMatch_of_opening hopening
        (t ++ (if io.crlf then [13] else []) ++ [10])
      rw [← hwrite] at hshown hnone
      simp only [PythonText.handleLine, RxLine.events, if_neg hshown, hnone, hres,
        Option.map_none]
  | some res =>
      obtain rfl := hsome hres
      have hshown := py.shown_result io res.baud res.sent res.recv
      have hne : (TestLine.testResult res.baud res.sent res.recv).text.map pyChar ≠ [] := by
        simp [TestLine.text, ascii]
      simp only [PythonText.handleLine, RxLine.events, hshown, if_neg hne,
        py.resultMatch_text, hres, Option.map_some]
      rfl

/-- Whatever came in over the light link and from the USB side, the dashboard shows the
lines that were printed. -/
theorem trace_output (py : PythonText) (io : RxStdio) {s : RxMain} (hs : s.Inv)
    (rounds : List RxRound) :
    ((lineReader 10).trace [] ((io.output (rxMain.trace s rounds)).map some)).flatMap
        py.handleLine =
      (rxMain.trace s rounds).flatMap (RxLine.events py io) := by
  rw [RxStdio.output, LineReader.trace_flatMap fun l hl =>
    io.not_mem_write (RxMain.noLineEnd_of_mem_trace hs rounds l hl), List.flatMap_map]
  simp only [handleLine_write]

/-- As long as no pause cuts a line in two, the dashboard has shown, in order, the lines
that the receiver printed, whatever came in over the light link and from the USB side;
and it has emitted exactly the results that are among them. -/
theorem dashboard_shows (py : PythonText) (io : RxStdio) {s : RxMain} (hs : s.Inv)
    (rounds : List RxRound) {stream : List (Option UInt8)}
    (hunbroken : (lineReader 10).Admissible Unbroken [] [] stream) :
    (stream.reduceOption <+: io.output (rxMain.trace s rounds) →
      py.readFromRxSerial stream <+: (rxMain.trace s rounds).flatMap (RxLine.events py io)) ∧
    (stream.reduceOption = io.output (rxMain.trace s rounds) →
      py.readFromRxSerial stream = (rxMain.trace s rounds).flatMap (RxLine.events py io)) := by
  rw [PythonText.readFromRxSerial, LineReader.trace_of_unbroken hunbroken,
    ← trace_output py io hs rounds]
  constructor
  · rintro ⟨rest, hrest⟩
    rw [← hrest, List.map_append, Machine.trace_append, List.flatMap_append]
    exact List.prefix_append ..
  · intro hbytes
    rw [hbytes]

theorem toNat_pyChar {c : UInt8} (hc : c < 128) : (pyChar c).toNat = c.toNat := by
  have hlt : c.toNat < 128 := hc
  rw [pyChar, Char.ofNat, dif_pos (Or.inl (by omega))]
  rfl

/-- A decoder that replaces each byte above 127, with the ASCII spaces and digits. -/
def asciiText : PythonText where
  decode s := s.map fun c => if c < 128 then pyChar c else Char.ofNat 0xFFFD
  decode_nil := rfl
  decode_ascii s c t hc := by simp [hc]
  isSpace ch :=
    let c := UInt8.ofNat ch.toNat
    c == 32 || (9 ≤ c && c ≤ 13) || (28 ≤ c && c ≤ 31)
  isSpace_ascii c hc := by
    simp only [toNat_pyChar hc, UInt8.ofNat_toNat]
  digit ch := if isDigit (UInt8.ofNat ch.toNat) then some (ch.toNat - 48) else none
  digit_ascii c hc := by
    simp only [toNat_pyChar hc, UInt8.ofNat_toNat]

def plainStdio : RxStdio where
  divider _ := ascii "0.000"
  divider_clean _ := by decide
  crlf := true

/-- A receiver at the end of a step with four of five packets. -/
def endingStep : RxMain where
  receiver := { TestReceiver.start with
    state := .payload, buf := ascii "__TEST_END:5__", testBaud := 1000, testRecv := 4 }
  cmd := []

/-- The result is emitted with its loss, though there was a pause before it. -/
theorem dashboard_shows_endingStep :
    asciiText.readFromRxSerial
        (none :: (ascii "[TEST_RESULT] baud=1000 sent=5 recv=4\r\n").map some) =
      [.log "[TEST_RESULT] baud=1000 sent=5 recv=4".toList, .result 1000 5 4 1] := by
  have hinv : endingStep.Inv := ⟨by decide, by decide, by decide, by decide⟩
  have hunbroken : (lineReader 10).Admissible Unbroken [] []
      (none :: (ascii "[TEST_RESULT] baud=1000 sent=5 recv=4\r\n").map some) := by decide
  have hall := (dashboard_shows asciiText plainStdio hinv [⟨false, none, some 10, 0, false⟩]
    hunbroken).2 (by decide)
  rw [hall]
  decide

/-! ## From the command to the dashboard -/

section

variable {garble : UInt32 → Sent → List UInt8}

/-- The bytes that arrive at the receiver for the messages sent. -/
def arriving (garble : UInt32 → Sent → List UInt8) (r : TestReceiver) :
    List Sent → List UInt8
  | [] => []
  | o :: sent =>
      (if o.rate = r.currentBaud then lifiMessage o.message.text
        else garble r.currentBaud o) ++ arriving garble (receiveSent garble r o) sent

theorem trace_hearing (r : TestReceiver) (sent : List Sent) :
    (hearing garble).trace r sent = testReceiver.trace r (arriving garble r sent) := by
  induction sent generalizing r with
  | nil => rfl
  | cons o sent ih =>
      rw [arriving, Machine.trace_append, Machine.trace_cons, ih]
      rfl

/-- Without a command the receiver prints the results of the bytes from the link. -/
theorem results_of_no_key {s : RxMain} {rounds : List RxRound}
    (hkey : ∀ round ∈ rounds, round.key = none) :
    (rxMain.trace s rounds).filterMap RxLine.result? =
      (testReceiver.trace s.receiver (rounds.filterMap RxRound.byte)).filterMap
        TestLine.result? := by
  induction rounds generalizing s with
  | nil => rfl
  | cons round rounds ih =>
      obtain ⟨hnone, hrest⟩ := List.forall_mem_cons.mp hkey
      have halive : (if round.heartbeat then [RxLine.alive s.receiver.rawMode
          s.receiver.currentBaud s.receiver.msgCount] else []).filterMap
            RxLine.result? = [] := by
        split <;> rfl
      rw [Machine.trace_cons, List.filterMap_append, ih hrest]
      have hstep : rxMain.step s round = s.loop round := rfl
      rw [hstep, RxMain.loop, hnone]
      cases hbyte : round.byte with
      | none =>
          rw [List.filterMap_cons_none hbyte]
          simp only [Option.elim_none, List.append_nil, halive, List.nil_append]
      | some b =>
          rw [List.filterMap_cons_some hbyte, Machine.trace_cons, List.filterMap_append]
          simp only [Option.elim_none, Option.elim_some, List.append_nil,
            List.filterMap_append, halive, List.nil_append, RxMain.readByte,
            List.filterMap_map]
          rfl

end

/-- A whole benchmark reports one result for each rate. -/
theorem results_reportLines (n : UInt32) (bauds : List UInt32) :
    (reportLines n bauds).filterMap TestLine.result? = bauds.map fun b => ⟨b, n, n⟩ := by
  induction bauds with
  | nil => rfl
  | cons b bauds ih =>
      have hcons : reportLines n (b :: bauds) = stepLines n b ++ reportLines n bauds := by
        simp [reportLines]
      rw [hcons, List.filterMap_append, ih]
      rfl

def SocketEvent.isResult : SocketEvent → Bool
  | log _ => false
  | result .. => true

/-- Only the results are emitted as results. -/
theorem filter_events (py : PythonText) (io : RxStdio) (lines : List RxLine) :
    (lines.flatMap (RxLine.events py io)).filter SocketEvent.isResult =
      (lines.filterMap RxLine.result?).map TestResult.event := by
  induction lines with
  | nil => rfl
  | cons l lines ih =>
      rw [List.flatMap_cons, List.filter_append, ih, RxLine.events]
      cases hres : l.result? with
      | none =>
          rw [List.filterMap_cons_none hres]
          rfl
      | some res =>
          rw [List.filterMap_cons_some hres]
          rfl

/-- A `test` command that no key interrupts makes the dashboard emit one result for each
rate, in order, with as many packets received as sent. -/
theorem test_shown_on_dashboard {line : CommandLine} {fuel : ℕ} {call : TestCall}
    (hcall : testCommand line fuel = some call) (garble : UInt32 → Sent → List UInt8)
    (py : PythonText) (io : RxStdio) {s : RxMain} (hs : s.Inv) (hr : s.receiver.Listening) :
    ∃ looks, ∀ k, looks ≤ k → ∀ rounds stream,
      (∀ round ∈ rounds, round.key = none) →
      rounds.filterMap RxRound.byte = arriving garble s.receiver
        (sentMessages call.n call.bauds s.receiver.currentBaud (List.replicate k false)) →
      (lineReader 10).Admissible Unbroken [] [] stream →
      stream.reduceOption = io.output (rxMain.trace s rounds) →
      (py.readFromRxSerial stream).filter SocketEvent.isResult =
        call.bauds.map fun b => .result b.toNat call.n.toNat call.n.toNat 0 := by
  obtain ⟨looks, hall⟩ := heard_test hcall garble hr
  refine ⟨looks, fun k hk rounds stream hkey hbytes hunbroken hstream => ?_⟩
  obtain ⟨-, r', -, hruns⟩ := hall k hk
  have hresults : (rxMain.trace s rounds).filterMap RxLine.result? =
      call.bauds.map fun b => ⟨b, call.n, call.n⟩ := by
    rw [results_of_no_key hkey, hbytes, ← trace_hearing, hruns.trace]
    exact results_reportLines call.n call.bauds
  rw [PythonText.readFromRxSerial, LineReader.trace_of_unbroken hunbroken, hstream,
    trace_output py io hs rounds, filter_events, hresults, List.map_map]
  refine List.map_congr_left fun b _ => ?_
  simp [TestResult.event, emitTestResult]

end LifiAuth
